import SableFront.Proofs.Progress.Reading
import SableFront.Proofs.Spaced.Operand

/-!
# Spaced text: programs of one statement

A text of one statement, perhaps with a semicolon after it, is read as a program of this statement
(`parse_of_statement`). So if the words of a text are an expression, the program is this expression,
without errors (`parse_of_expression`).
-/

namespace SableFront.Grammar

variable {w : Word} {ws rest : List Word} {e : Outline} {s t : State}

/-- The word starts an expression where a statement may start. -/
def StartsExpression (w : Word) : Prop := w.kind = .int ∨ w.kind = .punctuation .lParen

theorem goes_statement {r : Rules} (hw : StartsExpression w)
    (h : Goes (expression r) (w :: ws) rest (IsNode e)) :
    Goes (statement r) (w :: ws) rest (IsNode e) := by
  refine goes_current.bind fun t ht => ?_
  have hkind : t.kind = w.kind := ht
  rw [hkind]
  rcases hw with hw | hw <;> rw [hw] <;> exact h

/-! ### Programs of one statement -/

/-- Go past the semicolon that comes next, if one does. -/
def State.pastSemicolon (s : State) : State :=
  if s.isAt (.punctuation .semicolon) then s.advance else s

/-- The statement that ends here is the last one, and no comment follows it. -/
structure State.IsLast (s : State) : Prop where
  eof : s.pastSemicolon.isAt .eof
  comments : s.pastSemicolon.comments = []

/-- The node without the comments attached to it. -/
def withoutComments (node : Node) : Node :=
  node.modify fun d => { d with leading := [], trailing := [] }

theorem set_comments_nil (h : s.comments = []) : { s with comments := [] } = s := by
  cases s
  cases h
  rfl

theorem skipSemicolons_eq (h : s.isAt (.punctuation .semicolon) = false) (n : Nat) :
    skipSemicolons n s = s := by
  cases n with
  | zero => rfl
  | succ n =>
    rw [skipSemicolons, h]
    rfl

theorem finishItem_last (ht : t.IsLast) {start : Nat} (hmoves : t.current.offset ≠ start)
    (node : Node) : finishItem start [] node t = (withoutComments node, t.pastSemicolon) := by
  have hover : stepOver start t = t := by
    unfold stepOver
    rw [if_pos (by simp [hmoves])]
  have htrailing : trailingComments t.pastSemicolon node = ([], []) := by
    unfold trailingComments
    rw [ht.comments]
    split <;> rfl
  have hpast : (if t.isAt (.punctuation .semicolon) then t.advance else t) = t.pastSemicolon := rfl
  unfold finishItem
  rw [hover]
  dsimp only
  rw [hpast, htrailing]
  exact Prod.ext rfl (set_comments_nil ht.comments)

section Last

variable {r : Rules} {node : Node} (hs : s.comments = [])
  (hrun : outcome (statement r) s = (.ok (some node), t))
  (hmoves : t.current.offset ≠ s.current.offset) (ht : t.IsLast)

include hs hrun hmoves ht

theorem item_last : item r .file s = ([withoutComments node], t.pastSemicolon) := by
  have hleading : leadingComments s = ([], []) := by
    unfold leadingComments
    rw [hs]
    split <;> rfl
  have hitem : (itemProduction r .file s).run { s with comments := [] } = (.ok (some node), t) := by
    rw [set_comments_nil hs]
    exact hrun
  unfold item
  rw [hleading]
  simp only [hitem, finishItem_last ht hmoves, List.nil_append]

/-- A list with one statement only. -/
theorem itemsAfter_last (hsemicolon : s.isAt (.punctuation .semicolon) = false)
    (heof : s.isAt .eof = false) (n : Nat) :
    itemsAfter r .file (n + 1) [] s = ([withoutComments node], t.pastSemicolon) := by
  have hround : itemsAfter r .file (n + 1) [] s =
      itemsAfter r .file n [withoutComments node] t.pastSemicolon := by
    rw [itemsAfter]
    dsimp only
    rw [skipSemicolons_eq hsemicolon, endsItems_file, heof, if_neg Bool.false_ne_true,
      item_last hs hrun hmoves ht]
    rfl
  rw [hround]
  cases n with
  | zero => rfl
  | succ n =>
    have hkind : t.pastSemicolon.isAt (.punctuation .semicolon) = false := by
      rw [State.isAt, beq_iff_eq.mp ht.eof]
      rfl
    rw [itemsAfter]
    dsimp only
    rw [skipSemicolons_eq hkind, endsItems_file, if_pos ht.eof, ht.comments]
    exact Prod.ext rfl (set_comments_nil ht.comments)

end Last

/-- **A text that is one statement** is read as that statement, without further errors. -/
theorem parse_of_statement {source : String} {config : ParseConfig} {node : Node}
    (hs : (State.start source config).comments = [])
    (hsemicolon : (State.start source config).isAt (.punctuation .semicolon) = false)
    (heof : (State.start source config).isAt .eof = false)
    (hrun : outcome (statement (rules (source.utf8ByteSize + 1))) (State.start source config) =
      (.ok (some node), t)) (ht : t.IsLast) :
    (Program.parse source config).nodes = [withoutComments node] ∧
      (Program.parse source config).errors = t.errors := by
  have hmoves : t.current.offset ≠ (State.start source config).current.offset := by
    have hsame := hrun
    rw [← set_comments_nil hs] at hsame
    exact start_moves source config hsame
  have hitems : (rules (Program.circles source)).items .file (State.start source config) =
      ([withoutComments node], t.pastSemicolon) :=
    itemsAfter_last hs hrun hmoves ht hsemicolon heof _
  have herrors : t.pastSemicolon.errors = t.errors := by
    unfold State.pastSemicolon
    split
    · exact State.errors_advance t
    · rfl
  unfold Program.parse
  dsimp only
  rw [hitems]
  exact ⟨rfl, herrors⟩

/-! ### Texts of words -/

/-- Nothing is left of the text but a semicolon at most. -/
def Closed (rest : List Word) : Prop := rest = [] ∨ rest = [.mark .semicolon]

theorem Before.isLast (h : Before rest s) (hrest : Closed rest) : s.IsLast := by
  have hafter : Before [] s.pastSemicolon := by
    unfold State.pastSemicolon
    rcases hrest with rfl | rfl
    · rw [h.isAt, if_neg (by decide)]
      exact h
    · rw [h.isAt, if_pos (by rfl)]
      exact h.advance
  exact ⟨hafter.isAt .eof, hafter.comments⟩

theorem length_le_byteSize (cs : List Char) : cs.length ≤ byteSize cs := by
  induction cs with
  | nil => exact Nat.le_refl 0
  | cons c cs ih =>
    have hpos := c.utf8Size_pos
    rw [List.length_cons, byteSize_cons]
    omega

theorem length_le_length_spaced (ws : List Word) : ws.length ≤ (spaced ws).length := by
  induction ws with
  | nil => exact Nat.le_refl 0
  | cons w ws ih =>
    have hcons : spaced (w :: ws) = ' ' :: (w.text.toList ++ spaced ws) := rfl
    rw [hcons, List.length_cons, List.length_cons, List.length_append]
    omega

/-- A text has at least as many bytes as words. -/
theorem length_le_utf8ByteSize (hw : w.IsRead) :
    (w :: ws).length ≤ (sourceOf (w :: ws)).utf8ByteSize := by
  obtain ⟨c, cs, htext, -⟩ := hw.scan
  have hbytes := byteSize_eq_utf8ByteSize (sourceOf (w :: ws)).toList
  rw [String.ofList_toList, toList_sourceOf, htext] at hbytes
  rw [← hbytes]
  refine Nat.le_trans ?_ (length_le_byteSize _)
  have hle := length_le_length_spaced ws
  rw [List.length_append, List.length_cons, List.length_cons]
  omega

/-- **A text that is one expression** is read as that expression, without errors. -/
theorem parse_of_expression (hwords : ∀ v ∈ w :: ws, v.IsRead) (config : ParseConfig)
    (hw : StartsExpression w) (hrest : Closed rest)
    (hgoes : Goes (expression (rules ((sourceOf (w :: ws)).utf8ByteSize + 1))) (w :: ws) rest
      (IsNode e)) :
    ∃ node, (Program.parse (sourceOf (w :: ws)) config).nodes = [node] ∧ node.outline = e ∧
      (Program.parse (sourceOf (w :: ws)) config).errors = [] := by
  have hstart := before_start hwords config
  have hkind {k : Kind} (hk : w.kind ≠ k) :
      (State.start (sourceOf (w :: ws)) config).isAt k = false := by
    rw [hstart.isAt]
    exact beq_false_of_ne hk
  have hsemicolon : w.kind ≠ .punctuation .semicolon := by
    rcases hw with hw | hw <;> rw [hw] <;> decide
  have heof : w.kind ≠ .eof := (hwords w List.mem_cons_self).not_eof
  rcases goes_statement hw hgoes hstart with ⟨found, t, hrun, -, ht⟩ | ⟨e, t, -, -, hfalse⟩
  · obtain ⟨⟨node, rfl, hnode⟩, ht⟩ := ht
    obtain ⟨hnodes, herrors⟩ := parse_of_statement hstart.comments (hkind hsemicolon) (hkind heof)
      hrun (ht.isLast hrest)
    exact ⟨_, hnodes, (node.outline_comments [] []).trans hnode, herrors.trans ht.errors⟩
  · exact absurd hfalse id

end SableFront.Grammar
