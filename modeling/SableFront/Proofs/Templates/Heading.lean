import SableFront.Proofs.Comments.Calm

/-!
# Templates: what stands after a header

After its header a template goes on with whatever statement a few keywords can start. Mostly that is
a definition, but `function (` starts a lambda, and a visibility keyword may stand alone or before a
declaration. A text is *well headed* if the item of each header starts a definition, or cannot be an
item at all. The kinds of the significant tokens decide it, and it holds on while reading.
-/

namespace SableFront

open Lexeme

/-- A visibility keyword before this belongs to a definition. -/
def definesVisibly : List Kind → Bool
  | .keyword .classKw :: _ | .keyword .enumKw :: _ => true
  | .keyword .functionKw :: _ | .keyword .operatorKw :: _ => true
  | .keyword k :: .keyword .functionKw :: _ | .keyword k :: .keyword .operatorKw :: _ => k.isStorage
  | _ => false

/-- If the item of a template can start here, it is a definition. -/
def opensDefinition : List Kind → Bool
  | .keyword .functionKw :: .punctuation .lParen :: _ => false
  | .keyword k :: ks => !k.isVisibility || definesVisibly ks
  | _ => true

/-- What stands behind the parameters of a template, if these are well-formed. -/
def afterParams : List Kind → List Kind
  | .ident :: ks | .punctuation .ellipsis :: ks | .punctuation .comma :: ks => afterParams ks
  | k :: ks => if Grammar.isClosingAngle k then ks else []
  | [] => []

/-- What stands behind the header of a template, from after its keyword. -/
def afterHeader : List Kind → List Kind
  | .operator .lt :: ks => afterParams ks
  | _ => []

/-- The item of each template, if it can be one, is a definition. -/
def wellHeaded : List Kind → Bool
  | .keyword .templateKw :: ks => opensDefinition (afterHeader ks) && wellHeaded ks
  | _ :: ks => wellHeaded ks
  | [] => true

variable {k : Kind} {ks js : List Kind}

theorem wellHeaded_tail (h : wellHeaded (k :: ks)) : wellHeaded ks := by
  unfold wellHeaded at h
  split at h
  · rename_i heq
    cases heq
    exact (Bool.and_eq_true_iff.mp h).2
  · rename_i heq
    cases heq
    exact h
  · rename_i heq
    cases heq

theorem wellHeaded_run (hk : isRunKind k) (ks : List Kind) :
    wellHeaded (k :: ks) = wellHeaded ks := by
  cases k with
  | operator o => rfl
  | _ => cases hk

theorem opensDefinition_of_run (h : isRunKind k) : opensDefinition (k :: ks) := by
  cases k with
  | operator o => rfl
  | _ => cases h

theorem definesVisibly_of_opensDefinition {k : Keyword} (hk : k.isVisibility)
    (h : opensDefinition (.keyword k :: ks)) : definesVisibly ks := by
  unfold opensDefinition at h
  split at h
  · cases h
  · rename_i heq
    cases heq
    rw [hk] at h
    exact h
  · rename_i hother
    exact absurd rfl (hother k ks)

namespace Grammar

variable {s t : State}

/-! ### Words -/

theorem kind_of_words (h : s.words = k :: ks) : s.current.kind = k := (List.cons.inj h).1

theorem words_advance_of_words (h : s.words = k :: ks) (hk : k ≠ .eof) : s.advance.words = ks := by
  have hat : s.isAt k := beq_iff_eq.mpr (kind_of_words h)
  exact (List.cons.inj ((words_advance_of_isAt hat hk).symm.trans h)).2

theorem persistent_wellHeaded : Persistent fun ks => wellHeaded ks :=
  .of_check (fun h _ => wellHeaded_tail h) wellHeaded_run

theorem wellHeaded_advance (h : wellHeaded s.words) : wellHeaded s.advance.words :=
  words_advance_of_tail (P := fun ks => wellHeaded ks) wellHeaded_tail h

theorem words_eq_of_lexer (h : t.lexer = s.lexer) : t.words = s.words := by
  rw [State.words, State.words, State.current, State.current, h]

/-- Where a run of `>` and `=` goes on, the next token is part of it. -/
theorem isRunKind_significant {c : Cursor} {d : Char} {ds : List Char} (hrest : c.rest = d :: ds)
    (hd : isRunChar d) : isRunKind c.significant.token.kind := by
  obtain ⟨spelling, kind, hscan, -, -, -, hkind⟩ := scan_run hd ds
  have hnext : c.next.1.kind = kind := by
    rw [Cursor.next, hrest]
    dsimp only
    rw [hscan]
    rfl
  have htrivia : kind.isTrivia = false := by
    cases kind with
    | operator o => rfl
    | _ => cases hkind
  rw [Cursor.significant, dif_neg]
  · rwa [hnext]
  · rw [hnext, htrivia]
    exact fun h => Bool.false_ne_true h.2

/-- Behind the first `>` of a longer token stands the rest of that token. -/
theorem isRunKind_behind_split {l : Lexer} (h : s.lexer.splitAngle? = some l) :
    isRunKind ({ s with lexer := l } : State).advance.current.kind := by
  unfold Lexer.splitAngle? at h
  obtain ⟨tail, htail, rfl⟩ := Option.map_eq_some_iff.mp h
  have hrun := Lexer.all_isRunChar_of_afterAngle? htail
  cases tail with
  | nil =>
    unfold Lexer.afterAngle? at htail
    split at htail <;> cases htail
  | cons d ds => exact isRunKind_significant (d := d) rfl (Bool.and_eq_true_iff.mp hrun).1

/-- Behind the `>` that closes a well-formed header, split off or not, the item opens. -/
theorem opensDefinition_behind_angle (hangle : isClosingAngle s.current.kind)
    (h : opensDefinition (afterParams s.words)) :
    let t := { s with lexer := s.lexer.splitAngle?.getD s.lexer }
    opensDefinition t.advance.words := by
  intro t
  cases hsplit : s.lexer.splitAngle? with
  | some l =>
    have hlexer : t = { s with lexer := l } := by
      change { s with lexer := s.lexer.splitAngle?.getD s.lexer } = _
      rw [hsplit]
      rfl
    rw [hlexer]
    exact opensDefinition_of_run (isRunKind_behind_split hsplit)
  | none =>
    have hlexer : t = s := by
      change { s with lexer := s.lexer.splitAngle?.getD s.lexer } = _
      rw [hsplit]
      rfl
    have heof : s.current.isEof = false := by
      unfold Token.isEof
      cases hkind : s.current.kind
      case eof =>
        rw [hkind] at hangle
        cases hangle
      all_goals rfl
    have hafter : afterParams s.words = s.advance.words := by
      rw [words_advance heof]
      generalize s.current.kind = k at hangle
      unfold isClosingAngle at hangle
      split at hangle
      all_goals first | rfl | cases hangle
    rw [hlexer, ← hafter]
    exact h

end Grammar

end SableFront
