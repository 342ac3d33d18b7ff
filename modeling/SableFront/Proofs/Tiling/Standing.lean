import SableFront.Proofs.Tiling.Boundary
import SableFront.Proofs.Comments.Calm
import Mathlib.Data.List.Pairwise

/-!
# Tiling: where reading stands in a text

The current token of a state is *cut* from the text: there is a place in the text from which it takes
some characters, the cursor stands right behind these, and if the token carries its own text, these
are it (`Lexer.Cuts`). That is so for what is read next and for what is left of a token of several
`>` that is split. The comments of the text are either passed, and then stop before the current
token, or they lie ahead (`Lexer.StandsIn`).
-/

namespace SableFront

/-! ### The text of lexemes -/

namespace Lexeme

/-- If the lexeme carries its own text, that is what it takes. -/
def Quotes (c : Char) (cs : List Char) (l : Lexeme) : Prop :=
  ∀ s, l.value = .text s → s.toList = c :: cs.take l.more

variable {c : Char} {cs : List Char} {l : Lexeme} {word : String} {w : Kind × Value}

theorem quotes_ofText (kind : Kind) (more : Nat) : Quotes c cs (ofText kind c cs more) := by
  intro s hs
  cases hs
  exact String.toList_ofList

theorem quotes_bare (kind : Kind) (more : Nat) : Quotes c cs (bare kind more) :=
  fun _ hs => by cases hs

theorem IsLiteral.quotes (h : IsLiteral c cs l) : Quotes c cs l := by
  cases h with
  | invalid more => exact quotes_ofText .invalid more
  | _ => exact fun _ hs => by cases hs

theorem IsWord.eq_of_text (h : IsWord word w) {s : String} (hs : w.2 = .text s) : s = word := by
  cases h <;> cases hs
  rfl

theorem quotes_scanWord : Quotes c cs (scanWord c cs) := by
  intro s hs
  have htail : cs.take (cs.takeWhile isWordChar).length = cs.takeWhile isWordChar :=
    (List.prefix_iff_eq_take.mp (List.takeWhile_prefix _)).symm
  rw [(isWord_ofWord _).eq_of_text hs, String.toList_ofList]
  exact congrArg (c :: ·) htail.symm

theorem IsSymbol.quotes (h : IsSymbol c cs l) : Quotes c cs l := by
  cases h with
  | symbol => exact quotes_bare _ _
  | invalid => exact quotes_ofText _ _

theorem CanStand.quotes (h : CanStand c cs l) : Quotes c cs l := by
  cases h with
  | blanks | newline => exact quotes_bare _ _
  | lineComment | blockComment | openComment => exact quotes_ofText _ _
  | literal h => exact h.quotes
  | word => exact quotes_scanWord
  | symbol h => exact h.quotes

theorem quotes_scan (c : Char) (cs : List Char) : Quotes c cs (scan c cs) :=
  (canStand_scan c cs).quotes

end Lexeme

/-! ### Tokens -/

namespace Token

/-- The token lies in the text, and if it carries its own text, that is what stands there. -/
structure CutFrom (cs : List Char) (t : Token) : Prop extends LiesIn cs t where
  text : ∀ s, t.text? = some s → s.toList = Text.between cs t.offset t.stop

/-- One of two tokens stops before the other one starts. -/
def Apart (t u : Token) : Prop := t.stop ≤ u.offset ∨ u.stop ≤ t.offset

variable {t u : Token}

theorem Apart.symm (h : t.Apart u) : u.Apart t := Or.symm h

instance : Std.Symm Apart := ⟨fun _ _ h => h.symm⟩

theorem offset_le_stop (t : Token) : t.offset ≤ t.stop := Nat.le_add_right _ _

theorem text?_eq_some {s : String} : t.text? = some s ↔ t.value = .text s := by
  unfold text?
  split
  · rename_i heq
    rw [heq]
    exact ⟨fun h => by cases h; rfl, fun h => by cases h; rfl⟩
  · rename_i hne
    exact ⟨fun h => (by cases h), fun h => absurd h (hne s)⟩

end Token

/-! ### Lexers -/

/-- The token of the lexer is cut from the text, and the cursor stands right behind it. -/
inductive Lexer.Cuts (cs : List Char) : Lexer → Prop
  | intro {before : List Char} {c : Cursor} (h : c.Behind before cs) (kind : Kind) (value : Value)
      (n : Nat) (heof : kind = .eof → n = 0)
      (hangle : ∀ tail, afterAngle? kind = some tail → c.rest.take n = '>' :: tail)
      (htext : ∀ s, value = .text s → s.toList = c.rest.take n) :
      Cuts cs ⟨c.skip n, c.place kind value n⟩

/-- A token that is placed at a cursor and carries what it takes is cut from the text. -/
theorem Cursor.Behind.cutFrom {before cs : List Char} {c : Cursor} (h : c.Behind before cs)
    (kind : Kind) {value : Value} {n : Nat} (htext : ∀ s, value = .text s → s.toList = c.rest.take n) :
    (c.place kind value n).CutFrom cs := by
  refine ⟨h.place kind value n, fun s hs => ?_⟩
  rw [htext s (Token.text?_eq_some.mp hs)]
  exact (h.between_skip n).symm

namespace Lexer

variable {cs : List Char} {l l' : Lexer}

namespace Cuts

theorem token (h : l.Cuts cs) : l.token.CutFrom cs := by
  obtain ⟨h, kind, value, n, -, -, htext⟩ := h
  exact h.cutFrom kind htext

/-- The cursor stands in the text, right behind the token. -/
theorem behind (h : l.Cuts cs) :
    (∃ before, l.cursor.Behind before cs) ∧ l.cursor.offset = l.token.stop := by
  obtain ⟨h, kind, value, n, -, -, -⟩ := h
  exact ⟨⟨_, h.skip n⟩, rfl⟩

/-- The end of the text is empty. -/
theorem stop_of_isEof (h : l.Cuts cs) (hl : l.token.isEof) : l.token.stop = l.token.offset := by
  obtain @⟨before, c, h, kind, value, n, heof, -, -⟩ := h
  rw [heof (beq_iff_eq.mp hl)]
  rfl

/-- What stands for a missing operand is cut from the text, too. -/
theorem placeholder (h : l.Cuts cs) :
    (Token.placeholder l.token.span.start l.token.offset).CutFrom cs := by
  obtain @⟨before, c, h, kind, value, n, -, -, -⟩ := h
  have htext : ∀ s, Value.none = .text s → s.toList = c.rest.take 0 := fun s hs => by cases hs
  exact h.cutFrom .invalid htext

theorem placed (h : l.Cuts cs) : l.Placed := by
  obtain @⟨before, c, h, kind, value, n, -, hangle, -⟩ := h
  exact c.placed_skip value hangle

/-- What is left of a token that is split is cut from the text, too. -/
theorem split (h : l.Cuts cs) (hl : l.splitAngle? = some l') :
    l'.Cuts cs ∧ l'.token.offset = l.token.offset := by
  obtain @⟨before, c, h, kind, value, n, -, hangle, -⟩ := h
  unfold splitAngle? at hl
  obtain ⟨tail, htail, rfl⟩ := Option.map_eq_some_iff.mp hl
  have htext : '>' :: tail ++ c.rest.drop n = c.rest := by
    rw [← hangle tail htail, List.take_append_drop]
  change Cuts cs ⟨Cursor.skip ⟨'>' :: tail ++ c.rest.drop n, c.offset, c.position⟩ 1,
    Cursor.place ⟨'>' :: tail ++ c.rest.drop n, c.offset, c.position⟩ (.operator .gt) .none 1⟩ ∧ _
  refine ⟨?_, rfl⟩
  rw [htext]
  refine .intro h _ _ _ (fun hkind => ?_) (fun tail htail => ?_) fun s hs => ?_
  · cases hkind
  · cases htail
  · cases hs

end Cuts

end Lexer

namespace Cursor

variable {before cs : List Char} {c : Cursor}

theorem Behind.cuts_next (h : Behind before cs c) : Lexer.Cuts cs ⟨c.next.2, c.next.1⟩ := by
  by_cases hrest : c.rest = []
  · have hskip : c.skip 0 = c := rfl
    rw [Cursor.next_nil hrest]
    refine Lexer.Cuts.intro (c := c) h .eof .none 0 (fun _ => rfl) (fun tail htail => ?_) fun s hs => ?_
    · cases htail
    · cases hs
  · obtain ⟨d, ds, hcons⟩ := List.exists_cons_of_ne_nil hrest
    have hnext : c.next = (c.place (Lexeme.scan d ds).kind (Lexeme.scan d ds).value
        ((Lexeme.scan d ds).more + 1), c.skip ((Lexeme.scan d ds).more + 1)) := by
      rw [Cursor.next, hcons]
    rw [hnext]
    refine .intro h _ _ _ (fun hkind => ?_) (fun tail htail => ?_) fun s hs => ?_
    · exact absurd hkind (Lexeme.solid_scan d ds).1
    · rw [hcons]
      exact (Lexeme.solid_scan d ds).2 tail htail
    · rw [hcons]
      exact Lexeme.quotes_scan d ds s hs

/-- The next significant token is cut from the text, and does not start before the cursor. -/
theorem Behind.cuts_significant (h : Behind before cs c) :
    Lexer.Cuts cs ⟨c.significant.cursor, c.significant.token⟩ ∧
      c.offset ≤ c.significant.token.offset := by
  refine ⟨?_, (significant_sound (c := c) rfl).2⟩
  -- on the trivia before the token
  induction c using significant.induct generalizing before with
  | case1 c hc ih =>
    obtain ⟨-, passed, hnext⟩ := h.next
    rw [significant, dif_pos hc]
    exact ih hnext
  | case2 c hc =>
    rw [significant, dif_neg hc]
    exact h.cuts_next

/-- The tokens of a text stop before the next one starts. -/
theorem apart_tokens (c : Cursor) : c.tokens.Pairwise (fun t u => t.stop ≤ u.offset) := by
  induction c using tokens.induct with
  | case1 c hrest =>
    rw [tokens_nil hrest]
    exact List.pairwise_singleton _ _
  | case2 c hrest ih =>
    obtain ⟨hoffset, hstop, -⟩ := c.next_offset
    rw [tokens_cons hrest]
    refine List.pairwise_cons.mpr ⟨fun t ht => ?_, ih⟩
    have hle := c.next.2.pairwise_tokens.2 t ht
    rw [Token.stop]
    omega

/-- All tokens of a text are cut from it. -/
theorem Behind.cutFrom_tokens (h : Behind before cs c) : ∀ t ∈ c.tokens, t.CutFrom cs := by
  intro t ht
  obtain ⟨d, passed, hd, rfl⟩ := h.exists_next ht
  exact hd.cuts_next.token

end Cursor

/-! ### Comments -/

/-- The comments of a text. -/
def Text.comments (cs : List Char) : List Token := commentsIn (Cursor.start cs).tokens

namespace Text

variable {cs : List Char} {t u : Token}

theorem cutFrom_of_mem_comments (ht : t ∈ comments cs) : t.CutFrom cs :=
  (Cursor.Behind.start cs).cutFrom_tokens t (List.mem_filter.mp ht).1

/-- Two comments are the same, or lie apart. -/
theorem apart_of_mem_comments (ht : t ∈ comments cs) (hu : u ∈ comments cs) :
    t = u ∨ t.Apart u := by
  have hordered : (comments cs).Pairwise (fun t u => t.stop ≤ u.offset) :=
    (Cursor.start cs).apart_tokens.filter _
  have hapart : (comments cs).Pairwise Token.Apart := hordered.imp fun h => .inl h
  by_cases heq : t = u
  · exact .inl heq
  · exact .inr (hapart.forall ht hu heq)

end Text

namespace Lexer

variable {cs : List Char} {l l' : Lexer} {t : Token}

/-- Reading stands in a text: the token is cut from it, and the comments are those that are passed
and those that lie ahead. -/
structure StandsIn (cs : List Char) (l : Lexer) : Prop where
  cuts : l.Cuts cs
  ahead : commentsIn l.ahead ⊆ Text.comments cs
  passed : ∀ t ∈ Text.comments cs, t.stop ≤ l.token.offset ∨ t ∈ commentsIn l.ahead

namespace StandsIn

/-- What lies ahead starts behind the token. -/
theorem stop_le (h : l.StandsIn cs) (ht : t ∈ l.ahead) : l.token.stop ≤ t.offset := by
  unfold Lexer.ahead at ht
  split at ht
  · cases ht
  · rw [← h.cuts.behind.2]
    exact l.cursor.pairwise_tokens.2 t ht

/-- The token lies apart from the comments. -/
theorem apart (h : l.StandsIn cs) (ht : t ∈ Text.comments cs) : t.Apart l.token :=
  (h.passed t ht).imp_right fun hahead => h.stop_le (List.mem_filter.mp hahead).1

/-- The comments before the next significant token are comments of the text, and reading goes on. -/
theorem significant {before : List Char} {c : Cursor} (h : c.Behind before cs)
    (hahead : commentsIn c.tokens ⊆ Text.comments cs)
    (hpassed : ∀ t ∈ Text.comments cs, t.stop ≤ c.offset ∨ t ∈ commentsIn c.tokens) :
    StandsIn cs ⟨c.significant.cursor, c.significant.token⟩ ∧
      c.significant.comments ⊆ Text.comments cs := by
  obtain ⟨hcuts, hle⟩ := h.cuts_significant
  have hsplit := c.commentsIn_significant
  rw [hsplit] at hahead hpassed
  obtain ⟨hcomments, hbehind⟩ := List.append_subset.mp hahead
  refine ⟨⟨hcuts, hbehind, fun t ht => ?_⟩, hcomments⟩
  rcases hpassed t ht with hstop | hmem
  · exact .inl (Nat.le_trans hstop hle)
  · rcases List.mem_append.mp hmem with hmem | hmem
    · left
      obtain ⟨passed, -, hpassed, -, htokens⟩ := c.tokens_significant
      rw [hpassed] at hmem
      have hapart := c.apart_tokens
      rw [htokens] at hapart
      exact (List.pairwise_append.mp hapart).2.2 t (List.mem_filter.mp hmem).1 _ List.mem_cons_self
    · exact .inr hmem

/-- Reading goes on from a token. -/
theorem next (h : l.StandsIn cs) (heof : l.token.isEof = false) :
    StandsIn cs ⟨l.cursor.significant.cursor, l.cursor.significant.token⟩ ∧
      l.cursor.significant.comments ⊆ Text.comments cs ∧
      l.token.stop ≤ l.cursor.significant.token.offset := by
  obtain ⟨⟨before, hbehind⟩, hstop⟩ := h.cuts.behind
  have hahead : l.ahead = l.cursor.tokens := if_neg (Bool.eq_false_iff.mp heof)
  have hcomments := h.ahead
  have hpassed := h.passed
  rw [hahead] at hcomments hpassed
  obtain ⟨hnext, hmore⟩ := significant hbehind hcomments fun t ht =>
    (hpassed t ht).imp_left fun hle => by
      rw [hstop]
      exact Nat.le_trans hle l.token.offset_le_stop
  refine ⟨hnext, hmore, ?_⟩
  rw [← hstop]
  exact hbehind.cuts_significant.2

/-- Splitting the token takes no comment from those ahead. -/
theorem split (h : l.StandsIn cs) (hl : l.splitAngle? = some l') : l'.StandsIn cs := by
  obtain ⟨hcuts, hoffset⟩ := h.cuts.split hl
  obtain ⟨angles, angles', common, hangles, hangles', hahead, hahead'⟩ := h.cuts.placed.ahead_split hl
  have hsame : commentsIn l'.ahead = commentsIn l.ahead := by
    rw [hahead, hahead', commentsIn_append, commentsIn_append, commentsIn_of_run hangles,
      commentsIn_of_run hangles']
  refine ⟨hcuts, ?_, ?_⟩
  · rw [hsame]
    exact h.ahead
  · rw [hsame, hoffset]
    exact h.passed

end StandsIn

end Lexer

namespace Grammar

/-- Reading stands in the text, and the comments that wait are from it. -/
structure State.StandsIn (cs : List Char) (s : State) : Prop where
  lexer : s.lexer.StandsIn cs
  comments : s.comments ⊆ Text.comments cs

namespace State.StandsIn

variable {cs : List Char} {s t : State}

theorem start (source : String) (config : ParseConfig) :
    (State.start source config).StandsIn source.toList := by
  obtain ⟨hlexer, hcomments⟩ := Lexer.StandsIn.significant (Cursor.Behind.start source.toList)
    (List.Subset.refl _) fun t ht => .inr ht
  refine ⟨hlexer, ?_⟩
  simp only [State.start, State.bump, State.unread, List.nil_append]
  exact hcomments

/-- Only the lexer and the comments that wait matter. -/
theorem congr (h : s.StandsIn cs) (hlexer : t.lexer = s.lexer) (hcomments : t.comments ⊆ s.comments) :
    t.StandsIn cs := by
  refine ⟨?_, List.Subset.trans hcomments h.comments⟩
  rw [hlexer]
  exact h.lexer

theorem advance (h : s.StandsIn cs) :
    s.advance.StandsIn cs ∧ s.current.stop ≤ s.advance.current.offset := by
  unfold State.advance
  split
  · rename_i heof
    refine ⟨h, ?_⟩
    exact Nat.le_of_eq (h.lexer.cuts.stop_of_isEof heof)
  · rename_i heof
    obtain ⟨hlexer, hcomments, hle⟩ := h.lexer.next (Bool.eq_false_iff.mpr heof)
    exact ⟨⟨hlexer, List.append_subset.mpr ⟨h.comments, hcomments⟩⟩, hle⟩

theorem split (h : s.StandsIn cs) :
    State.StandsIn cs { s with lexer := s.lexer.splitAngle?.getD s.lexer } := by
  refine ⟨?_, h.comments⟩
  dsimp only
  cases hsplit : s.lexer.splitAngle? with
  | none => exact h.lexer
  | some l => exact h.lexer.split hsplit

theorem rewind (h : s.StandsIn cs) (ht : t.StandsIn cs) : (t.rewind s).StandsIn cs :=
  ⟨h.lexer, List.Subset.trans (List.take_subset _ _) ht.comments⟩

end State.StandsIn

end Grammar

end SableFront
