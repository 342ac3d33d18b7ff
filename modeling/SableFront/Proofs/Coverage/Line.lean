import SableFront.Proofs.Tiling.Highlight
import SableFront.Proofs.Tiling.Prefix

/-!
# Coverage: words stand on one line

Names, keywords, operators and literals are the tokens that a reader wants to see coloured. Each of
them is found on one line and is not empty, so that one record shows it (`tokenRecords_eq`): only
comments, blanks and invalid text go on over a line's end.
-/

namespace SableFront

/-- Names, keywords, operators and literals. -/
def Kind.isHighlighted : Kind → Bool
  | .ident | .keyword _ | .operator _ | .int | .float | .str | .char | .bool | .null => true
  | _ => false

/-- What is highlighted is read, and not passed over as a comment or a blank. -/
theorem Kind.isTrivia_eq_false {k : Kind} (h : k.isHighlighted) : k.isTrivia = false := by
  cases k <;> first | rfl | cases h

theorem Kind.isComment_eq_false {k : Kind} (h : k.isHighlighted) : k.isComment = false := by
  cases k <;> first | rfl | cases h

/-- What is highlighted has a category. -/
theorem Highlight.exists_categoryOfKind {k : Kind} (h : k.isHighlighted) :
    ∃ category, categoryOfKind k = some category := by
  cases k <;> first | exact ⟨_, rfl⟩ | cases h

variable {c : Char} {cs : List Char} {n : Nat}

theorem newline_not_mem_takeWhile {p : Char → Bool} (hp : p '\n' = false) (cs : List Char) :
    '\n' ∉ cs.takeWhile p := fun hmem => by
  rw [List.all_eq_true.mp List.all_takeWhile _ hmem] at hp
  cases hp

/-! ### Numbers -/

namespace Number

theorem newline_not_mem_digitRun (base : Nat) (cs : List Char) : '\n' ∉ digitRun base cs := by
  refine newline_not_mem_takeWhile ?_ cs
  have hdigit : digit? base '\n' = none := if_neg (Nat.lt_irrefl base)
  rw [isDigit, hdigit]
  rfl

/-- Between the zero of a literal and its digits there is at most a letter. -/
theorem newline_not_mem_lead {base lead : Nat} (h : radix? c cs = some (base, lead)) :
    '\n' ∉ cs.take lead := by
  obtain ⟨-, d, ds, rfl, ⟨hmark, rfl, rfl⟩ | ⟨hmark, rfl, rfl⟩ | ⟨-, rfl, rfl⟩⟩ := radix?_eq_some h
  · rcases hmark with rfl | rfl <;> simp
  · rcases hmark with rfl | rfl <;> simp
  · exact List.not_mem_nil

/-- A number stands on one line. -/
theorem newline_not_mem_scan (c : Char) (cs : List Char) : '\n' ∉ cs.take (scan c cs).more := by
  cases hradix : radix? c cs with
  | some found =>
    obtain ⟨base, lead⟩ := found
    rw [scan_of_radix hradix, more_integer, List.take_add, List.mem_append, not_or]
    refine ⟨newline_not_mem_lead hradix, ?_⟩
    rw [digitRun, take_takeWhile]
    exact newline_not_mem_digitRun base _
  | none =>
    have hdigits : '\n' ∉ cs.take (digitRun 10 cs).length := by
      rw [digitRun, take_takeWhile]
      exact newline_not_mem_digitRun 10 _
    by_cases hfraction : startsFraction (cs.drop (digitRun 10 cs).length)
    · obtain ⟨tail, htail, hpoint⟩ := startsFraction_iff.mp hfraction
      rw [scan_of_fraction hradix htail hpoint, more_float, List.take_add, htail,
        List.take_succ_cons, List.mem_append, List.mem_cons, not_or, not_or]
      refine ⟨hdigits, by decide, ?_⟩
      rw [fractionSize, List.take_add, List.mem_append, not_or]
      refine ⟨?_, ?_⟩
      · rw [digitRun, take_takeWhile]
        exact newline_not_mem_digitRun 10 _
      · -- the letter that asks for single precision, or nothing
        cases tail.drop (digitRun 10 tail).length with
        | nil => simp
        | cons d ds =>
          split
          · rename_i hmark
            rw [List.take_succ_cons, List.take_zero, List.mem_singleton]
            rintro rfl
            cases hmark
          · exact List.not_mem_nil
    · rw [scan_of_whole hradix hfraction, more_integer]
      exact hdigits

end Number

/-! ### Literals -/

namespace Literal

/-- A string breaks off at the end of the line. -/
theorem newline_not_mem_content (cs : List Char) : '\n' ∉ cs.take (contentSize cs) := by
  -- on the content, pair by pair and character by character
  induction cs using content.induct with
  | case1 => exact List.not_mem_nil
  | case2 cs => simp [contentSize, content]
  | case3 c cs hc body closed hcontent ih =>
    rw [contentSize_pair hc, List.take_succ_cons, List.take_succ_cons, List.mem_cons, List.mem_cons,
      not_or, not_or]
    exact ⟨by decide, Ne.symm hc, ih⟩
  | case4 cs hne => simp [contentSize, content]
  | case5 cs hne => simp [contentSize, content]
  | case6 c cs hne hquote hline body closed hcontent ih =>
    have hpair := eq_nil_of_unpaired hne
    rw [contentSize_cons hpair hquote hline, List.take_succ_cons, List.mem_cons, not_or]
    exact ⟨Ne.symm hline, ih⟩

theorem newline_not_mem_escape (c : Char) (cs : List Char) : '\n' ∉ cs.take (escape c cs).2 :=
  fun hmem => (ne_of_isDigit (isDigit_of_mem_escape c cs _ hmem)).2.2 rfl

/-- A written character is no newline. -/
theorem newline_not_mem_written {piece : Piece} {taken : Nat}
    (h : written cs = .ok (piece, taken)) : '\n' ∉ cs.take taken := by
  rcases written_eq_ok h with ⟨d, ds, rfl, hd, -, rfl⟩ | ⟨d, ds, rfl, -, hline, -, rfl⟩
  · rw [List.take_succ_cons, List.take_succ_cons, List.mem_cons, List.mem_cons, not_or, not_or]
    exact ⟨by decide, hd.symm, newline_not_mem_escape d ds⟩
  · simpa using hline.symm

/-- A character literal stands on one line. -/
theorem newline_not_mem_scanChar (h : (scanChar c cs).kind.isHighlighted) :
    '\n' ∉ cs.take (scanChar c cs).more := by
  by_cases hquote : startsWith '\'' cs
  · rw [scanChar, if_pos hquote] at h
    cases h
  · cases hwritten : written cs with
    | error taken =>
      rw [scanChar, if_neg hquote, hwritten] at h
      cases h
    | ok found =>
      obtain ⟨piece, taken⟩ := found
      by_cases hclose : startsWith '\'' (cs.drop taken)
      · have hmore : (scanChar c cs).more = taken + 1 := by
          rw [scanChar, if_neg hquote, hwritten]
          dsimp only
          rw [if_pos hclose]
          split <;> rfl
        obtain ⟨ds, hds⟩ := List.head?_eq_some_iff.mp (beq_iff_eq.mp hclose)
        rw [hmore, List.take_add, hds, List.mem_append, not_or]
        exact ⟨newline_not_mem_written hwritten, by simp⟩
      · rw [scanChar, if_neg hquote, hwritten] at h
        dsimp only at h
        rw [if_neg hclose] at h
        cases h

end Literal

/-! ### All lexemes -/

namespace Lexeme

theorem newline_not_mem_symbol : ∀ e ∈ symbols, '\n' ∉ e.1 := by
  have h : symbols.all (fun e => !e.1.contains '\n') = true := rfl
  intro e he hmem
  have hall := List.all_eq_true.mp h e he
  rw [List.contains_iff_mem.mpr hmem] at hall
  cases hall

/-- A symbol stands on one line. -/
theorem IsSymbol.newline_not_mem {l : Lexeme} (h : IsSymbol c cs l) : '\n' ∉ cs.take l.more := by
  cases h with
  | symbol hmem hprefix =>
    have hline := newline_not_mem_symbol _ hmem
    dsimp only at hline
    rw [← take_symbol hmem hprefix] at hline
    exact (List.ne_and_not_mem_of_not_mem_cons hline).2
  | invalid => exact List.not_mem_nil

theorem newline_not_mem_scanSlash (h : (scanSlash c cs).kind.isHighlighted) :
    '\n' ∉ cs.take (scanSlash c cs).more := by
  unfold scanSlash at h ⊢
  split at h
  · cases h
  · split at h <;> cases h
  · exact (isSymbol_scanSymbol c cs).newline_not_mem

/-- **What is highlighted stands on one line.** -/
theorem newline_not_mem_scan (h : (scan c cs).kind.isHighlighted) :
    '\n' ∉ c :: cs.take (scan c cs).more := by
  have hc : c ≠ '\n' := by
    rintro rfl
    cases h
  refine List.not_mem_cons_of_ne_of_not_mem hc.symm ?_
  unfold scan at h ⊢
  split_ifs at h ⊢ with hblank hslash hstring hchar hdigit hword
  · cases h
  · exact newline_not_mem_scanSlash h
  · rw [Literal.more_scanString]
    exact Literal.newline_not_mem_content cs
  · exact Literal.newline_not_mem_scanChar h
  · exact Number.newline_not_mem_scan c cs
  · change '\n' ∉ cs.take (cs.takeWhile isWordChar).length
    rw [take_takeWhile]
    exact newline_not_mem_takeWhile (by decide) cs
  · exact (isSymbol_scanSymbol c cs).newline_not_mem

end Lexeme

/-! ### Tokens -/

/-- The token is not empty and ends on the line where it starts. -/
structure Token.OnLine (t : Token) : Prop where
  line : t.span.stop.line = t.span.start.line
  size : 0 < t.size
  width : 0 < t.width

theorem Cursor.onLine_next {c : Cursor} (h : c.next.1.kind.isHighlighted) : c.next.1.OnLine := by
  by_cases hrest : c.rest = []
  · rw [next_nil hrest] at h
    cases h
  · obtain ⟨d, ds, hcons⟩ := List.exists_cons_of_ne_nil hrest
    have hnext := next_eq_place hcons rfl
    rw [hnext] at h ⊢
    have htext : c.rest.take ((Lexeme.scan d ds).more + 1) = d :: ds.take (Lexeme.scan d ds).more := by
      rw [hcons, List.take_succ_cons]
    refine ⟨?_, ?_, ?_⟩
    · change (c.position.steps (c.rest.take _)).line = c.position.line
      rw [htext, Position.steps_of_line (Lexeme.newline_not_mem_scan h)]
    · change 0 < byteSize (c.rest.take _)
      rw [htext, byteSize_cons]
      exact Nat.lt_of_lt_of_le d.utf8Size_pos (Nat.le_add_right _ _)
    · change 0 < unitSize (c.rest.take _)
      rw [htext, unitSize_cons]
      exact Nat.lt_of_lt_of_le (units16_pos d) (Nat.le_add_right _ _)

/-- Tokens that are highlighted are not empty and stand on one line. -/
theorem Cursor.onLine_tokens (c : Cursor) {t : Token} (ht : t ∈ c.tokens)
    (h : t.kind.isHighlighted) : t.OnLine := by
  obtain ⟨d, -, rfl⟩ := exists_next_of_mem_tokens (P := fun _ => True) (fun _ _ => trivial) trivial ht
  exact onLine_next h

/-- A token on one line has one record. -/
theorem Highlight.tokenRecords_eq {t : Token} (h : t.OnLine) (category : Category)
    (modifiers : List Modifier) :
    tokenRecords t category modifiers = [⟨t.span.start, t.width, category, modifiers⟩] := by
  rw [tokenRecords, if_neg (Nat.ne_of_gt h.width), if_pos h.line]

end SableFront
