import SableFront.Proofs.Coverage.Line
import SableFront.Proofs.Listing.Text
import SableFront.Proofs.Spelling.Token
import SableFront.Proofs.Tiling.Places

/-!
# Listings: the words for tokens

Only block comments and invalid text carry line breaks (`Lexeme.carriesText_scan`). So a token is shown
with a line break if it is one of these and does not end on the line where it starts
(`Token.isBroken_describe_of_mem`).
-/

namespace SableFront

variable {c : Char} {cs : List Char} {l : Lexeme}

/-! ### Lexemes -/

namespace Lexeme

/-- Comments and invalid text carry their own text. What other lexemes carry has no line break, and
neither has a line comment. -/
structure CarriesText (l : Lexeme) : Prop where
  carried : l.kind.isComment ∨ l.kind = .invalid → ∃ s, l.value = .text s
  unbroken : l.kind ≠ .blockComment → l.kind ≠ .invalid → ∀ s, l.value = .text s →
    Text.isBroken s = false

theorem carriesText_invalid (c : Char) (cs : List Char) (more : Nat) :
    (invalid c cs more).CarriesText :=
  ⟨fun _ => ⟨_, rfl⟩, fun _ hkind => absurd rfl hkind⟩

/-- A lexeme that denotes something else carries no text. -/
theorem carriesText_of_value (hcomment : l.kind.isComment = false) (hinvalid : l.kind ≠ .invalid)
    (hvalue : ∀ s, l.value ≠ .text s) : l.CarriesText := by
  refine ⟨fun h => absurd h (not_or.mpr ⟨?_, hinvalid⟩), fun _ _ s hs => absurd hs (hvalue s)⟩
  rw [hcomment]
  exact Bool.false_ne_true

theorem carriesText_bare {kind : Kind} (hcomment : kind.isComment = false)
    (hinvalid : kind ≠ .invalid) (more : Nat) : (bare kind more).CarriesText :=
  carriesText_of_value hcomment hinvalid fun _ hs => Value.noConfusion hs

theorem IsLiteral.carriesText (h : IsLiteral c cs l) : l.CarriesText := by
  cases h with
  | invalid more => exact carriesText_invalid c cs more
  | _ => exact carriesText_of_value rfl Kind.noConfusion fun _ hs => Value.noConfusion hs

theorem IsWord.carriesText {word : String} {w : Kind × Value} (hw : IsWord word w)
    (h : Text.isBroken word = false) (more : Nat) : (Lexeme.mk w.1 w.2 more).CarriesText := by
  cases hw with
  | name =>
    refine ⟨fun hkind => ?_, fun _ _ s hs => ?_⟩
    · rcases hkind with hkind | hkind <;> cases hkind
    · cases hs
      exact h
  | _ => exact carriesText_of_value rfl Kind.noConfusion fun _ hs => Value.noConfusion hs

/-- A word is made of letters, digits and underscores. -/
theorem carriesText_scanWord (hc : c ≠ '\n') : (scanWord c cs).CarriesText := by
  refine (isWord_ofWord _).carriesText (Text.isBroken_ofList ?_) _
  rw [List.mem_cons, not_or]
  exact ⟨hc.symm, newline_not_mem_takeWhile rfl cs⟩

theorem IsSymbol.carriesText (h : IsSymbol c cs l) : l.CarriesText := by
  cases h with
  | symbol hmem =>
    rcases kind_cases_of_symbol hmem with ⟨o, -, rfl⟩ | ⟨p, rfl⟩
    all_goals exact carriesText_bare rfl Kind.noConfusion _
  | invalid => exact carriesText_invalid c cs 0

/-- A line comment ends before the line break. -/
theorem carriesText_lineComment (hc : c ≠ '\n') :
    (ofText .lineComment c cs (cs.takeWhile (· ≠ '\n')).length).CarriesText := by
  refine ⟨fun _ => ⟨_, rfl⟩, fun _ _ s hs => ?_⟩
  cases hs
  refine Text.isBroken_ofList ?_
  rw [take_takeWhile, List.mem_cons, not_or]
  exact ⟨hc.symm, newline_not_mem_takeWhile rfl _⟩

theorem CanStand.carriesText (h : CanStand c cs l) : l.CarriesText := by
  cases h with
  | blanks | newline => exact carriesText_bare rfl Kind.noConfusion _
  | lineComment hc => exact carriesText_lineComment (by rw [hc]; decide)
  | blockComment => exact ⟨fun _ => ⟨_, rfl⟩, fun hkind => absurd rfl hkind⟩
  | openComment => exact carriesText_invalid c cs _
  | literal h => exact h.carriesText
  | word hc => exact carriesText_scanWord hc
  | symbol h => exact h.carriesText

/-- **Only block comments and invalid text carry line breaks.** -/
theorem carriesText_scan (c : Char) (cs : List Char) : (scan c cs).CarriesText :=
  (canStand_scan c cs).carriesText

end Lexeme

/-! ### Tokens -/

namespace Token

variable {t : Token}

/-- A token is shown without line breaks if none is in the text that it carries. -/
theorem isBroken_describe (h : ∀ s, t.value = .text s → Text.isBroken s = false) :
    Text.isBroken t.describe = false := by
  unfold describe
  split
  · exact (Text.isBroken_keyword _).1
  · exact (Text.isBroken_operator _).1
  · exact (Text.isBroken_punctuation _).1
  · rfl
  · exact h _ ‹_›
  · exact Text.isBroken_toString _
  · rename_i bits single _ _ _ _ _
    rw [Text.isBroken_append, Text.isBroken_ofList (Decimal.newline_not_mem_plain bits)]
    cases single <;> rfl
  · exact Text.isBroken_ofList (Text.newline_not_mem_quoted (by decide) _)
  · exact Text.isBroken_ofList (Text.newline_not_mem_quoted (by decide) _)
  · split <;> rfl
  · rfl
  · exact Text.isBroken_kind _

theorem describe_of_text {s : String} (hkind : t.kind.isComment ∨ t.kind = .invalid)
    (hvalue : t.value = .text s) : t.describe = s := by
  obtain ⟨kind, value, span, offset, size, width⟩ := t
  cases hvalue
  cases kind
  case lineComment | blockComment | invalid => rfl
  all_goals rcases hkind with hkind | hkind <;> cases hkind

/-- A token of a text ends on the line where it starts if no line break is in its part of the text. -/
theorem LiesIn.line_eq_iff (h : t.LiesIn cs) :
    t.span.stop.line = t.span.start.line ↔ '\n' ∉ Text.between cs t.offset t.stop := by
  rw [h.span]
  change (Text.positionAt cs t.stop).line = (Text.positionAt cs t.offset).line ↔ _
  rw [Text.positionAt_eq_steps h.boundary_offset h.boundary_stop t.offset_le_stop,
    Position.line_steps, Nat.add_eq_left, List.count_eq_zero]

namespace FoundIn

variable {d : Char} {ds : List Char}

/-- **Only block comments and invalid text are shown with line breaks.** -/
theorem isBroken_describe (h : t.FoundIn cs d ds) (hblock : t.kind ≠ .blockComment)
    (hinvalid : t.kind ≠ .invalid) : Text.isBroken t.describe = false := by
  rw [h.kind] at hblock hinvalid
  refine Token.isBroken_describe fun s hs => ?_
  exact (Lexeme.carriesText_scan d ds).unbroken hblock hinvalid s (h.value ▸ hs)

/-- **Comments and invalid text** are shown with line breaks if they go on over the end of a line. -/
theorem isBroken_describe_iff (h : t.FoundIn cs d ds) (ht : t.LiesIn cs)
    (hkind : t.kind.isComment ∨ t.kind = .invalid) :
    Text.isBroken t.describe = false ↔ t.span.stop.line = t.span.start.line := by
  obtain ⟨s, hs⟩ := (Lexeme.carriesText_scan d ds).carried (h.kind ▸ hkind)
  have htext : s.toList = Text.between cs t.offset t.stop := by
    rw [Lexeme.quotes_scan d ds s hs, h.text]
  rw [ht.line_eq_iff, ← htext, ← Text.isBroken_eq_false,
    describe_of_text hkind (h.value.trans hs)]

end FoundIn

variable {source : String}

/-- A token of a text is shown with line breaks if it is a block comment or invalid text that goes on
over the end of a line. -/
theorem isBroken_describe_of_mem (ht : t ∈ tokenize source) :
    Text.isBroken t.describe = false ↔
      (t.kind = .blockComment ∨ t.kind = .invalid → t.span.stop.line = t.span.start.line) := by
  have hstart := Cursor.Behind.start source.toList
  by_cases hkind : t.kind = .blockComment ∨ t.kind = .invalid
  · have hcarries : t.kind.isComment ∨ t.kind = .invalid := hkind.imp_left fun h => by rw [h]; rfl
    have heof : t.kind ≠ .eof := by rcases hkind with h | h <;> rw [h] <;> exact Kind.noConfusion
    obtain ⟨d, ds, hfound⟩ := hstart.foundIn_tokens ht heof
    rw [hfound.isBroken_describe_iff (hstart.cutFrom_tokens t ht).toLiesIn hcarries]
    exact ⟨fun hline _ => hline, fun hline => hline hkind⟩
  · refine iff_of_true ?_ fun h => absurd h hkind
    by_cases heof : t.kind = .eof
    · have hdescribe : t.describe = "end of file" := by simp [describe, heof]
      rw [hdescribe]
      rfl
    · obtain ⟨d, ds, hfound⟩ := hstart.foundIn_tokens ht heof
      exact hfound.isBroken_describe (fun h => hkind (.inl h)) fun h => hkind (.inr h)

/-- A comment of a text is shown with line breaks if it goes on over the end of a line. -/
theorem isBroken_describe_of_mem_comments (ht : t ∈ Text.comments source.toList) :
    Text.isBroken t.describe = false ↔ t.span.stop.line = t.span.start.line := by
  obtain ⟨hmem, hcomment⟩ := List.mem_filter.mp ht
  have heof : t.kind ≠ .eof := fun heof => by rw [heof] at hcomment; cases hcomment
  obtain ⟨d, ds, hfound⟩ := (Cursor.Behind.start source.toList).foundIn_tokens hmem heof
  exact hfound.isBroken_describe_iff (Text.cutFrom_of_mem_comments ht).toLiesIn (.inl hcomment)

end Token

/-- The next token is shown without line breaks. -/
theorem Cursor.isBroken_next (c : Cursor) (hblock : c.next.1.kind ≠ .blockComment)
    (hinvalid : c.next.1.kind ≠ .invalid) : Text.isBroken c.next.1.describe = false := by
  by_cases hrest : c.rest = []
  · rw [next_nil hrest]
    exact Token.isBroken_describe fun _ hs => Value.noConfusion hs
  · obtain ⟨d, ds, hcons⟩ := List.exists_cons_of_ne_nil hrest
    rw [next_eq_place hcons rfl] at hblock hinvalid ⊢
    exact Token.isBroken_describe ((Lexeme.carriesText_scan d ds).unbroken hblock hinvalid)

end SableFront
