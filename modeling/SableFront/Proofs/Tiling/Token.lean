import SableFront.Proofs.Lookahead
import SableFront.Proofs.Progress.Reading
import SableFront.Proofs.Tiling.LineTable

/-!
# Tiling: the tokens of a text cover it

The tokens of a text stand side by side from its first byte to its last, and only the end-of-file
token is empty. A token *lies* in a text if it says truly where it is: its offsets are boundaries
between characters, its span has the positions of these, and its width is that of the text between
them. Every token lies in the text it was read from (`tokenize_tiles`), although a cursor never
looks back at the text and keeps its position by stepping.

All counts are bounded by the UTF-16 units of the whole text. So where these are fewer than a
machine word can count, no count of a token exceeds a word.
-/

namespace SableFront

/-- The offset lies between two characters of a text, or at one of its ends. -/
def Text.IsBoundary (cs : List Char) (offset : Nat) : Prop :=
  ∃ before after, cs = before ++ after ∧ byteSize before = offset

/-- The token says truly where in a text it is. -/
structure Token.LiesIn (cs : List Char) (t : Token) : Prop where
  boundary_offset : Text.IsBoundary cs t.offset
  boundary_stop : Text.IsBoundary cs t.stop
  span : t.span = ⟨Text.positionAt cs t.offset, Text.positionAt cs t.stop⟩
  width : t.width = unitSize (Text.between cs t.offset t.stop)

/-- No count of the token exceeds a bound. -/
structure Token.CountsTo (bound : Nat) (t : Token) : Prop where
  start_line : t.span.start.line ≤ bound
  start_character : t.span.start.character ≤ bound
  stop_line : t.span.stop.line ≤ bound
  stop_character : t.span.stop.character ≤ bound
  width : t.width ≤ bound

/-! ### Counts -/

namespace Position

theorem step_le (p : Position) (c : Char) :
    (p.step c).line ≤ p.line + units16 c ∧ (p.step c).character ≤ p.character + units16 c := by
  have hpos := units16_pos c
  unfold step
  split
  · exact ⟨Nat.add_le_add_left hpos _, Nat.zero_le _⟩
  · exact ⟨Nat.le_add_right _ _, Nat.le_refl _⟩

theorem steps_le (p : Position) (cs : List Char) :
    (p.steps cs).line ≤ p.line + unitSize cs ∧
      (p.steps cs).character ≤ p.character + unitSize cs := by
  induction cs generalizing p with
  | nil => exact ⟨Nat.le_refl _, Nat.le_refl _⟩
  | cons c cs ih =>
    have hstep := p.step_le c
    have hsteps := ih (p.step c)
    rw [steps_cons, unitSize_cons]
    omega

end Position

theorem Text.positionAt_le (cs : List Char) (offset : Nat) :
    (positionAt cs offset).line ≤ unitSize cs ∧ (positionAt cs offset).character ≤ unitSize cs := by
  have hsteps := Position.origin.steps_le (takeBytes cs offset)
  have hsize : unitSize (takeBytes cs offset) + unitSize (dropBytes cs offset) = unitSize cs := by
    rw [← unitSize_append, takeBytes_append_dropBytes]
  have hline : Position.origin.line = 0 := rfl
  have hcharacter : Position.origin.character = 0 := rfl
  unfold positionAt
  omega

theorem Text.unitSize_between_le (cs : List Char) (start stop : Nat) :
    unitSize (between cs start stop) ≤ unitSize cs := by
  have hdrop : unitSize (takeBytes cs start) + unitSize (dropBytes cs start) = unitSize cs := by
    rw [← unitSize_append, takeBytes_append_dropBytes]
  have htake : unitSize (between cs start stop) +
      unitSize (dropBytes (dropBytes cs start) (stop - start)) = unitSize (dropBytes cs start) := by
    rw [between, ← unitSize_append, takeBytes_append_dropBytes]
  omega

theorem Token.LiesIn.countsTo {cs : List Char} {t : Token} (h : t.LiesIn cs) :
    t.CountsTo (unitSize cs) := by
  have hstart := Text.positionAt_le cs t.offset
  have hstop := Text.positionAt_le cs t.stop
  refine ⟨?_, ?_, ?_, ?_, h.width ▸ Text.unitSize_between_le _ _ _⟩
  all_goals rw [h.span]
  exacts [hstart.1, hstart.2, hstop.1, hstop.2]

/-! ### Cursors in a text -/

/-- The cursor stands in a text right behind the part `before`. -/
structure Cursor.Behind (before cs : List Char) (c : Cursor) : Prop where
  text : cs = before ++ c.rest
  offset : c.offset = byteSize before
  position : c.position = Position.origin.steps before

namespace Cursor.Behind

variable {before cs : List Char} {c : Cursor}

theorem start (cs : List Char) : Behind [] cs (.start cs) := ⟨rfl, rfl, rfl⟩

theorem skip (h : Behind before cs c) (n : Nat) :
    Behind (before ++ c.rest.take n) cs (c.skip n) := by
  refine ⟨?_, ?_, ?_⟩
  · rw [List.append_assoc, Cursor.skip, List.take_append_drop, ← h.text]
  · rw [byteSize_append, ← h.offset]
    rfl
  · rw [Position.steps_append, ← h.position]
    rfl

/-- The position of an offset that a cursor has passed. -/
theorem positionAt_eq (h : Behind before cs c) : Text.positionAt cs c.offset = c.position := by
  rw [h.text, h.offset, Text.positionAt, Text.takeBytes_byteSize, h.position]

theorem isBoundary (h : Behind before cs c) : Text.IsBoundary cs c.offset :=
  ⟨before, c.rest, h.text, h.offset.symm⟩

/-- The text between a cursor and where it goes. -/
theorem between_skip (h : Behind before cs c) (n : Nat) :
    Text.between cs c.offset (c.skip n).offset = c.rest.take n := by
  have hskip := h.skip n
  have hbetween := Text.between_append before (c.rest.take n) (c.rest.drop n)
  rwa [List.take_append_drop, ← h.text, ← h.offset, ← hskip.offset] at hbetween

/-- A token that is placed at a cursor lies in the text. -/
theorem place (h : Behind before cs c) (kind : Kind) (value : Value) (n : Nat) :
    (c.place kind value n).LiesIn cs := by
  have hskip := h.skip n
  have hstop : (c.place kind value n).stop = (c.skip n).offset := rfl
  refine ⟨h.isBoundary, hskip.isBoundary, ?_, ?_⟩
  · rw [hstop, hskip.positionAt_eq]
    exact congrArg₂ Span.mk h.positionAt_eq.symm rfl
  · rw [hstop]
    exact congrArg unitSize (h.between_skip n).symm

theorem eof (h : Behind before cs c) : (Token.eof c.position c.offset).LiesIn cs :=
  h.place .eof .none 0

/-- The next token lies in the text, and the cursor after it stands in the text again. -/
theorem next (h : Behind before cs c) :
    c.next.1.LiesIn cs ∧ ∃ passed, Behind (before ++ passed) cs c.next.2 := by
  unfold Cursor.next
  split
  · exact ⟨h.eof, [], by rwa [List.append_nil]⟩
  · exact ⟨h.place _ _ _, _, h.skip _⟩

end Cursor.Behind

/-! ### All tokens -/

/-- What is read before the end of a text is not empty. -/
theorem Cursor.next_of_ne_nil {c : Cursor} (h : c.rest ≠ []) :
    c.next.1.kind ≠ .eof ∧ 0 < c.next.1.size := by
  have hsound := Cursor.next_sound (c := c) rfl
  have hkind : c.next.1.kind ≠ .eof := by
    unfold Cursor.next
    split
    · exact absurd (by assumption) h
    · exact (Lexeme.solid_scan _ _).1
  exact ⟨hkind, Nat.pos_of_ne_zero fun h0 => hkind (hsound.size_eq_zero.mp h0)⟩

/-- Each token ahead comes next at some place of the text. -/
theorem Cursor.Behind.exists_next {before cs : List Char} {c : Cursor} (h : c.Behind before cs)
    {t : Token} (ht : t ∈ c.tokens) :
    ∃ (d : Cursor) (passed : List Char), d.Behind passed cs ∧ d.next.1 = t := by
  have hstays (d : Cursor) : (∃ passed, d.Behind passed cs) → ∃ passed, d.next.2.Behind passed cs := by
    rintro ⟨before, hd⟩
    obtain ⟨passed, hnext⟩ := hd.next.2
    exact ⟨before ++ passed, hnext⟩
  obtain ⟨d, ⟨passed, hd⟩, hnext⟩ := exists_next_of_mem_tokens hstays ⟨before, h⟩ ht
  exact ⟨d, passed, hd, hnext⟩

/-- The tokens from a place of a text on. -/
theorem Cursor.Behind.tokens {before cs : List Char} {c : Cursor} (h : c.Behind before cs) :
    c.tokens.head?.map Token.offset = some c.offset ∧
      c.tokens.IsChain (fun t u => u.offset = t.stop) ∧
      (∃ init, c.tokens = init ++ [.eof (Text.positionAt cs (byteSize cs)) (byteSize cs)] ∧
        ∀ t ∈ init, t.kind ≠ .eof ∧ 0 < t.size) ∧
      ∀ t ∈ c.tokens, t.LiesIn cs := by
  -- on the tokens: each starts where its cursor stands and stops where the next cursor stands
  induction c using Cursor.tokens.induct generalizing before with
  | case1 c hrest =>
    have hcs : before = cs := by rw [h.text, hrest, List.append_nil]
    have heof : Token.eof c.position c.offset =
        .eof (Text.positionAt cs (byteSize cs)) (byteSize cs) := by
      rw [← h.positionAt_eq, h.offset, hcs]
    rw [Cursor.tokens, dif_pos hrest]
    refine ⟨rfl, .singleton _, ⟨[], congrArg (· :: []) heof, fun t ht => ?_⟩, fun t ht => ?_⟩
    · cases ht
    · rw [List.mem_singleton.mp ht]
      exact h.eof
  | case2 c hrest ih =>
    obtain ⟨hlies, passed, hnext⟩ := h.next
    obtain ⟨hhead, hchain, ⟨init, hinit, hproper⟩, hall⟩ := ih hnext
    obtain ⟨hoffset, hstop, -⟩ := c.next_offset
    rw [Cursor.tokens, dif_neg hrest]
    refine ⟨congrArg some hoffset, ?_, ⟨c.next.1 :: init, ?_, fun t ht => ?_⟩, fun t ht => ?_⟩
    · cases htokens : c.next.2.tokens with
      | nil => exact .singleton _
      | cons u us =>
        rw [htokens] at hhead hchain
        refine .cons_cons ?_ hchain
        rw [Option.some.inj hhead, ← hstop, Token.stop, hoffset]
    · rw [hinit, List.cons_append]
    · rcases List.mem_cons.mp ht with rfl | ht
      · exact Cursor.next_of_ne_nil hrest
      · exact hproper t ht
    · rcases List.mem_cons.mp ht with rfl | ht
      · exact hlies
      · exact hall t ht

/-- **The tokens of a text tile it.** The first starts at byte 0, each of the others where the one
before it stops, and the last, at the end of the text, is the one that is empty and the end-of-file
token. Each lies in the text, at the positions that the table of line starts gives, too; and none of
its counts exceeds the UTF-16 units of the text. -/
theorem tokenize_tiles (source : String) :
    (tokenize source).head?.map Token.offset = some 0 ∧
    (tokenize source).IsChain (fun t u => u.offset = t.stop) ∧
    (∃ init last, tokenize source = init ++ [last] ∧
      last.kind = .eof ∧ last.offset = source.utf8ByteSize ∧ last.size = 0 ∧
      ∀ t ∈ init, t.kind ≠ .eof ∧ 0 < t.size) ∧
    ∀ t ∈ tokenize source, t.LiesIn source.toList ∧
      t.span.start = Text.positionByLines source.toList t.offset ∧
      t.span.stop = Text.positionByLines source.toList t.stop ∧
      t.CountsTo (unitSize source.toList) := by
  have hsize : byteSize source.toList = source.utf8ByteSize := by
    rw [byteSize_eq_utf8ByteSize, String.ofList_toList]
  obtain ⟨hhead, hchain, ⟨init, hinit, hproper⟩, hall⟩ := (Cursor.Behind.start source.toList).tokens
  refine ⟨hhead, hchain, ⟨init, _, hinit, rfl, hsize, rfl, hproper⟩, fun t ht => ?_⟩
  have hlies := hall t ht
  refine ⟨hlies, ?_, ?_, hlies.countsTo⟩
  all_goals rw [hlies.span, ← Text.positionAt_eq_positionByLines]

end SableFront
