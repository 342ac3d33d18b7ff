import SableFront.Proofs.Lexeme
import SableFront.Token.Significant

/-!
# Progress: tokens lie behind each other

A lexer is *sound* for a text of `total` bytes if its cursor stands right behind its token and as
many bytes before the end as it should, and if only the end-of-file token is empty. Reading the next
significant token keeps a lexer sound and never goes back; so does splitting a token of several `>`,
which is why such a token must be as long as its spelling.
-/

namespace SableFront

/-! ### Lexemes -/

namespace Lexeme

variable {c : Char} {cs : List Char} {l : Lexeme} {word : String} {w : Kind × Value}

/-- The lexeme has text of its own, and a splittable one takes just its spelling. -/
def Solid (c : Char) (cs : List Char) (l : Lexeme) : Prop :=
  l.kind ≠ .eof ∧
    ∀ tail, Lexer.afterAngle? l.kind = some tail → (c :: cs).take (l.more + 1) = '>' :: tail

/-- A kind that neither ends the text nor can be split. -/
def isPlain (k : Kind) : Bool := k != .eof && (Lexer.afterAngle? k).isNone

theorem solid_of_isPlain (h : isPlain l.kind) : Solid c cs l := by
  simp only [isPlain, Bool.and_eq_true, bne_iff_ne, ne_eq, Option.isNone_iff_eq_none] at h
  refine ⟨h.1, fun tail ht => ?_⟩
  rw [h.2] at ht
  cases ht

/-- Symbols are written in at least one character; those that can be split, as splitting expects. -/
theorem symbol_spelling : ∀ e ∈ symbols, e.1 ≠ [] ∧ e.2 ≠ .eof ∧
    ∀ tail, Lexer.afterAngle? e.2 = some tail → e.1 = '>' :: tail := by
  have h : symbols.all (fun e => e.1 != [] && e.2 != .eof &&
      (Lexer.afterAngle? e.2).all (fun tail => e.1 == '>' :: tail)) = true := rfl
  intro e he
  have := List.all_eq_true.mp h e he
  simp only [Bool.and_eq_true, bne_iff_ne, ne_eq, Option.all_eq_true, beq_iff_eq] at this
  exact ⟨this.1.1, this.1.2, this.2⟩

/-- A symbol takes its spelling. -/
theorem take_symbol {spelling : List Char} {kind : Kind} (hmem : (spelling, kind) ∈ symbols)
    (hpre : spelling <+: c :: cs) : c :: cs.take (spelling.length - 1) = spelling := by
  have hlength : spelling.length - 1 + 1 = spelling.length :=
    Nat.sub_add_cancel (List.length_pos_iff.mpr (symbol_spelling _ hmem).1)
  rw [← List.take_succ_cons, hlength]
  exact (List.prefix_iff_eq_take.mp hpre).symm

theorem IsSymbol.solid (h : IsSymbol c cs l) : Solid c cs l := by
  cases h with
  | symbol hmem hpre =>
    obtain ⟨-, heof, hangle⟩ := symbol_spelling _ hmem
    exact ⟨heof, fun tail ht => (take_symbol hmem hpre).trans (hangle tail ht)⟩
  | invalid => exact solid_of_isPlain rfl

theorem IsLiteral.isPlain (h : IsLiteral c cs l) : isPlain l.kind := by
  cases h <;> rfl

theorem IsWord.isPlain (h : IsWord word w) : isPlain w.1 := by
  cases h with
  | operator ho =>
    revert ho
    rename_i o
    cases o <;> simp [Operator.isWord, Lexeme.isPlain, Lexer.afterAngle?]
  | _ => rfl

theorem CanStand.solid (h : CanStand c cs l) : Solid c cs l := by
  cases h with
  | literal h => exact solid_of_isPlain h.isPlain
  | word => exact solid_of_isPlain (isWord_ofWord _).isPlain
  | symbol h => exact h.solid
  | _ => exact solid_of_isPlain rfl

theorem solid_scan (c : Char) (cs : List Char) : Solid c cs (scan c cs) := (canStand_scan c cs).solid

end Lexeme

/-! ### Lexers -/

/-- The cursor stands right behind the token, and what follows it ends a text of `total` bytes. -/
structure Lexer.Sound (total : Nat) (l : Lexer) : Prop where
  stop : l.token.offset + l.token.size = l.cursor.offset
  total : l.cursor.offset + byteSize l.cursor.rest = total
  size_eq_zero : l.token.size = 0 ↔ l.token.kind = .eof
  angle : ∀ tail, Lexer.afterAngle? l.token.kind = some tail → l.token.size = 1 + byteSize tail

namespace Cursor

theorem byteSize_take_add_drop (cs : List Char) (n : Nat) :
    byteSize (cs.take n) + byteSize (cs.drop n) = byteSize cs := by
  rw [← byteSize_append, List.take_append_drop]

/-- The cursor after a token stands as many bytes before the end as the token is long. -/
theorem next_offset (c : Cursor) :
    c.next.1.offset = c.offset ∧ c.offset + c.next.1.size = c.next.2.offset ∧
      c.next.2.offset + byteSize c.next.2.rest = c.offset + byteSize c.rest := by
  unfold next
  split
  · exact ⟨rfl, rfl, rfl⟩
  · rename_i d ds hrest
    have := byteSize_take_add_drop c.rest ((Lexeme.scan d ds).more + 1)
    refine ⟨rfl, rfl, ?_⟩
    simp only [skip]
    omega

theorem next_sound {c : Cursor} {total : Nat} (h : c.offset + byteSize c.rest = total) :
    Lexer.Sound total ⟨c.next.2, c.next.1⟩ := by
  obtain ⟨hoff, hstop, htotal⟩ := c.next_offset
  refine ⟨by rw [hoff]; exact hstop, htotal.trans h, ?_, ?_⟩
  · unfold next
    split
    · exact ⟨fun _ => rfl, fun _ => rfl⟩
    · rename_i d ds hrest
      have hpos := d.utf8Size_pos
      have hkind := (Lexeme.solid_scan d ds).1
      simp only [place, hrest, List.take_succ_cons, byteSize_cons]
      exact ⟨fun h => by omega, fun h => absurd h hkind⟩
  · unfold next
    split
    · intro tail ht
      cases ht
    · rename_i d ds hrest
      intro tail ht
      have htake := (Lexeme.solid_scan d ds).2 tail ht
      have hgt : Char.utf8Size '>' = 1 := rfl
      simp only [place, hrest, htake, byteSize_cons, hgt]

/-- The next significant token is sound and does not lie before the cursor. -/
theorem significant_sound {c : Cursor} {total : Nat} (h : c.offset + byteSize c.rest = total) :
    Lexer.Sound total ⟨c.significant.cursor, c.significant.token⟩ ∧
      c.offset ≤ c.significant.token.offset := by
  induction c using significant.induct with
  | case1 c hc ih =>
    obtain ⟨hoff, hstop, htotal⟩ := c.next_offset
    obtain ⟨hsound, hle⟩ := ih (htotal.trans h)
    rw [significant, dif_pos hc]
    exact ⟨hsound, by simp only; omega⟩
  | case2 c hc =>
    rw [significant, dif_neg hc]
    exact ⟨next_sound h, by simp only [c.next_offset.1]; omega⟩

end Cursor

/-- Splitting keeps a lexer sound, and the token stays where it is. -/
theorem Lexer.Sound.split {l l' : Lexer} {total : Nat} (h : l.Sound total)
    (hl : l.splitAngle? = some l') : l'.Sound total ∧ l'.token.offset = l.token.offset := by
  unfold Lexer.splitAngle? at hl
  obtain ⟨tail, ht, rfl⟩ := Option.map_eq_some_iff.mp hl
  have hsize := h.angle tail ht
  have hstop := h.stop
  have htotal := h.total
  have hgt : byteSize ['>'] = 1 := rfl
  refine ⟨⟨?_, ?_, ?_, ?_⟩, rfl⟩
  · rfl
  · simp only [Cursor.skip, List.cons_append, List.take_succ_cons, List.take_zero, hgt,
      List.drop_succ_cons, List.drop_zero, byteSize_append]
    omega
  · exact ⟨fun h0 => by simp [Cursor.place, hgt] at h0, fun h0 => by cases h0⟩
  · intro tail ht'
    cases ht'

end SableFront
