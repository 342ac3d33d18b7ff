import SableFront.Report.Listing
import SableFront.Proofs.Spaced.Word
import Mathlib.Data.List.Basic

/-!
# Listings: texts without line breaks

A text made of lines, each ended by a line break, is read back line by line if no line break stands in a
line, and only then (`Report.hasLines_ofLines`). So of each text that goes into a line it has to be known
whether a line break stands in it (`Text.isBroken`). None does in quoted text, in numbers, decimals and
positions, and in the words of the vocabulary.
-/

namespace SableFront

/-! ### Lines -/

/-- No separator stands in what lies between separators. -/
theorem not_mem_of_mem_splitOn {α : Type} [BEq α] [LawfulBEq α] {a : α} {xs piece : List α}
    (h : piece ∈ xs.splitOn a) : a ∉ piece := by
  induction xs generalizing piece with
  | nil =>
    rw [List.splitOn_nil, List.mem_singleton] at h
    exact h ▸ List.not_mem_nil
  | cons x xs ih =>
    rw [List.splitOn_cons_eq_if_modifyHead] at h
    split at h
    · rcases List.mem_cons.mp h with rfl | h
      · exact List.not_mem_nil
      · exact ih h
    · rename_i hne
      obtain ⟨first, others, hsplit⟩ := List.exists_cons_of_ne_nil (List.splitOn_ne_nil a xs)
      rw [hsplit, List.modifyHead_cons] at h
      rw [hsplit] at ih
      rcases List.mem_cons.mp h with rfl | h
      · have hfirst : a ∉ first := ih List.mem_cons_self
        simpa [hfirst] using fun heq => hne (beq_iff_eq.mpr heq.symm)
      · exact ih (List.mem_cons_of_mem _ h)

namespace Text

/-- A line break stands in the text. -/
def isBroken (s : String) : Bool := s.toList.contains '\n'

theorem isBroken_eq_false {s : String} : isBroken s = false ↔ '\n' ∉ s.toList := by
  rw [isBroken, Bool.eq_false_iff, ne_eq, List.contains_iff_mem]

end Text

namespace Report

/-- The text consists of these lines in this order, each ended by a line break. -/
def HasLines (text : String) (lines : List String) : Prop :=
  text.toList.splitOn '\n' = lines.map String.toList ++ [[]]

instance (text : String) (lines : List String) : Decidable (HasLines text lines) :=
  inferInstanceAs (Decidable (_ = _))

/-- Where a text of lines is split at its line breaks, each line is split, and nothing is behind the
last line break. -/
theorem splitOn_ofLines (lines : List String) : (ofLines lines).toList.splitOn '\n' =
    lines.flatMap (·.toList.splitOn '\n') ++ [[]] := by
  rw [toList_ofLines]
  induction lines with
  | nil => exact List.splitOn_nil _
  | cons line lines ih =>
    rw [List.flatMap_cons, List.flatMap_cons, List.append_assoc, List.singleton_append,
      List.splitOn_append_cons_self, ih, List.append_assoc]

/-- **A text of lines is read back** if no line break stands in a line, and only then. -/
theorem hasLines_ofLines {lines : List String} :
    HasLines (ofLines lines) lines ↔ ∀ line ∈ lines, Text.isBroken line = false := by
  unfold HasLines
  rw [splitOn_ofLines, List.append_left_inj]
  simp only [Text.isBroken_eq_false]
  constructor
  · intro h line hline
    have hpiece : line.toList ∈ lines.flatMap (·.toList.splitOn '\n') :=
      h ▸ List.mem_map_of_mem hline
    obtain ⟨whole, -, hpiece⟩ := List.mem_flatMap.mp hpiece
    exact not_mem_of_mem_splitOn hpiece
  · intro h
    rw [List.map_eq_flatMap]
    exact List.flatMap_congr fun line hline => List.splitOn_eq_singleton (h line hline)

end Report

namespace Text

/-! ### Texts that are put together -/

theorem isBroken_append (s t : String) : isBroken (s ++ t) = (isBroken s || isBroken t) := by
  simp [isBroken]

theorem isBroken_ofList {cs : List Char} (h : '\n' ∉ cs) : isBroken (String.ofList cs) = false := by
  rwa [isBroken_eq_false, String.toList_ofList]

/-- What stands between parts is unbroken, so the whole is broken if one of the parts is. -/
theorem isBroken_intercalate {separator : String} (h : isBroken separator = false)
    (parts : List String) : isBroken (separator.intercalate parts) = parts.any isBroken := by
  induction parts with
  | nil => rfl
  | cons part parts ih =>
    cases parts with
    | nil => rw [String.intercalate_singleton, List.any_cons, List.any_nil, Bool.or_false]
    | cons next parts =>
      rw [String.intercalate_cons_cons, isBroken_append, isBroken_append, h, Bool.or_false, ih,
        ← List.any_cons]

/-! ### Quoted text -/

theorem newline_not_mem_toDigits {base : Nat} (hbase : 1 < base) (n : Nat) :
    '\n' ∉ Nat.toDigits base n := by
  -- on the number, which is divided by the base
  induction n using Nat.strongRecOn with
  | ind n ih =>
    rw [Nat.toDigits_eq_if hbase]
    split
    · exact fun h => Nat.digitChar_ne '\n' rfl (List.mem_singleton.mp h).symm
    · rename_i hle
      rw [List.mem_append, not_or]
      refine ⟨ih _ (Nat.div_lt_self (by omega) hbase), fun h => ?_⟩
      exact Nat.digitChar_ne '\n' rfl (List.mem_singleton.mp h).symm

/-- A line break is escaped, and no escape has one. -/
theorem newline_not_mem_escaped {quote : Char} (hquote : quote ≠ '\n') (c : Char) :
    '\n' ∉ escaped quote c := by
  unfold escaped
  split_ifs with hnull htab hreturn hline hself hplain hcode
  · decide
  · decide
  · decide
  · decide
  · rcases hself with rfl | rfl
    · decide
    · simpa using hquote.symm
  · simpa using Ne.symm hline
  · have hdigits := newline_not_mem_toDigits (by decide : 1 < 16) c.toNat
    simpa [codePointEscape] using hdigits
  · simpa using Ne.symm hline

/-- **What is quoted is on one line.** -/
theorem newline_not_mem_quoted {quote : Char} (hquote : quote ≠ '\n') (cs : List Char) :
    '\n' ∉ quoted quote cs := by
  have hcontent : '\n' ∉ cs.flatMap (escaped quote) := fun h => by
    obtain ⟨c, -, hc⟩ := List.mem_flatMap.mp h
    exact newline_not_mem_escaped hquote c hc
  simp [quoted, hcontent, hquote.symm]

/-! ### Numbers and positions -/

theorem isBroken_toString (n : Nat) : isBroken (toString n) = false := by
  rw [isBroken_eq_false, Word.toList_toString]
  exact newline_not_mem_toDigits (by decide) n

theorem isBroken_toString_int (z : Int) : isBroken (toString z) = false := by
  rw [Int.toString_eq_repr, Int.repr_eq_if]
  split
  · exact isBroken_toString z.toNat
  · rw [isBroken_append]
    exact isBroken_toString (-z).toNat

theorem isBroken_position (p : Position) : isBroken p.render = false := by
  rw [Position.render, isBroken_append, isBroken_append, isBroken_toString, isBroken_toString]
  rfl

end Text

namespace Decimal

open Text

theorem newline_not_mem_digitChars (d : Shortest) : '\n' ∉ d.digitChars :=
  newline_not_mem_toDigits (by decide) d.digits

theorem newline_not_mem_pointed {digits : List Char} (h : '\n' ∉ digits) (places : Nat) :
    '\n' ∉ Shortest.pointed digits places := by
  have hpadded : '\n' ∉ List.replicate (places + 1 - digits.length) '0' ++ digits := by
    rw [List.mem_append, not_or]
    exact ⟨fun hzero => absurd (List.eq_of_mem_replicate hzero) (by decide), h⟩
  unfold Shortest.pointed
  rw [List.mem_append, List.mem_cons, not_or, not_or]
  exact ⟨fun hmem => hpadded (List.mem_of_mem_take hmem), by decide,
    fun hmem => hpadded (List.mem_of_mem_drop hmem)⟩

theorem newline_not_mem_positional {fraction : List Char} (h : '\n' ∉ fraction) (d : Shortest) :
    '\n' ∉ d.positional fraction := by
  unfold Shortest.positional
  split
  · exact newline_not_mem_pointed (newline_not_mem_digitChars d) _
  · rw [List.mem_append, List.mem_append, not_or, not_or]
    exact ⟨⟨newline_not_mem_digitChars d,
      fun hzero => absurd (List.eq_of_mem_replicate hzero) (by decide)⟩, h⟩

theorem newline_not_mem_scientific (d : Shortest) : '\n' ∉ d.scientific := by
  have hdigits := newline_not_mem_digitChars d
  have hexponent := isBroken_eq_false.mp (isBroken_toString_int d.magnitude)
  unfold Shortest.scientific
  dsimp only
  rw [List.mem_append, List.mem_cons, not_or, not_or]
  refine ⟨?_, by decide, hexponent⟩
  split
  · rename_i first second rest heq
    rw [heq] at hdigits
    simpa using hdigits
  · exact hdigits

theorem newline_not_mem_plain (bits : UInt64) : '\n' ∉ plain bits := by
  unfold plain
  split
  · decide
  · exact newline_not_mem_positional List.not_mem_nil _

theorem newline_not_mem_inTree (bits : UInt64) : '\n' ∉ inTree bits := by
  unfold inTree
  split
  · decide
  · dsimp only
    split
    · exact newline_not_mem_scientific _
    · exact newline_not_mem_positional (by decide) _

end Decimal

/-! ### Words of the vocabulary -/

namespace Text

theorem isBroken_keyword (k : Keyword) :
    isBroken k.spelling = false ∧ isBroken k.label = false := by
  cases k <;> exact ⟨rfl, rfl⟩

theorem isBroken_operator (o : Operator) :
    isBroken o.spelling = false ∧ isBroken o.label = false := by
  cases o <;> exact ⟨rfl, rfl⟩

theorem isBroken_punctuation (p : Punctuation) :
    isBroken p.spelling = false ∧ isBroken p.label = false := by
  cases p <;> exact ⟨rfl, rfl⟩

theorem isBroken_kind (k : Kind) : isBroken k.label = false := by
  cases k
  case keyword k => rw [Kind.label, isBroken_append, isBroken_append, (isBroken_keyword k).2]; rfl
  case operator o => rw [Kind.label, isBroken_append, isBroken_append, (isBroken_operator o).2]; rfl
  case punctuation p =>
    rw [Kind.label, isBroken_append, isBroken_append, (isBroken_punctuation p).2]
    rfl
  all_goals rfl

end Text

end SableFront
