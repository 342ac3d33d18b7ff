import SableFront.Token.Number

/-!
# Literals: values in 64 bits

The value of a number is computed digit by digit in 64 bits, with a check after every product and every
sum. No check fails too early, since values only grow, and none comes too late, since a value that is
lost stays lost. So the whole run comes to its exact value if that fits, and to nothing otherwise
(`readDigits_eq`), whatever stands in between.
-/

namespace SableFront.Number

variable {base max n d : Nat} {c : Char} {cs digits : List Char}

theorem checked_of_lt (h : n < limit) : checked n = some (UInt64.ofNat n) := if_pos h

theorem checked_of_le (h : limit ≤ n) : checked n = none := if_neg (Nat.not_lt.mpr h)

/-- What fits 64 bits is the number itself. -/
theorem toNat_of_checked {v : UInt64} (h : checked n = some v) : v.toNat = n ∧ n < limit := by
  unfold checked at h
  split at h
  · rename_i hlt
    cases h
    exact ⟨UInt64.toNat_ofNat_of_lt' hlt, hlt⟩
  · cases h

/-- **A digit is checked as if it had been computed without bounds.** -/
theorem push_checked (hbase : 0 < base) (n d : Nat) :
    (checked n).bind (push base · d) = checked (n * base + d) := by
  by_cases hn : n < limit
  · have hvalue : (UInt64.ofNat n).toNat = n := UInt64.toNat_ofNat_of_lt' hn
    rw [checked_of_lt hn, Option.bind_some, push, hvalue]
    by_cases hproduct : n * base < limit
    · have hvalue : (UInt64.ofNat (n * base)).toNat = n * base := UInt64.toNat_ofNat_of_lt' hproduct
      rw [checked_of_lt hproduct, Option.bind_some, hvalue]
    · have hsum : limit ≤ n * base + d := Nat.le_trans (Nat.not_lt.mp hproduct) (Nat.le_add_right _ d)
      rw [checked_of_le (Nat.not_lt.mp hproduct), checked_of_le hsum]
      rfl
  · have hle := Nat.not_lt.mp hn
    have hsum : limit ≤ n * base + d :=
      Nat.le_trans hle (Nat.le_trans (Nat.le_mul_of_pos_right n hbase) (Nat.le_add_right _ d))
    rw [checked_of_le hle, checked_of_le hsum]
    rfl

/-- The number that a run of digits denotes behind those that have come to `n`. -/
def valueFrom (base n : Nat) (digits : List Char) : Nat :=
  digits.foldl (fun n c => n * base + (digit? base c).getD 0) n

/-- **A run of digits is read as far as it goes, and comes to its exact value** or, if that does not fit
64 bits, to nothing. -/
theorem readDigits_eq (hbase : 0 < base) (max n : Nat) (cs : List Char) :
    readDigits base max (checked n) cs =
      ⟨checked (valueFrom base n (digitRun base (cs.take max))), (digitRun base (cs.take max)).length⟩ := by
  -- on the digits, each of which is checked
  induction cs generalizing max n with
  | nil =>
    rw [List.take_nil]
    cases max <;> rfl
  | cons c cs ih =>
    cases max with
    | zero => rfl
    | succ max =>
      rw [readDigits, List.take_succ_cons]
      cases hd : digit? base c with
      | none =>
        have hdigit : ¬ isDigit base c := by simp [isDigit, hd]
        rw [digitRun, List.takeWhile_cons_of_neg hdigit]
        rfl
      | some d =>
        have hdigit : isDigit base c := by simp [isDigit, hd]
        have hvalue (digits : List Char) :
            valueFrom base n (c :: digits) = valueFrom base (n * base + d) digits := by
          rw [valueFrom, List.foldl_cons, hd]
          rfl
        have hrun : digitRun base (c :: cs.take max) = c :: digitRun base (cs.take max) :=
          List.takeWhile_cons_of_pos hdigit
        dsimp only
        rw [push_checked hbase, ih, hrun, hvalue]
        rfl

theorem readDigits_zero (hbase : 0 < base) (max : Nat) (cs : List Char) :
    readDigits base max (some 0) cs =
      ⟨checked (valueOf base (digitRun base (cs.take max))), (digitRun base (cs.take max)).length⟩ :=
  readDigits_eq hbase max 0 cs

theorem digit?_lt (h : digit? base c = some d) : d < base := by
  obtain ⟨hlt, heq⟩ := Option.ite_none_right_eq_some.mp h
  exact Option.some.inj heq ▸ hlt

/-- The value of a literal with these digits: there has to be one, and it has to fit 64 bits. -/
def value? (base : Nat) (digits : List Char) : Option UInt64 :=
  if digits = [] then none else checked (valueOf base digits)

theorem value?_eq_some {v : UInt64} (h : value? base digits = some v) :
    digits ≠ [] ∧ v.toNat = valueOf base digits ∧ valueOf base digits < limit := by
  unfold value? at h
  split at h
  · cases h
  · exact ⟨‹_›, toNat_of_checked h⟩

theorem value?_eq_none (h : value? base digits = none) :
    ¬ (digits ≠ [] ∧ valueOf base digits < limit) := by
  rintro ⟨hne, hlt⟩
  rw [value?, if_neg hne, checked_of_lt hlt] at h
  cases h

/-- A literal whose base is announced reads its digits from zero on. -/
theorem readDigits_behind (hbase : 0 < base) (cs : List Char) (lead : Nat) :
    readDigits base cs.length (some 0) (cs.drop lead) =
      ⟨checked (valueOf base (digitRun base (cs.drop lead))), (digitRun base (cs.drop lead)).length⟩ := by
  have hall : (cs.drop lead).take cs.length = cs.drop lead := List.take_of_length_le (by simp)
  rw [readDigits_zero hbase, hall]

/-- A base-ten literal has read its first digit before. -/
theorem readDigits_ten (c : Char) (cs : List Char) :
    readDigits 10 cs.length (some (UInt64.ofNat ((digit? 10 c).getD 0))) cs =
      ⟨value? 10 (c :: digitRun 10 cs), (digitRun 10 cs).length⟩ := by
  have hlt : (digit? 10 c).getD 0 < limit := by
    have hten : 10 < limit := by decide
    cases hd : digit? 10 c with
    | none => exact Nat.lt_trans (by decide) hten
    | some d => exact Nat.lt_trans (digit?_lt hd) hten
  have hvalue (digits : List Char) : valueFrom 10 ((digit? 10 c).getD 0) digits = valueOf 10 (c :: digits) := by
    rw [valueOf, List.foldl_cons, Nat.zero_mul, Nat.zero_add]
    rfl
  rw [← checked_of_lt hlt, readDigits_eq (by decide), List.take_length, hvalue, value?,
    if_neg (List.cons_ne_nil _ _)]

end SableFront.Number
