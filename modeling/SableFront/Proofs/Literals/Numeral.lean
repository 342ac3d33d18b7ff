import Mathlib.Data.List.Induction
import Mathlib.Data.Nat.Digits.Defs
import Mathlib.Tactic.IntervalCases
import Mathlib.Tactic.SplitIfs
import SableFront.Token.Number

/-!
# Literals: numerals

A numeral is a run of characters that write the digits of a number, the first one counting most; a
letter stands for a digit above nine in either case. Integer literals of all bases and the code points
of escapes are numerals, and are read by the same means: `isDigit` tells the characters that write
digits, and the value of a run of these is the number that the numeral denotes (`denotes_iff`).
-/

namespace SableFront.Number

/-- The character writes the digit. -/
def Writes (d : Nat) (c : Char) : Prop := d < 16 ∧ (c = d.digitChar ∨ c = d.digitChar.toUpper)

/-- The characters denote the number in the base. -/
def Denotes (base : Nat) (cs : List Char) (n : Nat) : Prop :=
  ∃ ds : List Nat, (∀ d ∈ ds, d < base) ∧ List.Forall₂ Writes ds cs ∧ n = Nat.ofDigits base ds.reverse

variable {base d n : Nat} {c : Char} {cs : List Char}

/-! ### Single digits -/

theorem digit?_of_writes (h : Writes d c) (hd : d < base) : digit? base c = some d := by
  -- what the character is worth does not depend on the base
  have hworth : ∀ b, d < b → digit? b c = some d := by
    obtain ⟨hlt, hc⟩ := h
    intro b hb
    interval_cases d <;> rcases hc with rfl | rfl <;> exact if_pos hb
  exact hworth base hd

theorem exists_toNat_of_digit? (h : digit? base c = some d) : d < base ∧
    (d < 10 ∧ c.toNat = d + 48 ∨ 10 ≤ d ∧ c.toNat = d + 87 ∨ 10 ≤ d ∧ c.toNat = d + 55) := by
  unfold digit? at h
  dsimp only at h
  split_ifs at h with hdigit hlt hlower hlt hupper hlt hlt
  · obtain ⟨hlow, hhigh⟩ := hdigit
    replace hlow : 48 ≤ c.toNat := hlow
    replace hhigh : c.toNat ≤ 57 := hhigh
    obtain rfl : c.toNat - 48 = d := Option.some_inj.mp h
    exact ⟨hlt, .inl (by omega)⟩
  · obtain ⟨hlow, -⟩ := hlower
    replace hlow : 97 ≤ c.toNat := hlow
    obtain rfl : c.toNat - 97 + 10 = d := Option.some_inj.mp h
    exact ⟨hlt, .inr (.inl (by omega))⟩
  · obtain ⟨hlow, -⟩ := hupper
    replace hlow : 65 ≤ c.toNat := hlow
    obtain rfl : c.toNat - 65 + 10 = d := Option.some_inj.mp h
    exact ⟨hlt, .inr (.inr (by omega))⟩
  · exact absurd hlt (Nat.lt_irrefl base)

theorem writes_of_digit? (hbase : base ≤ 16) (h : digit? base c = some d) : d < base ∧ Writes d c := by
  obtain ⟨hd, hc⟩ := exists_toNat_of_digit? h
  have hlt : d < 16 := Nat.lt_of_lt_of_le hd hbase
  refine ⟨hd, hlt, ?_⟩
  rw [← Char.ofNat_toNat c]
  rcases hc with ⟨hd, hc⟩ | ⟨hd, hc⟩ | ⟨hd, hc⟩ <;> rw [hc]
  · left
    interval_cases d <;> rfl
  · left
    interval_cases d <;> rfl
  · right
    interval_cases d <;> rfl

/-- **A character is worth what the digit is that it writes**, if that is below the base. -/
theorem digit?_eq_some_iff (hbase : base ≤ 16) : digit? base c = some d ↔ d < base ∧ Writes d c :=
  ⟨writes_of_digit? hbase, fun h => digit?_of_writes h.2 h.1⟩

theorem isDigit_iff_exists (hbase : base ≤ 16) : isDigit base c ↔ ∃ d < base, Writes d c := by
  rw [isDigit, Option.isSome_iff_exists]
  exact exists_congr fun d => digit?_eq_some_iff hbase

/-! ### Runs of digits -/

theorem valueOf_concat (base : Nat) (cs : List Char) (c : Char) :
    valueOf base (cs ++ [c]) = valueOf base cs * base + (digit? base c).getD 0 := by
  rw [valueOf, List.foldl_append]
  rfl

/-- The worths of digits make up the value of their run. -/
theorem valueOf_eq_ofDigits (base : Nat) (cs : List Char) :
    valueOf base cs = Nat.ofDigits base (cs.map fun c => (digit? base c).getD 0).reverse := by
  induction cs using List.reverseRecOn with
  | nil => rfl
  | append_singleton cs c ih =>
    rw [valueOf_concat, List.map_append, List.map_singleton, List.reverse_append, List.reverse_singleton,
      List.singleton_append, Nat.ofDigits_cons, ih, Nat.mul_comm, Nat.add_comm]

theorem forall₂_writes (hbase : base ≤ 16) {ds : List Nat} :
    ((∀ d ∈ ds, d < base) ∧ List.Forall₂ Writes ds cs) ↔
      (∀ c ∈ cs, isDigit base c) ∧ ds = cs.map fun c => (digit? base c).getD 0 := by
  constructor
  · rintro ⟨hds, hcs⟩
    induction hcs with
    | nil => exact ⟨List.forall_mem_nil _, rfl⟩
    | cons hc _ ih =>
      obtain ⟨hd, hds⟩ := List.forall_mem_cons.mp hds
      obtain ⟨hall, hmap⟩ := ih hds
      have hworth := digit?_of_writes hc hd
      refine ⟨List.forall_mem_cons.mpr ⟨Option.isSome_iff_exists.mpr ⟨_, hworth⟩, hall⟩, ?_⟩
      rw [List.map_cons, ← hmap, hworth]
      rfl
  · rintro ⟨hcs, rfl⟩
    induction cs with
    | nil => exact ⟨List.forall_mem_nil _, .nil⟩
    | cons c cs ih =>
      obtain ⟨hc, hcs⟩ := List.forall_mem_cons.mp hcs
      obtain ⟨hds, hall⟩ := ih hcs
      obtain ⟨d, hd⟩ := Option.isSome_iff_exists.mp hc
      obtain ⟨hlt, hwrites⟩ := writes_of_digit? hbase hd
      rw [List.map_cons, hd]
      exact ⟨List.forall_mem_cons.mpr ⟨hlt, hds⟩, .cons hwrites hall⟩

/-- **A run of digits denotes its value, and nothing else denotes anything.** -/
theorem denotes_iff (hbase : base ≤ 16) :
    Denotes base cs n ↔ (∀ c ∈ cs, isDigit base c) ∧ n = valueOf base cs := by
  rw [valueOf_eq_ofDigits]
  constructor
  · rintro ⟨ds, hds, hcs, hn⟩
    obtain ⟨hall, rfl⟩ := (forall₂_writes hbase).mp ⟨hds, hcs⟩
    exact ⟨hall, hn⟩
  · rintro ⟨hall, hn⟩
    obtain ⟨hds, hcs⟩ := (forall₂_writes hbase).mpr ⟨hall, rfl⟩
    exact ⟨_, hds, hcs, hn⟩

/-! ### Maximal runs -/

/-- A run of digits is taken up to its end, if no further digit follows. -/
theorem digitRun_append {rest : List Char} (hcs : ∀ c ∈ cs, isDigit base c)
    (hrest : ∀ c ∈ rest.head?, ¬ isDigit base c) : digitRun base (cs ++ rest) = cs := by
  have hnone : rest.takeWhile (isDigit base) = [] := by
    cases rest with
    | nil => rfl
    | cons c rest => exact List.takeWhile_cons_of_neg (hrest c rfl)
  rw [digitRun, List.takeWhile_append_of_pos hcs, hnone, List.append_nil]

theorem isDigit_of_mem_digitRun (h : c ∈ digitRun base cs) : isDigit base c :=
  List.all_eq_true.mp List.all_takeWhile c h

/-- Behind a run of digits no further digit follows. -/
theorem not_isDigit_behind (base : Nat) (cs : List Char) :
    ∀ c ∈ (cs.drop (digitRun base cs).length).head?, ¬ isDigit base c := by
  induction cs with
  | nil => exact fun c hc => by cases hc
  | cons d ds ih =>
    unfold digitRun at ih ⊢
    by_cases hd : isDigit base d
    · rwa [List.takeWhile_cons_of_pos hd]
    · rw [List.takeWhile_cons_of_neg hd]
      rintro c ⟨⟩
      exact hd

end SableFront.Number
