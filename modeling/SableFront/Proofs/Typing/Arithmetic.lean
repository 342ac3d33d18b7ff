import Mathlib.Algebra.BigOperators.Group.List.Basic
import Mathlib.Algebra.Group.WithOne.Defs
import Mathlib.Data.Option.NAry
import SableFront.Proofs.Typing.WellFormed

/-!
# Typing: arithmetic in any order

The type of a sum or product does not depend on how its operands are grouped, nor on their order
(`arithmetic_in_any_order`). This is not plain from `promote`, which treats two equal types apart:
they stay as they are, with all their flags, while any other two give a type of numeric flags only.

What arithmetic looks at in a number is its `Measure`. The measures of two numbers join field by field
(`join`), and where two types are equal and already of this form, keeping them is the same as joining
them. So on well-sized types `promote` is commutative and associative.
-/

namespace SableFront

/-- The classes of the operators that compute with numbers. -/
def Operator.Class.isArithmetic : Operator.Class → Bool
  | multiplicative | additive | shift | bitwise => true
  | _ => false

namespace Width

/-- The wider of two widths. -/
def join (v w : Width) : Width := (SymbolType.wider (some v) (some w)).getD .w32

theorem join_self (v : Width) : v.join v = v := by cases v <;> rfl

theorem join_comm (v w : Width) : v.join w = w.join v := by cases v <;> cases w <;> rfl

theorem join_assoc (u v w : Width) : (u.join v).join w = u.join (v.join w) := by
  cases u <;> cases v <;> cases w <;> rfl

end Width

/-- What arithmetic looks at in a number. -/
structure Measure where
  isFloat : Bool
  width : Width
  isSigned : Bool

namespace Measure

variable (m n k : Measure)

/-- The type of exactly these flags. -/
def toType : SymbolType := if m.isFloat then .float m.width else .int m.width m.isSigned

/-- The measure of a result: a float if either side is, as wide as the wider one, and signed if either
side is. -/
def join : Measure := ⟨m.isFloat || n.isFloat, m.width.join n.width, m.isSigned || n.isSigned⟩

/-- The measure as it shows in its type: a float has no sign. -/
def settled : Measure := { m with isSigned := !m.isFloat && m.isSigned }

theorem join_comm : m.join n = n.join m := by
  rw [join, join, Bool.or_comm, Width.join_comm, Bool.or_comm m.isSigned]

theorem join_assoc : (m.join n).join k = m.join (n.join k) := by
  simp only [join, Bool.or_assoc, Width.join_assoc]

theorem join_self : m.join m = m := by
  simp only [join, Bool.or_self, Width.join_self]

/-- A sign that does not show makes no difference later on. -/
theorem toType_join_settled : (m.join n.settled).toType = (m.join n).toType := by
  obtain ⟨isFloat, width, isSigned⟩ := n
  cases isFloat with
  | false => rfl
  | true =>
    have hfloat (s : Bool) : (m.join ⟨true, width, s⟩).toType = .float (m.width.join width) := by
      rw [join, Bool.or_true]
      rfl
    exact (hfloat _).trans (hfloat _).symm

end Measure

namespace SymbolType

variable {s t u : SymbolType}

/-- A type is no number, or it is an integer or a float, not both, of one width. -/
structure IsWellSized (t : SymbolType) : Prop where
  number : ¬ (t.isInteger ∧ t.isFloat)
  widths : t.isNumeric → t.widths.length = 1

instance (t : SymbolType) : Decidable t.IsWellSized :=
  decidable_of_iff (¬ (t.isInteger ∧ t.isFloat) ∧ (t.isNumeric → t.widths.length = 1))
    ⟨fun h => ⟨h.1, h.2⟩, fun h => ⟨h.number, h.widths⟩⟩

theorem WellFormed.isWellSized (h : t.WellFormed) : t.IsWellSized :=
  ⟨h.number, fun hnumeric => by rw [h.widths, if_pos hnumeric]⟩

/-- The measure of a number. -/
def measure? (t : SymbolType) : Option Measure :=
  if t.isNumeric then some ⟨t.isFloat, t.width?.getD .w32, t.isSigned⟩ else Option.none

/-- The type of a measure; without one it is unknown. -/
def ofMeasure? (m : Option Measure) : SymbolType := m.elim unknown Measure.toType

/-- The type of arithmetic on two types that are treated by their measures alone. -/
def join (s t : SymbolType) : SymbolType :=
  ofMeasure? (Option.map₂ Measure.join s.measure? t.measure?)

/-! ### Measures -/

theorem measure?_ofMeasure? (m : Option Measure) :
    (ofMeasure? m).measure? = m.map Measure.settled := by
  cases m with
  | none => rfl
  | some m =>
    obtain ⟨isFloat, width, isSigned⟩ := m
    cases isFloat <;> cases width <;> cases isSigned <;> rfl

theorem join_comm (s t : SymbolType) : join s t = join t s := by
  rw [join, Option.map₂_comm Measure.join_comm, join]

/-- Behind a result only its measure counts. -/
theorem join_ofMeasure? (s : SymbolType) (m : Option Measure) :
    join s (ofMeasure? m) = ofMeasure? (Option.map₂ Measure.join s.measure? m) := by
  rw [join, measure?_ofMeasure?]
  cases s.measure? with
  | none => rfl
  | some k =>
    cases m with
    | none => rfl
    | some m => exact k.toType_join_settled m

theorem join_assoc (s t u : SymbolType) : join (join s t) u = join s (join t u) := by
  rw [join_comm _ u, join.eq_1 s t, join.eq_1 t u, join_ofMeasure?, join_ofMeasure?,
    Option.map₂_comm Measure.join_comm, Option.map₂_assoc Measure.join_assoc]

/-- The same type once more makes no difference. -/
theorem join_again (s t : SymbolType) : join s (join s t) = join s t := by
  rw [join.eq_1 s t, join_ofMeasure?]
  cases s.measure? with
  | none => rfl
  | some m =>
    cases t.measure? with
    | none => rfl
    | some n =>
      have hjoin : m.join (m.join n) = m.join n := by rw [← Measure.join_assoc, Measure.join_self]
      exact congrArg Measure.toType hjoin

/-- A result joined with itself stays as it is. -/
theorem join_join_self (s t : SymbolType) : join (join s t) (join s t) = join s t := by
  rw [join_assoc, join_comm s t, join_again t s, join_comm t s, join_again s t]

theorem isWellSized_join (s t : SymbolType) : (join s t).IsWellSized := by
  rw [join]
  cases Option.map₂ Measure.join s.measure? t.measure? with
  | none => exact wellFormed_unknown.isWellSized
  | some m =>
    obtain ⟨isFloat, width, isSigned⟩ := m
    cases isFloat with
    | false => exact (wellFormed_int width isSigned).isWellSized
    | true => exact (wellFormed_float width).isWellSized

/-! ### Arithmetic -/

/-- A number has a width. -/
theorem IsWellSized.width? (h : t.IsWellSized) (hnumeric : t.isNumeric) :
    t.width? = some (t.width?.getD .w32) := by
  have hlength := h.widths hnumeric
  cases hwidth : t.width? with
  | some w => rfl
  | none =>
    -- the search for the greatest width passes all of them
    have hno : t.widths = [] := by
      rw [SymbolType.width?, List.find?_eq_none] at hwidth
      rw [SymbolType.widths, List.filter_eq_nil_iff]
      intro w _
      exact hwidth w (by cases w <;> decide)
    rw [hno] at hlength
    cases hlength

/-- **Equal types stay as they are, and all others are treated by their measures.** -/
theorem promote_eq (hs : s.IsWellSized) (ht : t.IsWellSized) :
    promote s t = if s = t then s else join s t := by
  unfold promote
  split
  · rfl
  · by_cases hnumeric : s.isNumeric ∧ t.isNumeric
    · have hwidth : (wider s.width? t.width?).getD .w32 =
          (s.width?.getD .w32).join (t.width?.getD .w32) := by
        rw [hs.width? hnumeric.1, ht.width? hnumeric.2]
        rfl
      rw [join, measure?, measure?, if_pos hnumeric.1, if_pos hnumeric.2, hwidth, hnumeric.1, hnumeric.2]
      rfl
    · have hunknown : join s t = unknown := by
        rw [join, measure?, measure?]
        by_cases hleft : s.isNumeric
        · rw [if_neg fun hright => hnumeric ⟨hleft, hright⟩, Option.map₂_none_right]
          rfl
        · rw [if_neg hleft, Option.map₂_none_left]
          rfl
      have hcond : (!s.isNumeric || !t.isNumeric) = true := by
        rw [← Bool.not_and, Bool.not_eq_true', Bool.eq_false_iff, ne_eq, Bool.and_eq_true]
        exact hnumeric
      rw [hunknown, if_pos hcond]

theorem IsWellSized.promote (hs : s.IsWellSized) (ht : t.IsWellSized) :
    (promote s t).IsWellSized := by
  rw [promote_eq hs ht]
  split
  · exact hs
  · exact isWellSized_join s t

theorem promote_comm (hs : s.IsWellSized) (ht : t.IsWellSized) : promote s t = promote t s := by
  rw [promote_eq hs ht, promote_eq ht hs, join_comm]
  split
  · rename_i heq
    rw [if_pos heq.symm, heq]
  · rename_i hne
    rw [if_neg (Ne.symm hne)]

/-- With a result, equal types need not be treated apart. -/
theorem promote_join (s t : SymbolType) (hu : u.IsWellSized) :
    promote (join s t) u = join (join s t) u := by
  rw [promote_eq (isWellSized_join s t) hu]
  split
  · rename_i heq
    rw [← heq, join_join_self]
  · rfl

theorem promote_self (t : SymbolType) : promote t t = t := if_pos rfl

theorem promote_assoc (hs : s.IsWellSized) (ht : t.IsWellSized) (hu : u.IsWellSized) :
    promote (promote s t) u = promote s (promote t u) := by
  have hright : promote s (join t u) = join s (join t u) := by
    rw [promote_comm hs (isWellSized_join t u), promote_join t u hs, join_comm]
  by_cases hst : s = t
  · by_cases htu : t = u
    · rw [hst, htu, promote_self, promote_self]
    · rw [promote_eq ht hu, if_neg htu, hright, hst, promote_self, promote_eq ht hu, if_neg htu,
        join_again]
  · rw [promote_eq hs ht, if_neg hst, promote_join s t hu]
    by_cases htu : t = u
    · rw [← htu, promote_self, promote_eq hs ht, if_neg hst, join_comm _ t, join_comm s t,
        join_again]
    · rw [promote_eq ht hu, if_neg htu, hright, join_assoc]

end SymbolType

/-! ### Operands of any number -/

/-- A well-sized type, as arithmetic takes it. -/
@[ext] structure Operand where
  type : SymbolType
  sized : type.IsWellSized

namespace Operand

instance : CommSemigroup Operand where
  mul s t := ⟨SymbolType.promote s.type t.type, s.sized.promote t.sized⟩
  mul_assoc s t u := Operand.ext (SymbolType.promote_assoc s.sized t.sized u.sized)
  mul_comm s t := Operand.ext (SymbolType.promote_comm s.sized t.sized)

theorem type_mul (s t : Operand) : (s * t).type = SymbolType.promote s.type t.type := rfl

/-- The type as an operand, if it is well sized. -/
def ofType (t : SymbolType) : Operand :=
  if h : t.IsWellSized then ⟨t, h⟩ else ⟨.unknown, SymbolType.wellFormed_unknown.isWellSized⟩

theorem type_ofType {t : SymbolType} (h : t.IsWellSized) : (ofType t).type = t := by
  rw [ofType, dif_pos h]

end Operand

namespace Node

variable {table : SymbolTable} {m n : Node} {ls ks : List Node}

/-- The node is a tree of arithmetic operators, with these operands from left to right. -/
inductive Arithmetic : Node → List Node → Prop
  | operand (n : Node) : Arithmetic n [n]
  | binary {data : NodeData} {left right : Node} {ls ks : List Node} (hform : data.form = .binary)
    (hclass : data.token.kind.opClass?.any Operator.Class.isArithmetic) (hleft : Arithmetic left ls)
    (hright : Arithmetic right ks) : Arithmetic (mk data [left, right]) (ls ++ ks)

/-- The type of an arithmetic operation is made from those of its sides. -/
theorem valueType_arithmetic {data : NodeData} (hform : data.form = .binary)
    (hclass : data.token.kind.opClass?.any Operator.Class.isArithmetic) (left right : Node) :
    (mk data [left, right]).valueType table =
      .promote (left.valueType table) (right.valueType table) := by
  obtain ⟨form, ⟨kind, _, _, _, _, _⟩, _, _, _, _⟩ := data
  obtain rfl : form = .binary := hform
  cases kind with
  | operator o => cases o <;> first | rfl | exact absurd hclass Bool.false_ne_true
  | _ => exact absurd hclass Bool.false_ne_true

/-- **The type of a tree is the product of the types of its operands.** -/
theorem Arithmetic.valueType_eq (h : n.Arithmetic ls)
    (hsized : ∀ l ∈ ls, (l.valueType table).IsWellSized) :
    ∃ t : Operand, t.type = n.valueType table ∧ (t : WithOne Operand) =
      (ls.map fun l => (Operand.ofType (l.valueType table) : WithOne Operand)).prod := by
  induction h with
  | operand n =>
    refine ⟨.ofType (n.valueType table), Operand.type_ofType (hsized n List.mem_cons_self), ?_⟩
    rw [List.map_singleton, List.prod_singleton]
  | binary hform hclass hleft hright ihleft ihright =>
    obtain ⟨t, ht, htprod⟩ := ihleft fun l hl => hsized l (List.mem_append_left _ hl)
    obtain ⟨u, hu, huprod⟩ := ihright fun l hl => hsized l (List.mem_append_right _ hl)
    refine ⟨t * u, ?_, ?_⟩
    · rw [Operand.type_mul, ht, hu, valueType_arithmetic hform hclass]
    · rw [WithOne.coe_mul, htprod, huprod, List.map_append, List.prod_append]

end Node

/-- **Arithmetic gives the same type in any grouping and any order.** Two trees of operators that compute
with numbers have the same type if their operands are the same nodes, each as often in one as in the
other, and the type of each operand is no number or an integer or float of one width. -/
theorem arithmetic_in_any_order {table : SymbolTable} {m n : Node} {ls ks : List Node}
    (hm : m.Arithmetic ls) (hn : n.Arithmetic ks) (hperm : ls.Perm ks)
    (hsized : ∀ l ∈ ls, (l.valueType table).IsWellSized) :
    m.valueType table = n.valueType table := by
  obtain ⟨t, ht, htprod⟩ := hm.valueType_eq hsized
  obtain ⟨u, hu, huprod⟩ := hn.valueType_eq fun k hk => hsized k (hperm.mem_iff.mpr hk)
  have hprod : (t : WithOne Operand) = u := by
    rw [htprod, huprod, (hperm.map _).prod_eq]
  rw [← ht, ← hu, WithOne.coe_injective hprod]

/-- Two equal pointers alone keep their star, which is lost beside a number. -/
theorem arithmetic_with_pointers :
    let token (k : Kind) : Token := ⟨k, .none, .point .origin, 0, 0, 0⟩
    let operation (o : Operator) (m n : Node) : Node := .branch .binary (token (.operator o)) [m, n]
    let pointer : Node := .branch (.new false) (token (.keyword .newKw))
      [.leaf (.typeRef false 0 (.builtin .int32)) (token .ident)]
    let one : Node := .leaf (.int 1) (token .int)
    let m := operation .plus (operation .star pointer pointer) one
    let n := operation .shl pointer (operation .amp one pointer)
    m.Arithmetic [pointer, pointer, one] ∧ n.Arithmetic [pointer, one, pointer] ∧
      [pointer, pointer, one].Perm [pointer, one, pointer] ∧
      (∀ l ∈ [pointer, pointer, one], (l.valueType .empty).IsWellSized) ∧
      (operation .star pointer pointer).valueType .empty = pointer.valueType .empty ∧
      pointer.valueType .empty ≠ .int .w32 true ∧
      m.valueType .empty = n.valueType .empty ∧ n.valueType .empty = .int .w32 true := by
  intro token operation pointer one m n
  have hm : m.Arithmetic [pointer, pointer, one] :=
    .binary rfl rfl (.binary rfl rfl (.operand _) (.operand _)) (.operand _)
  have hn : n.Arithmetic [pointer, one, pointer] :=
    .binary rfl rfl (.operand _) (.binary rfl rfl (.operand _) (.operand _))
  have hperm : [pointer, pointer, one].Perm [pointer, one, pointer] := .cons _ (.swap _ _ _)
  have hsized : ∀ l ∈ [pointer, pointer, one], (l.valueType .empty).IsWellSized := by
    have hpointer : (pointer.valueType .empty).IsWellSized := by decide +kernel
    have hone : (one.valueType .empty).IsWellSized := by decide +kernel
    simp [hpointer, hone]
  exact ⟨hm, hn, hperm, hsized, by decide +kernel, by decide +kernel,
    arithmetic_in_any_order hm hn hperm hsized, by decide +kernel⟩

end SableFront
