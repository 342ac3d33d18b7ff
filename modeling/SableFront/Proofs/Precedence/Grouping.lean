import SableFront.Proofs.Spaced.Operand

/-!
# Precedence: grouped outlines

An outline of integers and infix operators is *grouped* if its operators bind the way the vocabulary
says: an operator binds at most as tightly as the one to its left, and less tightly than those to its
right. Two ordering operators that open alike and follow each other at one level make one range
test; pairs are taken from the left, so a comparison is never followed by an operator it would pair
with.
-/

namespace SableFront

/-- What the word is read as. -/
def Word.meaning (w : Word) : Kind × Value := (w.kind, w.value)

namespace Outline

/-- The operator at the root; for a range test the first one. -/
def operator? : Outline → Option Operator
  | binary op _ _ => some op
  | between first _ _ _ _ => some first
  | _ => none

/-- The outline is that of a comparison that would make a range test with an operator after it. -/
def pairsWith (e : Outline) (op : Operator) : Bool :=
  match e with
  | binary first _ _ => Grammar.chains (.operator first) (.operator op)
  | _ => false

/-- The tokens of an outline in the order of the text. -/
def inOrder : Outline → List (Kind × Value)
  | int n => [(.int, .int n)]
  | binary op left right => left.inOrder ++ (.operator op, .none) :: right.inOrder
  | between first second lower value upper =>
    lower.inOrder ++ (.operator first, .none) :: value.inOrder ++
      (.operator second, .none) :: upper.inOrder
  | _ => []

/-- The operators of the outline bind as the vocabulary says. -/
inductive Grouped : Outline → Prop
  | int (n : Nat) : Grouped (int n)
  | binary {op : Operator} {left right : Outline} (hleft : Grouped left) (hright : Grouped right)
    (hl : ∀ o ∈ left.operator?, op.precedence ≤ o.precedence)
    (hr : ∀ o ∈ right.operator?, op.precedence < o.precedence)
    (hpair : left.pairsWith op = false) : Grouped (binary op left right)
  | between {first second : Operator} {lower value upper : Outline}
    (hchains : Grammar.chains (.operator first) (.operator second))
    (hlower : Grouped lower) (hvalue : Grouped value) (hupper : Grouped upper)
    (hl : ∀ o ∈ lower.operator?, first.precedence ≤ o.precedence)
    (hv : ∀ o ∈ value.operator?, first.precedence < o.precedence)
    (hu : ∀ o ∈ upper.operator?, second.precedence < o.precedence)
    (hpair : lower.pairsWith first = false) : Grouped (between first second lower value upper)

theorem inOrder_binary (op : Operator) (left right : Outline) :
    (binary op left right).inOrder = left.inOrder ++ (.operator op, .none) :: right.inOrder := by
  rw [binary, inOrder]

theorem inOrder_between (first second : Operator) (lower value upper : Outline) :
    (between first second lower value upper).inOrder =
      lower.inOrder ++ (.operator first, .none) :: value.inOrder ++
        (.operator second, .none) :: upper.inOrder := by
  rw [between, inOrder]

/-- Only two ordering operators pair. -/
theorem isOrdering_of_pairsWith {e : Outline} {op : Operator} (h : e.pairsWith op) :
    op.isOrdering ∧ ∃ first ∈ e.operator?, first.isOrdering := by
  unfold pairsWith at h
  split at h
  · rename_i first left right
    obtain ⟨hfirst, hop⟩ := Grammar.isOrdering_of_chains h
    exact ⟨hop, first, rfl, hfirst⟩
  · cases h

/-- An operator does not pair with a looser one. -/
theorem pairsWith_eq_false_of_lt {e : Outline} {op : Operator}
    (h : ∀ o ∈ e.operator?, op.precedence < o.precedence) : e.pairsWith op = false := by
  rw [Bool.eq_false_iff]
  intro hpairs
  obtain ⟨hop, first, hfirst, hordering⟩ := isOrdering_of_pairsWith hpairs
  have hlt := h first hfirst
  rw [Operator.precedence, Operator.precedence, Operator.opClass_of_isOrdering hop,
    Operator.opClass_of_isOrdering hordering] at hlt
  exact Nat.lt_irrefl _ hlt

end Outline

/-- The outline groups the words by operators of some precedence or a greater one. -/
structure Folded (P : Nat) (e : Outline) (ws : List Word) : Prop where
  grouped : e.Grouped
  inOrder : e.inOrder = ws.map Word.meaning
  tight : ∀ o ∈ e.operator?, P ≤ o.precedence

namespace Folded

variable {P : Nat} {l m u : Outline} {ws vs us : List Word} {op second : Operator}

theorem mono {P' : Nat} (h : Folded P' l ws) (hP : P ≤ P') : Folded P l ws :=
  ⟨h.grouped, h.inOrder, fun o ho => Nat.le_trans hP (h.tight o ho)⟩

theorem numeral (P : Nat) (digits : String) :
    Folded P (.int (Number.valueOf 10 digits.toList)) [.numeral digits] := by
  refine ⟨.int _, ?_, fun o ho => absurd ho (Option.not_mem_none o)⟩
  rw [Outline.int, Outline.inOrder]
  rfl

theorem binary (hl : Folded P l ws) (hm : Folded (P + 1) m vs) (hop : op.precedence = P)
    (hpair : l.pairsWith op = false) :
    Folded P (.binary op l m) (ws ++ .operator op :: vs) := by
  refine ⟨.binary hl.grouped hm.grouped (hop ▸ hl.tight) (hop ▸ hm.tight) hpair, ?_, ?_⟩
  · rw [Outline.inOrder_binary, hl.inOrder, hm.inOrder, List.map_append]
    rfl
  · intro o ho
    cases ho
    exact Nat.le_of_eq hop.symm

theorem between (hl : Folded P l ws) (hm : Folded (P + 1) m vs) (hu : Folded (P + 1) u us)
    (hop : op.precedence = P) (hsecond : second.precedence = P)
    (hchains : Grammar.chains (.operator op) (.operator second)) (hpair : l.pairsWith op = false) :
    Folded P (.between op second l m u) (ws ++ .operator op :: vs ++ .operator second :: us) := by
  have hgrouped := Outline.Grouped.between hchains hl.grouped hm.grouped hu.grouped
    (hop ▸ hl.tight) (hop ▸ hm.tight) (hsecond ▸ hu.tight) hpair
  refine ⟨hgrouped, ?_, ?_⟩
  · rw [Outline.inOrder_between, hl.inOrder, hm.inOrder, hu.inOrder, List.map_append, List.map_append]
    rfl
  · intro o ho
    cases ho
    exact Nat.le_of_eq hop.symm

end Folded

end SableFront
