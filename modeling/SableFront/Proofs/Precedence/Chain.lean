import SableFront.Proofs.Precedence.Folding
import SableFront.Proofs.Spaced.Program

/-!
# Precedence: chains of operators

A text of integers with infix operators between them, in whatever order and however many, is read as
one expression that has exactly these tokens and is grouped as the vocabulary says.
-/

namespace SableFront

open Grammar

theorem isRead_chainWords {digits : String} {items : List Item} (hdigits : IsNumeral digits)
    (hitems : ∀ i ∈ items, IsNumeral i.2) : ∀ w ∈ chainWords digits items, w.IsRead := by
  intro w hw
  rcases List.mem_cons.mp hw with rfl | hw
  · exact Word.isRead_numeral hdigits
  · obtain ⟨i, hi, hw⟩ := List.mem_flatMap.mp hw
    rcases List.mem_cons.mp hw with rfl | hw
    · exact Word.isRead_operator i.1
    · rw [List.mem_singleton.mp hw]
      exact Word.isRead_numeral (hitems i hi)

theorem length_itemWords (items : List Item) : (itemWords items).length = 2 * items.length := by
  induction items with
  | nil => rfl
  | cons i items ih =>
    have hcons : itemWords (i :: items) = .operator i.1 :: .numeral i.2 :: itemWords items := rfl
    rw [hcons, List.length_cons, List.length_cons, List.length_cons, ih]
    omega

/-- All infix operators bind at least as tightly as the logical ones. -/
theorem logical_le_precedence {o : Operator} (h : o.isInfix) : 10 ≤ o.precedence := by
  revert h
  cases o <;> decide

/-- **Chains are grouped by precedence.** For any integer literals and any infix operators between
them, reading the text gives one expression and no errors; its tokens in order are those of the text,
and its operators are grouped by their precedences from the left, with range tests for pairs of
ordering operators that open alike. -/
theorem chain_is_grouped (first : String) (items : List (Operator × String))
    (hfirst : IsNumeral first) (hitems : ∀ i ∈ items, i.1.isInfix ∧ IsNumeral i.2)
    (config : ParseConfig) :
    let program := Program.parse (sourceOf (chainWords first items)) config
    ∃ node, program.nodes = [node] ∧ program.errors = [] ∧
      node.outline.inOrder = (chainWords first items).map Word.meaning ∧ node.outline.Grouped := by
  have hwords := isRead_chainWords hfirst fun i hi => (hitems i hi).2
  have hlength : (chainWords first items).length ≤
      (sourceOf (chainWords first items)).utf8ByteSize :=
    length_le_utf8ByteSize (hwords _ List.mem_cons_self)
  have htight : Tight 10 items := fun i hi => ⟨(hitems i hi).1, logical_le_precedence (hitems i hi).1⟩
  rw [chainWords, List.length_cons, length_itemWords] at hlength
  obtain ⟨e, he, hgives⟩ := folds_logical
    (r := rules ((sourceOf (chainWords first items)).utf8ByteSize + 1)) (Nat.succ_pos _)
    first items htight (by
      show items.length < (sourceOf (chainWords first items)).utf8ByteSize + 1
      rw [chainWords]
      omega)
  have hgoes := (hgives.expression (by decide)) [] (by decide)
  rw [List.append_nil] at hgoes
  obtain ⟨node, hnodes, hnode, herrors⟩ :=
    parse_of_expression hwords config (.inl rfl) (.inl rfl) hgoes
  exact ⟨node, hnodes, herrors, hnode ▸ he.inOrder, hnode ▸ he.grouped⟩

/-- A comparison of a range test, with looser and tighter operators around it. -/
theorem chain_with_range_is_grouped :
    let items : List (Operator × String) :=
      [(.eqEq, "2"), (.lt, "3"), (.ltEq, "4"), (.minus, "5"), (.star, "6"), (.gt, "7"), (.orWord, "08")]
    let program := Program.parse (sourceOf (chainWords "1" items)) .standard
    ∃ node, program.nodes = [node] ∧ program.errors = [] ∧
      node.outline.inOrder = (chainWords "1" items).map Word.meaning ∧ node.outline.Grouped := by
  refine chain_is_grouped "1" _ ⟨⟨_, _, rfl, rfl, rfl⟩, by decide⟩ (fun i hi => ?_) .standard
  simp only [List.mem_cons, List.not_mem_nil, or_false] at hi
  rcases hi with rfl | rfl | rfl | rfl | rfl | rfl | rfl
  all_goals exact ⟨rfl, ⟨_, _, rfl, rfl, rfl⟩, by decide⟩

end SableFront
