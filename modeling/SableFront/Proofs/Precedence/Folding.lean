import SableFront.Proofs.Precedence.Grouping

/-!
# Precedence: the levels fold

A chain is an integer followed by items, each an infix operator with an integer after it. A level of
expressions *folds* if it reads every chain whose operators bind at least as tightly as the level and
gives a grouped outline of it. One level takes this over to the next looser one: its operands are
the longest chains of tighter operators (`Folds.level`). How an operator of the level joins its
operands is the only thing in which the relational level differs from the others (`Joins`).
-/

namespace SableFront.Grammar

/-- An infix operator and the integer after it. -/
abbrev Item := Operator × String

def itemWords (items : List Item) : List Word :=
  items.flatMap fun i => [.operator i.1, .numeral i.2]

/-- An integer and the items after it. -/
def chainWords (digits : String) (items : List Item) : List Word :=
  .numeral digits :: itemWords items

theorem itemWords_append (items more : List Item) :
    itemWords (items ++ more) = itemWords items ++ itemWords more := List.flatMap_append

variable {r : Rules} {P P' : Nat} {cls : Operator.Class} {next : Production (Option Node)}
  {combine : Node → Token → Node → Production Node} {items : List Item} {rounds : Nat}

/-- All operators are infix ones that bind so tightly. -/
def Tight (P : Nat) (items : List Item) : Prop := ∀ i ∈ items, i.1.isInfix ∧ P ≤ i.1.precedence

/-- If an item comes next, then with an operator of the class. -/
def HeadOf (cls : Operator.Class) (items : List Item) : Prop := ∀ i ∈ items.head?, i.1.opClass = cls

/-- The production reads every chain of so tight operators and groups it. -/
def Folds (rounds P : Nat) (p : Production (Option Node)) : Prop :=
  ∀ digits items, Tight P items → items.length < rounds →
    ∃ e, Folded P e (chainWords digits items) ∧ Gives P p (chainWords digits items) e

/-- Only operators of the class bind as tightly as the class, but not as tightly as `P'`. -/
structure Adjacent (cls : Operator.Class) (P' : Nat) : Prop where
  lt : cls.precedence < P'
  split : ∀ o : Operator, o.isInfix → cls.precedence ≤ o.precedence →
    o.opClass = cls ∨ P' ≤ o.precedence
  infix_class : cls ≠ .invert ∧ cls ≠ .incDec ∧ cls ≠ .assignment

/-- How tightly the operands of a class of infix operators bind. -/
def tighter : Operator.Class → Nat
  | .logical => 30
  | .relational => 40
  | .bitwise => 50
  | .shift => 60
  | .additive => 70
  | _ => 80

/-- Between a class and its operands there is no other operator. -/
theorem adjacent_tighter (cls : Operator.Class)
    (h : cls ≠ .invert ∧ cls ≠ .incDec ∧ cls ≠ .assignment) : Adjacent cls (tighter cls) := by
  obtain ⟨hinvert, hincDec, hassignment⟩ := h
  refine ⟨?_, fun o => ?_, hinvert, hincDec, hassignment⟩
  · cases cls <;> first | decide | contradiction
  · cases cls <;> first | contradiction | (cases o <;> decide)

/-! ### Splitting a chain -/

/-- The longest chain of tighter operators at the start, and what follows it. -/
theorem exists_split (h : Adjacent cls P') (hitems : Tight cls.precedence items) :
    ∃ tight more, items = tight ++ more ∧ Tight P' tight ∧ HeadOf cls more := by
  induction items with
  | nil => exact ⟨[], [], rfl, fun i hi => absurd hi List.not_mem_nil,
      fun i hi => absurd hi (Option.not_mem_none i)⟩
  | cons i items ih =>
    have hi := hitems i List.mem_cons_self
    rcases h.split i.1 hi.1 hi.2 with hcls | hP
    · refine ⟨[], i :: items, rfl, fun j hj => absurd hj List.not_mem_nil, fun j hj => ?_⟩
      cases hj
      exact hcls
    · obtain ⟨tight, more, heq, htight, hmore⟩ :=
        ih fun j hj => hitems j (List.mem_cons_of_mem i hj)
      refine ⟨i :: tight, more, by rw [heq]; rfl, fun j hj => ?_, hmore⟩
      rcases List.mem_cons.mp hj with rfl | hj
      · exact ⟨hi.1, hP⟩
      · exact htight j hj

/-- What follows the items pulls less than `P'` if items of the class do. -/
theorem pull_lt (h : Adjacent cls P') (hitems : Tight cls.precedence items)
    (hhead : HeadOf cls items) {rest : List Word} (hrest : (Word.kindAt rest).pull < cls.precedence) :
    (Word.kindAt (itemWords items ++ rest)).pull < P' := by
  cases items with
  | nil => exact Nat.lt_trans hrest h.lt
  | cons i items =>
    show (Kind.operator i.1).pull < P'
    rw [Operator.pull_eq (hitems i List.mem_cons_self).1, Operator.precedence, hhead i rfl]
    exact h.lt

/-! ### One level -/

/-- An operator of the class joins what stands to its left and the operand after it to a grouped
outline, perhaps with the items `used` of those that follow. -/
def Joins (rounds : Nat) (cls : Operator.Class) (combine : Node → Token → Node → Production Node) :
    Prop :=
  ∀ ⦃op l m ws vs items⦄, op.opClass = cls → l.pairsWith op = false →
    Folded cls.precedence l ws → Folded (cls.precedence + 1) m vs →
    Tight cls.precedence items → HeadOf cls items → items.length < rounds →
    ∃ e used more, items = used ++ more ∧ HeadOf cls more ∧
      Folded cls.precedence e (ws ++ .operator op :: vs ++ itemWords used) ∧
      (∀ i ∈ more.head?, e.pairsWith i.1 = false) ∧
      ∀ rest, (Word.kindAt rest).pull < cls.precedence → ∀ left t right, left.outline = l →
        IsToken (.operator op) t → right.outline = m →
        Goes (combine left t right) (itemWords items ++ rest) (itemWords more ++ rest)
          (·.outline = e)

theorem itemWords_cons (op : Operator) (digits : String) (tight more : List Item) :
    itemWords ((op, digits) :: (tight ++ more)) =
      .operator op :: chainWords digits tight ++ itemWords more := by
  rw [chainWords, ← List.cons_append, itemWords_append]
  rfl

/-- The rounds of a level take all operators of its class. -/
theorem Folds.loop (hnext : Folds rounds P' next) (hadj : Adjacent cls P')
    (hjoins : Joins rounds cls combine) {k : Nat} {l : Outline} {ws : List Word}
    (hl : Folded cls.precedence l ws) (hitems : Tight cls.precedence items)
    (hhead : HeadOf cls items) (hpair : ∀ i ∈ items.head?, l.pairsWith i.1 = false)
    (hlength : items.length < k) (hk : k ≤ rounds) :
    ∃ e, Folded cls.precedence e (ws ++ itemWords items) ∧
      ∀ rest, (Word.kindAt rest).pull < cls.precedence → ∀ left, left.outline = l →
        Goes (loop (operatorRound cls next combine) k left) (itemWords items ++ rest) rest
          (·.outline = e) := by
  induction k generalizing items l ws with
  | zero => exact absurd hlength (Nat.not_lt_zero _)
  | succ k ih =>
    cases items with
    | nil =>
      refine ⟨l, by rwa [itemWords, List.flatMap_nil, List.append_nil], fun rest hrest left hleft => ?_⟩
      have hstop : Goes (operatorRound cls next combine left) rest rest (· = .inr left) :=
        goes_operatorRound_stop hadj.infix_class.1 hrest left
      exact Leads.loop_last (hstop.mono fun found hfound => ⟨left, hfound, hleft⟩)
    | cons i items =>
      obtain ⟨op, digits⟩ := i
      -- the operand is the longest chain of tighter operators
      have hrest : Tight cls.precedence items := fun i hi => hitems i (List.mem_cons_of_mem _ hi)
      obtain ⟨tight, others, rfl, htight, hothers⟩ := exists_split hadj hrest
      rw [List.length_cons, List.length_append] at hlength
      obtain ⟨m, hm, hgives⟩ := hnext digits tight htight (by omega)
      have hmore : Tight cls.precedence others := fun i hi => hrest i (List.mem_append_right _ hi)
      obtain ⟨e₁, used, more, rfl, hmoreHead, he₁, hmorePair, hcombine⟩ :=
        hjoins (hhead _ rfl) (hpair _ rfl) hl (hm.mono hadj.lt) hmore hothers (by omega)
      rw [List.length_append] at hlength
      obtain ⟨e, he, hloop⟩ := ih he₁ (fun i hi => hmore i (List.mem_append_right _ hi)) hmoreHead
        hmorePair (by omega) (by omega)
      refine ⟨e, ?_, fun rest hpull left hleft => ?_⟩
      · rw [itemWords_cons, itemWords_append]
        simpa only [List.append_assoc, List.cons_append] using he
      · have hoperand := hgives (itemWords (used ++ more) ++ rest) (pull_lt hadj hmore hothers hpull)
        have hround := goes_operatorRound_next (hhead _ rfl) hoperand fun t right ht hright =>
          hcombine rest hpull left t right hleft ht hright
        rw [itemWords_cons, List.append_assoc]
        exact Leads.loop_next hround fun node hnode => hloop rest hpull node hnode

/-- **One level folds** if the next tighter one does. -/
theorem Folds.level (hnext : Folds rounds P' next) (hadj : Adjacent cls P')
    (hjoins : Joins rounds cls combine) :
    Folds rounds cls.precedence (level rounds cls next combine) := by
  intro digits items hitems hlength
  obtain ⟨tight, more, rfl, htight, hmore⟩ := exists_split hadj hitems
  rw [List.length_append] at hlength
  obtain ⟨l, hl, hgives⟩ := hnext digits tight htight (by omega)
  have hmoreTight : Tight cls.precedence more := fun i hi => hitems i (List.mem_append_right _ hi)
  have hpair : ∀ i ∈ more.head?, l.pairsWith i.1 = false := by
    refine fun i hi => Outline.pairsWith_eq_false_of_lt fun o ho => ?_
    rw [Operator.precedence, hmore i hi]
    exact Nat.lt_of_lt_of_le hadj.lt (hl.tight o ho)
  obtain ⟨e, he, hloop⟩ := hnext.loop hadj hjoins (hl.mono (Nat.le_of_lt hadj.lt)) hmoreTight hmore
    hpair (by omega) (Nat.le_refl rounds)
  have hwords : chainWords digits (tight ++ more) = chainWords digits tight ++ itemWords more := by
    rw [chainWords, itemWords_append]
    rfl
  refine ⟨e, by rwa [hwords], fun rest hrest => ?_⟩
  rw [hwords, List.append_assoc]
  refine (hgives _ (pull_lt hadj hmoreTight hmore hrest)).bind fun found hfound => ?_
  obtain ⟨left, rfl, hleft⟩ := hfound
  exact .map ((hloop rest hrest left hleft).mono fun node hnode => ⟨node, rfl, hnode⟩)

/-- Operators that are no orderings join two operands. -/
theorem joins_binary (hcls : cls ≠ .relational) : Joins rounds cls binary := by
  intro op l m ws vs items hop hpair hl hm hitems hhead hlength
  refine ⟨.binary op l m, [], items, rfl, hhead, ?_, fun i hi => ?_, ?_⟩
  · rw [itemWords, List.flatMap_nil, List.append_nil]
    exact hl.binary hm (by rw [Operator.precedence, hop]) hpair
  · rw [Bool.eq_false_iff]
    intro hpairs
    have hi := hhead i hi
    rw [Operator.opClass_of_isOrdering (Outline.isOrdering_of_pairsWith hpairs).1] at hi
    exact hcls hi.symm
  · rintro rest hrest left t right rfl ht rfl
    exact goes_binary ht

/-- A comparison joins two operands, and a third one if a second ordering operator pairs with the
first. -/
theorem joins_comparison (hnext : Folds r.rounds P' (bitwise r)) (hadj : Adjacent .relational P') :
    Joins r.rounds .relational (comparison r) := by
  intro op l m ws vs items hop hpair hl hm hitems hhead hlength
  have hprec : op.precedence = Operator.Class.precedence .relational := by
    rw [Operator.precedence, hop]
  by_cases hchains : chains (.operator op) (Word.kindAt (itemWords items))
  · cases items with
    | nil => cases hchains
    | cons i items =>
      obtain ⟨second, digits⟩ := i
      have hsecond : second.precedence = Operator.Class.precedence .relational := by
        rw [Operator.precedence, hhead _ rfl]
      have hrest : Tight _ items := fun i hi => hitems i (List.mem_cons_of_mem _ hi)
      obtain ⟨tight, more, rfl, htight, hmore⟩ := exists_split hadj hrest
      rw [List.length_cons, List.length_append] at hlength
      obtain ⟨u, hu, hgives⟩ := hnext digits tight htight (by omega)
      have hmoreTight : Tight _ more := fun i hi => hrest i (List.mem_append_right _ hi)
      refine ⟨.between op second l m u, (second, digits) :: tight, more, rfl, hmore, ?_,
        fun i hi => rfl, ?_⟩
      · have hwords : itemWords ((second, digits) :: tight) =
            .operator second :: chainWords digits tight := rfl
        rw [hwords]
        exact hl.between hm (hu.mono hadj.lt) hprec hsecond hchains hpair
      · rintro rest hpull left t right rfl ht rfl
        rw [itemWords_cons, List.append_assoc]
        exact goes_comparison_between ht hchains
          (hgives (itemWords more ++ rest) (pull_lt hadj hmoreTight hmore hpull))
  · refine ⟨.binary op l m, [], items, rfl, hhead, ?_, fun i hi => ?_, ?_⟩
    · rw [itemWords, List.flatMap_nil, List.append_nil]
      exact hl.binary hm hprec hpair
    · cases items with
      | nil => cases hi
      | cons j items =>
        cases hi
        exact Bool.eq_false_iff.mpr hchains
    · rintro rest hpull left t right rfl ht rfl
      refine goes_comparison_binary ht ?_
      cases items with
      | nil => exact chains_eq_false_of_pull hpull
      | cons i items => exact Bool.eq_false_iff.mpr hchains

/-! ### All levels -/

/-- Steps bind tighter than all infix operators, so a chain of operands for them is one integer. -/
theorem folds_steps (hr : 0 < r.rounds) : Folds r.rounds 80 (steps r) := by
  intro digits items hitems hlength
  have hnil : items = [] := by
    refine List.eq_nil_iff_forall_not_mem.mpr fun i hi => ?_
    obtain ⟨hbetween, hle⟩ := hitems i hi
    revert hbetween hle
    cases i.1 <;> decide
  subst hnil
  exact ⟨_, .numeral 80 digits, (values_numeral r digits).steps (noPrefix_cons rfl) hr⟩

theorem folds_bitwise (hr : 0 < r.rounds) : Folds r.rounds 40 (bitwise r) :=
  have hmultiplicative : Folds r.rounds 70 (multiplicative r) :=
    (folds_steps hr).level (adjacent_tighter .multiplicative (by decide)) (joins_binary (by decide))
  have hadditive : Folds r.rounds 60 (additive r) :=
    hmultiplicative.level (adjacent_tighter .additive (by decide)) (joins_binary (by decide))
  have hshift : Folds r.rounds 50 (shift r) :=
    hadditive.level (adjacent_tighter .shift (by decide)) (joins_binary (by decide))
  hshift.level (adjacent_tighter .bitwise (by decide)) (joins_binary (by decide))

/-- **The loosest level folds**, so every chain is grouped. -/
theorem folds_logical (hr : 0 < r.rounds) : Folds r.rounds 10 (logical r) :=
  have hadjacent : Adjacent .relational 40 := adjacent_tighter .relational (by decide)
  have hrelational : Folds r.rounds 30 (relational r) :=
    (folds_bitwise hr).level hadjacent (joins_comparison (folds_bitwise hr) hadjacent)
  hrelational.level (adjacent_tighter .logical (by decide)) (joins_binary (by decide))

end SableFront.Grammar
