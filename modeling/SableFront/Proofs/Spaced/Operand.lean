import SableFront.Grammar.Expression
import SableFront.Proofs.Outline
import SableFront.Proofs.Spaced.State
import SableFront.Vocabulary.BuiltinType

/-!
# Spaced text: values and the levels above them

How far a level of expressions reads is decided by what follows. Each kind of token pulls on the
expression before it with some strength: an infix operator with its precedence, an opening
parenthesis or bracket and a dot the most, and what cannot continue an expression not at all. A
production *gives* an outline at a strength if it does so before whatever pulls less.

A value that gives an outline gives it at every level, as long as what follows pulls less than the
level (`Values.expression`).
-/

namespace SableFront

/-- How strongly a token pulls on the expression before it. -/
def Kind.pull : Kind → Nat
  | .operator o => if o.fixity = .before then 0 else o.precedence
  | .punctuation .lParen | .punctuation .lBracket | .punctuation .dot => 100
  | _ => 0

/-- The token is an operator if it stands before an operand. -/
def Kind.isPrefix (k : Kind) : Bool :=
  Grammar.inverts k || k == .operator .star || k.opClass? == some .incDec

theorem Kind.opClass?_ne_of_pull {k : Kind} {cls : Operator.Class} (hcls : cls ≠ .invert)
    (h : k.pull < cls.precedence) : (k.opClass? == some cls) = false := by
  rw [beq_eq_false_iff_ne]
  intro hk
  cases k with
  | operator o =>
    have ho : o.opClass = cls := Option.some.inj hk
    have hfix : o.fixity ≠ .before := by
      unfold Operator.fixity
      rw [ho]
      cases cls <;> first | exact fun h => absurd h (by decide) | exact absurd rfl hcls
    rw [pull, if_neg hfix, Operator.precedence, ho] at h
    exact absurd h (Nat.lt_irrefl _)
  | _ => cases hk

/-- The operator stands between two operands and makes a value of them. -/
def Operator.isInfix (o : Operator) : Bool := o.fixity == .between && o.opClass != .assignment

theorem Operator.pull_eq {o : Operator} (h : o.isInfix) : (Kind.operator o).pull = o.precedence := by
  revert h
  cases o <;> decide

theorem Operator.opClass_of_isOrdering {o : Operator} (h : o.isOrdering) :
    o.opClass = .relational := by
  revert h
  cases o <;> decide

/-- The name means nothing at the start of a program. -/
def IsUnbound (s : String) : Prop := ∀ b : BuiltinType, b.spelling ≠ s

theorem find_initial {s : String} (h : IsUnbound s) : SymbolTable.initial.find s = none := by
  have hcurrent : SymbolTable.initial.current = 0 := by decide +kernel
  have hscope : (SymbolTable.initial.scope? 0).map (fun s => (s.parent, s.bindings.all fun b =>
      BuiltinType.all.any fun t => t.spelling == b.1)) = some (none, true) := by decide +kernel
  obtain ⟨scope, hfound, hdata⟩ := Option.map_eq_some_iff.mp hscope
  obtain ⟨hparent, hbindings⟩ := Prod.mk.inj hdata
  have hnone : scope.get? s = none := by
    refine List.lookup_eq_none_iff.mpr fun b hb => ?_
    obtain ⟨t, -, ht⟩ := List.any_eq_true.mp (List.all_eq_true.mp hbindings b hb)
    rw [bne_iff_ne, ← beq_iff_eq.mp ht]
    exact (h t).symm
  rw [SymbolTable.find, hcurrent, SymbolTable.findFrom, hfound]
  simp only [hnone, hparent]

namespace Grammar

variable {r : Rules} {w : Word} {ws mid rest : List Word} {e : Outline} {n P : Nat}

/-- A node with the outline is there. -/
def IsNode (e : Outline) (r : Option Node) : Prop := ∃ n, r = some n ∧ n.outline = e

/-- Before what pulls less than `P` the words give the outline. -/
def Gives (P : Nat) (p : Production (Option Node)) (ws : List Word) (e : Outline) : Prop :=
  ∀ rest, (Word.kindAt rest).pull < P → Goes p (ws ++ rest) rest (IsNode e)

/-- The words are a value, whatever follows. -/
def Values (r : Rules) (ws : List Word) (e : Outline) : Prop :=
  ∀ rest, Goes (value r) (ws ++ rest) rest (IsNode e)

/-- There is a first word, and it is no operator before an operand. -/
def NoPrefix (ws : List Word) : Prop := ∀ rest, (Word.kindAt (ws ++ rest)).isPrefix = false

theorem noPrefix_cons (h : w.kind.isPrefix = false) : NoPrefix (w :: ws) := fun _ => h

/-! ### Values -/

theorem goes_value {Q : Option Node → Prop} (h : Goes (valueAt r (Word.kindAt ws)) ws rest Q) :
    Goes (value r) ws rest Q := by
  refine goes_get.bind fun s hs => ?_
  rw [hs.lookaside]
  dsimp only
  rw [hs.kind]
  exact h

theorem values_literal (hw : valueAt r w.kind = (some ∘ Node.ofLiteral) <$> advance)
    (he : ∀ t, IsToken w t → (Node.ofLiteral t).outline = e) : Values r [w] e := by
  intro rest
  refine goes_value ?_
  show Goes (valueAt r w.kind) _ _ _
  rw [hw]
  exact .map (goes_advance.mono fun t ht => ⟨_, rfl, he t ht⟩)

theorem outline_ofLiteral (t : Token) : (Node.ofLiteral t).outline =
    .mk (NodeData.shape ⟨(Node.ofLiteral t).form, t, .point .origin, [], [], []⟩) [] :=
  Node.outline_build _ _ _ _ _

theorem values_numeral (r : Rules) (digits : String) :
    Values r [.numeral digits] (.int (Number.valueOf 10 digits.toList)) := by
  refine values_literal rfl fun t ht => ?_
  obtain ⟨kind, value, span, offset, size, width⟩ := t
  obtain ⟨rfl, rfl⟩ := ht
  exact outline_ofLiteral _

theorem values_int (r : Rules) (n : Nat) : Values r [.int n] (.int n) := by
  rw [Word.int_eq_numeral]
  have h := values_numeral r (toString n)
  rwa [Word.toList_toString, Number.valueOf_toDigits] at h

theorem values_bool (r : Rules) (b : Bool) : Values r [.bool b] (.mk (.bool b) []) := by
  refine values_literal rfl fun t ht => ?_
  obtain ⟨kind, value, span, offset, size, width⟩ := t
  obtain ⟨rfl, rfl⟩ := ht
  exact outline_ofLiteral _

theorem values_null (r : Rules) : Values r [.null] (.mk .null []) := by
  refine values_literal rfl fun t ht => ?_
  obtain ⟨kind, value, span, offset, size, width⟩ := t
  obtain ⟨rfl, rfl⟩ := ht
  exact outline_ofLiteral _

/-- A name that means nothing is a value, and no generic arguments are tried after it. -/
theorem values_name (r : Rules) {s : String} (hs : IsUnbound s) :
    Values r [.name s] (.name s) := by
  intro rest
  refine goes_value ?_
  show Goes (some <$> nameValue r) _ _ _
  refine .map (goes_get.bind fun state hstate => goes_advance.bind fun t ht => ?_)
  have hname : t.name? = some s := by
    unfold Token.name? Token.text?
    rw [ht.1, ht.2]
    rfl
  have hbound : state.bindName t = .name s t := by
    unfold State.bindName
    rw [hname, hstate.symbols]
    dsimp only
    rw [Option.getD_some, find_initial hs]
  have hgeneric : (typeOfName (.name s t)).isGenericCapable = false := by
    have htype : typeOfName (.name s t) = .unknown := rfl
    rw [htype]
    decide
  dsimp only
  rw [hbound, hgeneric]
  refine (goes_isAt _).bind fun opens hopens => ?_
  rw [Bool.and_false, Bool.false_and, if_neg Bool.false_ne_true]
  exact .pure ⟨_, rfl, Node.outline_build _ _ _ _ _⟩

/-! ### What follows a value, and operators with one operand -/

theorem goes_postfixRound_stop (h : (Word.kindAt ws).pull < 100) (node : Node) :
    Goes (postfixRound r node) ws ws (· = .inr node) := by
  refine goes_current.bind fun t ht => ?_
  rw [← ht] at h
  split
  · rename_i hk
    exact absurd h (by rw [hk]; decide)
  · rename_i hk
    exact absurd h (by rw [hk]; decide)
  · rename_i hk
    exact absurd h (by rw [hk]; decide)
  · exact .pure rfl

theorem Values.postfixed (h : Values r ws e) (hr : 0 < r.rounds) :
    Gives 100 (postfixed r) ws e := by
  intro rest hrest
  refine (h rest).bind fun found hfound => ?_
  obtain ⟨node, rfl, hnode⟩ := hfound
  obtain ⟨k, hk⟩ := Nat.exists_eq_add_one_of_ne_zero (Nat.ne_of_gt hr)
  rw [hk]
  refine .map (Leads.loop_last ((goes_postfixRound_stop hrest node).mono fun found hfound => ?_))
  exact ⟨node, hfound, node, rfl, hnode⟩

theorem goes_operatorBefore_none {accepts : Kind → Bool} (h : accepts (Word.kindAt ws) = false) :
    Goes (operatorBefore accepts) ws ws (· = none) := by
  intro s hs
  have hnone := outcome_operatorBefore s accepts
  rw [hs.kind, h, Bool.and_false, if_neg Bool.false_ne_true] at hnone
  exact .result _ _ hnone hnone ⟨rfl, hs⟩

theorem goes_operatorBefore {accepts : Kind → Bool} (h : accepts w.kind) :
    Goes (operatorBefore accepts) (w :: ws) ws fun found => ∃ t, found = some t ∧ IsToken w t := by
  intro s hs
  have hsome := outcome_operatorBefore s accepts
  have hkind : s.current.kind = w.kind := hs.kind
  rw [hs.lookaside, hkind, h, if_pos (by rfl)] at hsome
  exact .result _ _ hsome hsome ⟨⟨_, rfl, hkind, hs.value w rfl⟩, hs.advance⟩

/-- Without an operator in front, what binds tighter is read. -/
theorem Goes.orAfter {accepts : Kind → Bool} {operand' tighter : Production (Option Node)}
    {form : Form} {Q : Option Node → Prop} (h : Goes tighter ws rest Q)
    (hws : accepts (Word.kindAt ws) = false) :
    Goes (do
      match ← operatorBefore accepts with
      | some op => return some (.branch form op [← Grammar.operand operand'])
      | none => tighter) ws rest Q := by
  refine (goes_operatorBefore_none hws).bind fun found hfound => ?_
  subst hfound
  exact h

theorem isPrefix_parts {k : Kind} (h : k.isPrefix = false) :
    inverts k = false ∧ (k == .operator .star) = false ∧ (k.opClass? == some .incDec) = false := by
  rw [Kind.isPrefix, Bool.or_eq_false_iff, Bool.or_eq_false_iff] at h
  exact ⟨h.1.1, h.1.2, h.2⟩

theorem Gives.invert (h : Gives P (postfixed r) ws e)
    (hws : ∀ rest, inverts (Word.kindAt (ws ++ rest)) = false) : Gives P (Grammar.invert r) ws e :=
  fun rest hrest => (h rest hrest).orAfter (hws rest)

theorem Gives.deref (h : Gives P (Grammar.invert r) ws e)
    (hws : ∀ rest, (Word.kindAt (ws ++ rest) == .operator .star) = false) :
    Gives P (deref r) ws e := fun rest hrest => (h rest hrest).orAfter (hws rest)

theorem goes_stepRound_stop (h : (Word.kindAt ws).pull < 80) (node : Node) :
    Goes (stepRound node) ws ws (· = .inr node) := by
  refine goes_get.bind fun s hs => ?_
  have hclass : s.current.isOfClass .incDec = false := by
    rw [Token.isOfClass, hs.kind]
    exact Kind.opClass?_ne_of_pull (by decide) h
  rw [hclass, Bool.false_and, if_neg Bool.false_ne_true]
  exact .pure rfl

theorem Gives.steps (h : Gives P (Grammar.deref r) ws e) (hP : 80 ≤ P)
    (hws : ∀ rest, ((Word.kindAt (ws ++ rest)).opClass? == some .incDec) = false)
    (hr : 0 < r.rounds) : Gives 80 (steps r) ws e := by
  intro rest hrest
  refine Goes.orAfter ?_ (hws rest)
  refine (h rest (Nat.lt_of_lt_of_le hrest hP)).bind fun found hfound => ?_
  obtain ⟨node, rfl, hnode⟩ := hfound
  obtain ⟨k, hk⟩ := Nat.exists_eq_add_one_of_ne_zero (Nat.ne_of_gt hr)
  rw [hk]
  refine .map (Leads.loop_last ((goes_stepRound_stop hrest node).mono fun found hfound => ?_))
  exact ⟨node, hfound, node, rfl, hnode⟩

/-! ### Operators with two operands -/

variable {cls : Operator.Class} {next : Production (Option Node)}
  {combine : Node → Token → Node → Production Node}

theorem goes_operatorRound_stop (hcls : cls ≠ .invert)
    (h : (Word.kindAt ws).pull < cls.precedence) (left : Node) :
    Goes (operatorRound cls next combine left) ws ws (· = .inr left) := by
  refine goes_current.bind fun t ht => ?_
  have hclass : t.isOfClass cls = false := by
    rw [Token.isOfClass, ht]
    exact Kind.opClass?_ne_of_pull hcls h
  rw [hclass, if_neg Bool.false_ne_true]
  exact .pure rfl

/-- An operator of the class, the operand after it, and what is made of them. -/
theorem goes_operatorRound_next {op : Operator} (hop : op.opClass = cls)
    (hnext : Goes next ws mid (IsNode e)) {Q : Node → Prop} {left : Node}
    (hcombine : ∀ t right, IsToken (.operator op) t → right.outline = e →
      Goes (combine left t right) mid rest Q) :
    Goes (operatorRound cls next combine left) (.operator op :: ws) rest
      fun found => ∃ node, found = .inl node ∧ Q node := by
  refine goes_current.bind fun t ht => ?_
  have hclass : t.isOfClass cls = true := by
    rw [Token.isOfClass, ht, beq_iff_eq, ← hop]
    rfl
  rw [hclass, if_pos rfl]
  refine goes_advance.bind fun t ht => (Leads.operand hnext).bind fun right hright => ?_
  exact .map ((hcombine t right ht hright).mono fun node hnode => ⟨node, rfl, hnode⟩)

theorem outline_branch_binary {op : Operator} {left right : Node} {t : Token}
    (ht : IsToken (.operator op) t) : (Node.branch .binary t [left, right]).outline =
      .binary op left.outline right.outline := by
  rw [Node.branch, Node.outline_build]
  exact congrArg (fun kind => Outline.mk (.binary kind) _) ht.1

theorem isOrdering_of_chains {p q : Operator} (h : chains (.operator p) (.operator q)) :
    p.isOrdering ∧ q.isOrdering := by
  have hboth : p.isOrdering && q.isOrdering := (Bool.and_eq_true_iff.mp h).1
  rwa [Bool.and_eq_true] at hboth

/-- What pulls less than a comparison does not chain with one. -/
theorem chains_eq_false_of_pull {op : Operator} {k : Kind}
    (h : k.pull < Operator.Class.precedence .relational) : chains (.operator op) k = false := by
  rw [Bool.eq_false_iff]
  intro hchains
  cases k with
  | operator q =>
    have hq : q.isOrdering := (isOrdering_of_chains hchains).2
    revert h hq
    cases q <;> decide
  | _ => cases hchains

theorem outline_build_between {op second : Operator} {left right upper : Node} {t u : Token}
    {spans : List Span} (ht : IsToken (.operator op) t) (hu : IsToken (.operator second) u) :
    (Node.build .between t [left, right, upper] [u] spans).outline =
      .between op second left.outline right.outline upper.outline := by
  rw [Node.outline_build]
  have hkinds : Shape.between t.kind [u.kind] = .between (.operator op) [.operator second] := by
    rw [ht.1, hu.1]
    rfl
  exact congrArg (fun shape => Outline.mk shape _) hkinds

section Combining

variable {op second : Operator} {left right : Node} {t : Token}

theorem goes_binary (ht : IsToken (.operator op) t) :
    Goes (binary left t right) ws ws (·.outline = .binary op left.outline right.outline) :=
  .pure (outline_branch_binary ht)

/-- A comparison, if no operator follows that chains with its own. -/
theorem goes_comparison_binary (ht : IsToken (.operator op) t)
    (h : chains (.operator op) (Word.kindAt ws) = false) :
    Goes (comparison r left t right) ws ws
      (·.outline = .binary op left.outline right.outline) := by
  have hkind : t.kind = .operator op := ht.1
  refine goes_current.bind fun after hafter => ?_
  rw [hkind, hafter, h, if_neg Bool.false_ne_true]
  exact goes_binary ht

/-- A range test, if an operator follows that chains with the first one. -/
theorem goes_comparison_between (ht : IsToken (.operator op) t)
    (h : chains (.operator op) (.operator second)) (hupper : Goes (bitwise r) ws rest (IsNode e)) :
    Goes (comparison r left t right) (.operator second :: ws) rest
      (·.outline = .between op second left.outline right.outline e) := by
  have hkind : t.kind = .operator op := ht.1
  refine goes_current.bind fun after hafter => ?_
  have hkindAfter : after.kind = .operator second := hafter
  rw [hkind, hkindAfter, if_pos h]
  refine goes_advance.bind fun u hu => (Leads.operand hupper).bind fun upper houtline => ?_
  refine .pure ?_
  rw [outline_build_between ht hu, houtline]

end Combining

/-- Operands of the next level are read at this level too. -/
theorem Gives.level (h : Gives P next ws e) (cls : Operator.Class) (hcls : cls ≠ .invert)
    (hP : cls.precedence ≤ P) {rounds : Nat} (hr : 0 < rounds) :
    Gives cls.precedence (level rounds cls next combine) ws e := by
  intro rest hrest
  refine (h rest (Nat.lt_of_lt_of_le hrest hP)).bind fun found hfound => ?_
  obtain ⟨left, rfl, hleft⟩ := hfound
  obtain ⟨k, rfl⟩ := Nat.exists_eq_add_one_of_ne_zero (Nat.ne_of_gt hr)
  refine .map (Leads.loop_last ((goes_operatorRound_stop hcls hrest left).mono fun found hfound => ?_))
  exact ⟨left, hfound, left, rfl, hleft⟩

theorem Gives.expression (h : Gives P (logical r) ws e) (hP : 5 ≤ P) :
    Gives 5 (expression r) ws e := by
  intro rest hrest
  refine (h rest (Nat.lt_of_lt_of_le hrest hP)).bind fun found hfound => ?_
  obtain ⟨node, rfl, hnode⟩ := hfound
  refine goes_current.bind fun t ht => ?_
  have hclass : t.isOfClass .assignment = false := by
    rw [Token.isOfClass, ht]
    exact Kind.opClass?_ne_of_pull (by decide) hrest
  rw [hclass, if_neg Bool.false_ne_true]
  exact .pure ⟨node, rfl, hnode⟩

section Levels

variable (hr : 0 < r.rounds)

include hr

theorem Gives.multiplicative (h : Gives 80 (Grammar.steps r) ws e) :
    Gives 70 (Grammar.multiplicative r) ws e :=
  h.level .multiplicative (by decide) (by decide) hr

theorem Gives.additive (h : Gives 70 (Grammar.multiplicative r) ws e) :
    Gives 60 (Grammar.additive r) ws e :=
  h.level .additive (by decide) (by decide) hr

theorem Gives.shift (h : Gives 60 (Grammar.additive r) ws e) : Gives 50 (Grammar.shift r) ws e :=
  h.level .shift (by decide) (by decide) hr

theorem Gives.bitwise (h : Gives 50 (Grammar.shift r) ws e) : Gives 40 (Grammar.bitwise r) ws e :=
  h.level .bitwise (by decide) (by decide) hr

theorem Gives.relational (h : Gives 40 (Grammar.bitwise r) ws e) :
    Gives 30 (Grammar.relational r) ws e :=
  h.level .relational (by decide) (by decide) hr

theorem Gives.logical (h : Gives 30 (Grammar.relational r) ws e) :
    Gives 10 (Grammar.logical r) ws e :=
  h.level .logical (by decide) (by decide) hr

/-- What is given by steps is given between comparisons. -/
theorem Gives.ofStepsBitwise (h : Gives 80 (Grammar.steps r) ws e) :
    Gives 40 (Grammar.bitwise r) ws e :=
  .bitwise hr (.shift hr (.additive hr (.multiplicative hr h)))

/-- What is given by steps is given by all looser levels. -/
theorem Gives.ofSteps (h : Gives 80 (Grammar.steps r) ws e) : Gives 10 (Grammar.logical r) ws e :=
  .logical hr (.relational hr (.ofStepsBitwise hr h))

end Levels

/-! ### Values at all levels -/

theorem Gives.ofPostfixed (h : Gives 100 (Grammar.postfixed r) ws e) (hws : NoPrefix ws)
    (hr : 0 < r.rounds) : Gives 80 (Grammar.steps r) ws e := by
  have hinvert : Gives 100 (Grammar.invert r) ws e :=
    h.invert fun rest => (isPrefix_parts (hws rest)).1
  have hderef : Gives 100 (Grammar.deref r) ws e :=
    hinvert.deref fun rest => (isPrefix_parts (hws rest)).2.1
  exact hderef.steps (by decide) (fun rest => (isPrefix_parts (hws rest)).2.2) hr

theorem Values.steps (h : Values r ws e) (hws : NoPrefix ws) (hr : 0 < r.rounds) :
    Gives 80 (Grammar.steps r) ws e := (h.postfixed hr).ofPostfixed hws hr

/-- **A value is an expression**, if nothing after it pulls. -/
theorem Values.expression (h : Values r ws e) (hws : NoPrefix ws) (hr : 0 < r.rounds) :
    Gives 5 (Grammar.expression r) ws e := (Gives.ofSteps hr (h.steps hws hr)).expression (by decide)

end Grammar

end SableFront
