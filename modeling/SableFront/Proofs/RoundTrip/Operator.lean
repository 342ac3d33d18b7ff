import SableFront.Program
import SableFront.Proofs.RoundTrip.Rendering

/-!
# Round trip: operators

An operand is written as a literal, a name, or something in parentheses. So it is a value, whatever
follows it, and it does not start with an operator (`IsOperand`). Words *read as* an expression if
rules with a circle for each word read them so (`ReadsAs`). There is one lemma for each form with
operators: if its operands are written as operands, its words read as the form.
-/

namespace SableFront

/-- The kinds of the first words of operands. -/
def Kind.startsOperand : Kind → Bool
  | .int | .bool | .null | .ident | .punctuation .lParen => true
  | _ => false

theorem Kind.isPrefix_of_startsOperand {k : Kind} (h : k.startsOperand) : k.isPrefix = false := by
  cases k with
  | operator o => cases h
  | _ => rfl

namespace Grammar

variable {r : Rules} {w : Word} {ws vs us more rest : List Word} {a b c e : Outline} {n P : Nat}
  {op second : Operator} {cls : Operator.Class} {next : Production (Option Node)}
  {combine : Node → Token → Node → Production Node}

/-- With a circle for each word, the words are read as the expression. -/
def ReadsAs (ws : List Word) (e : Outline) : Prop :=
  ∀ n, ws.length ≤ n → Gives 5 (expression (rules n)) ws e

/-- The words are an operand that gives the outline. -/
structure IsOperand (ws : List Word) (e : Outline) : Prop where
  starts : ∀ rest, (Word.kindAt (ws ++ rest)).startsOperand
  values : ∀ n, ws.length ≤ n → Values (rules n) ws e

theorem rounds_rules (n : Nat) : (rules n).rounds = n := by
  cases n <;> rfl

namespace IsOperand

theorem length_pos (h : IsOperand ws e) : 0 < ws.length := by
  cases ws with
  | nil => cases h.starts []
  | cons w ws => exact Nat.succ_pos _

theorem noPrefix (h : IsOperand ws e) : NoPrefix ws :=
  fun rest => Kind.isPrefix_of_startsOperand (h.starts rest)

theorem rounds_pos (h : IsOperand ws e) (hn : ws.length ≤ n) : 0 < (rules n).rounds := by
  have hpos := h.length_pos
  rw [rounds_rules]
  omega

theorem postfixed (h : IsOperand ws e) (hn : ws.length ≤ n) :
    Gives 100 (postfixed (rules n)) ws e := (h.values n hn).postfixed (h.rounds_pos hn)

theorem invert (h : IsOperand ws e) (hn : ws.length ≤ n) : Gives 100 (invert (rules n)) ws e :=
  (h.postfixed hn).invert fun rest => (isPrefix_parts (h.noPrefix rest)).1

theorem deref (h : IsOperand ws e) (hn : ws.length ≤ n) : Gives 100 (deref (rules n)) ws e :=
  (h.invert hn).deref fun rest => (isPrefix_parts (h.noPrefix rest)).2.1

theorem steps (h : IsOperand ws e) (hn : ws.length ≤ n) : Gives 80 (steps (rules n)) ws e :=
  (h.values n hn).steps h.noPrefix (h.rounds_pos hn)

theorem logical (h : IsOperand ws e) (hn : ws.length ≤ n) : Gives 10 (logical (rules n)) ws e :=
  .ofSteps (h.rounds_pos hn) (h.steps hn)

theorem reads (h : IsOperand ws e) : ReadsAs ws e :=
  fun n hn => (h.values n hn).expression h.noPrefix (h.rounds_pos hn)

/-- A word that is a value and that operands may start with is an operand. -/
theorem word (hw : w.kind.startsOperand) (h : ∀ r, Values r [w] e) : IsOperand [w] e :=
  ⟨fun _ => hw, fun n _ => h (rules n)⟩

end IsOperand

/-- An expression in parentheses is an operand. -/
theorem ReadsAs.parens (h : ReadsAs ws e) :
    IsOperand (inParens ws) e := by
  refine ⟨fun rest => rfl, fun n hn rest => ?_⟩
  rw [inParens, List.cons_append, List.length_cons, List.length_append, List.length_singleton] at hn
  obtain ⟨m, rfl⟩ := Nat.exists_eq_add_of_le' (Nat.le_trans (Nat.le_add_left 1 _) hn)
  have hinner : Gives 5 (rules (m + 1)).expression ws e := h m (by omega)
  have hparens : Goes (parenthesized (rules (m + 1)))
      (.mark .lParen :: ws ++ [.mark .rParen] ++ rest) rest (·.outline = e) := by
    have hclose : (Kind.punctuation .rParen).pull < 5 := by decide
    rw [List.append_assoc, List.cons_append, List.singleton_append]
    refine goes_advance.bind fun paren _ => ?_
    refine (Leads.require (hinner (.mark .rParen :: rest) hclose) _).bind fun node hnode => ?_
    refine (goes_expect (w := .mark .rParen) rfl _).bind fun close _ => ?_
    refine .pure ?_
    rw [Node.outline_cover, hnode]
  exact goes_value (.map (hparens.mono fun node hnode => ⟨node, rfl, hnode⟩))

/-! ### Operators with two operands -/

/-- Between two operands of the next level, one operator of the class, with what it takes in. -/
theorem gives_levelOnce {rounds : Nat} (hr : 1 < rounds) (hbetween : op.isInfix)
    (hop : op.opClass = cls) (hP : cls.precedence < P) (hleft : Gives P next ws a)
    (hright : Gives P next vs b)
    (hmore : ∀ rest, (Word.kindAt rest).pull < cls.precedence →
      (Word.kindAt (more ++ rest)).pull < P)
    (hcombine : ∀ rest, (Word.kindAt rest).pull < cls.precedence → ∀ left t right,
      left.outline = a → IsToken (.operator op) t → right.outline = b →
      Goes (combine left t right) (more ++ rest) rest (·.outline = e)) :
    Gives cls.precedence (level rounds cls next combine) (ws ++ .operator op :: (vs ++ more)) e := by
  intro rest hrest
  have hpull : (Kind.operator op).pull = cls.precedence := by
    rw [Operator.pull_eq hbetween, Operator.precedence, hop]
  have hcls : cls ≠ .invert := by
    rintro rfl
    rw [Operator.isInfix, Operator.fixity, hop] at hbetween
    cases hbetween
  rw [List.append_assoc, List.cons_append, List.append_assoc]
  refine (hleft (.operator op :: (vs ++ (more ++ rest))) (hpull ▸ hP)).bind fun found hfound => ?_
  obtain ⟨left, rfl, hleft⟩ := hfound
  obtain ⟨k, rfl⟩ := Nat.exists_eq_add_of_le' hr
  have hround := goes_operatorRound_next hop (hright (more ++ rest) (hmore rest hrest))
    fun t right ht hright => hcombine rest hrest left t right hleft ht hright
  refine .map (Leads.loop_next hround fun node hnode => ?_)
  have hstop : Goes (operatorRound cls next combine node) rest rest (· = .inr node) :=
    goes_operatorRound_stop hcls hrest node
  exact Leads.loop_last (hstop.mono fun found hfound => ⟨node, hfound, node, rfl, hnode⟩)

/-- An operator that is no comparison. -/
theorem gives_levelBinary {rounds : Nat} (hr : 1 < rounds) (hbetween : op.isInfix)
    (hop : op.opClass = cls) (hP : cls.precedence < P) (hleft : Gives P next ws a)
    (hright : Gives P next vs b) :
    Gives cls.precedence (level rounds cls next binary) (ws ++ .operator op :: vs)
      (.binary op a b) := by
  have h : Gives cls.precedence (level rounds cls next binary) (ws ++ .operator op :: (vs ++ []))
      (.binary op a b) := by
    refine gives_levelOnce hr hbetween hop hP hleft hright
      (fun rest hrest => Nat.lt_trans hrest hP) ?_
    rintro rest hrest left t right rfl ht rfl
    exact goes_binary ht
  rwa [List.append_nil] at h

theorem isInfix_of_relational (hop : op.opClass = .relational) : op.isInfix := by
  rw [Operator.isInfix, Operator.fixity, hop]
  rfl

/-- A comparison, with nothing after it that makes it a range test. -/
theorem gives_comparison (hr : 1 < r.rounds) (hop : op.opClass = .relational)
    (hleft : Gives 40 (bitwise r) ws a) (hright : Gives 40 (bitwise r) vs b) :
    Gives 30 (relational r) (ws ++ .operator op :: vs) (.binary op a b) := by
  have h : Gives 30 (relational r) (ws ++ .operator op :: (vs ++ [])) (.binary op a b) := by
    refine gives_levelOnce hr (isInfix_of_relational hop) hop (by decide) hleft hright
      (fun rest hrest => Nat.lt_trans hrest (by decide)) ?_
    rintro rest hrest left t right rfl ht rfl
    exact goes_comparison_binary ht (chains_eq_false_of_pull hrest)
  rwa [List.append_nil] at h

/-- A range test. -/
theorem gives_between (hr : 1 < r.rounds) (hops : chains (.operator op) (.operator second))
    (hlower : Gives 40 (bitwise r) ws a) (hvalue : Gives 40 (bitwise r) vs b)
    (hupper : Gives 40 (bitwise r) us c) :
    Gives 30 (relational r) (ws ++ .operator op :: (vs ++ .operator second :: us))
      (.between op second a b c) := by
  obtain ⟨hordering, hsecondOrdering⟩ := isOrdering_of_chains hops
  have hop : op.opClass = .relational := Operator.opClass_of_isOrdering hordering
  have hsecond : (Kind.operator second).pull = 30 := by
    have hclass := Operator.opClass_of_isOrdering hsecondOrdering
    rw [Operator.pull_eq (isInfix_of_relational hclass), Operator.precedence, hclass]
    rfl
  have hmore (rest : List Word) : (Word.kindAt (.operator second :: us ++ rest)).pull < 40 := by
    show (Kind.operator second).pull < 40
    rw [hsecond]
    decide
  refine gives_levelOnce hr (isInfix_of_relational hop) hop (by decide) hlower hvalue
    (fun rest _ => hmore rest) ?_
  rintro rest hrest left t right rfl ht rfl
  exact goes_comparison_between ht hops (hupper rest (Nat.lt_trans hrest (by decide)))

/-- An infix operator between two operands of the tightest level. -/
theorem gives_binary (hr : 1 < r.rounds) (hop : op.isInfix) (hleft : Gives 80 (steps r) ws a)
    (hright : Gives 80 (steps r) vs b) :
    Gives 10 (logical r) (ws ++ .operator op :: vs) (.binary op a b) := by
  have hpos : 0 < r.rounds := Nat.lt_of_succ_lt hr
  cases hclass : op.opClass with
  | multiplicative =>
    have h := gives_levelBinary hr hop hclass (by decide) hleft hright
    exact .logical hpos (.relational hpos (.bitwise hpos (.shift hpos (.additive hpos h))))
  | additive =>
    have h := gives_levelBinary hr hop hclass (by decide) (hleft.multiplicative hpos)
      (hright.multiplicative hpos)
    exact .logical hpos (.relational hpos (.bitwise hpos (.shift hpos h)))
  | shift =>
    have hadditive {vs : List Word} {c : Outline} (h : Gives 80 (steps r) vs c) :
        Gives 60 (additive r) vs c := (h.multiplicative hpos).additive hpos
    have h := gives_levelBinary hr hop hclass (by decide) (hadditive hleft) (hadditive hright)
    exact .logical hpos (.relational hpos (.bitwise hpos h))
  | bitwise =>
    have hshift {vs : List Word} {c : Outline} (h : Gives 80 (steps r) vs c) :
        Gives 50 (shift r) vs c := ((h.multiplicative hpos).additive hpos).shift hpos
    have h := gives_levelBinary hr hop hclass (by decide) (hshift hleft) (hshift hright)
    exact .logical hpos (.relational hpos h)
  | relational =>
    exact .logical hpos (gives_comparison hr hclass (hleft.ofStepsBitwise hpos)
      (hright.ofStepsBitwise hpos))
  | logical =>
    exact gives_levelBinary hr hop hclass (by decide) ((hleft.ofStepsBitwise hpos).relational hpos)
      ((hright.ofStepsBitwise hpos).relational hpos)
  | assignment =>
    rw [Operator.isInfix, hclass, Bool.and_eq_true] at hop
    exact absurd hop.2 (by decide)
  | incDec =>
    rw [Operator.isInfix, Operator.fixity, hclass] at hop
    cases hop
  | invert =>
    rw [Operator.isInfix, Operator.fixity, hclass] at hop
    cases hop

theorem reads_binary (hop : op.isInfix) (hleft : IsOperand ws a) (hright : IsOperand vs b) :
    ReadsAs (ws ++ .operator op :: vs) (.binary op a b) := by
  intro n hn
  rw [List.length_append, List.length_cons] at hn
  have hr : 1 < (rules n).rounds := by
    have hpos := hleft.length_pos
    rw [rounds_rules]
    omega
  have h := gives_binary hr hop (hleft.steps (n := n) (by omega)) (hright.steps (by omega))
  exact h.expression (by decide)

theorem reads_between (hops : chains (.operator op) (.operator second)) (hlower : IsOperand ws a)
    (hvalue : IsOperand vs b) (hupper : IsOperand us c) :
    ReadsAs (ws ++ .operator op :: (vs ++ .operator second :: us)) (.between op second a b c) := by
  intro n hn
  rw [List.length_append, List.length_cons, List.length_append, List.length_cons] at hn
  have hr : 1 < (rules n).rounds := by
    rw [rounds_rules]
    omega
  have hpos : 0 < (rules n).rounds := Nat.lt_of_succ_lt hr
  have h := gives_between hr hops ((hlower.steps (by omega)).ofStepsBitwise hpos)
    ((hvalue.steps (by omega)).ofStepsBitwise hpos) ((hupper.steps (by omega)).ofStepsBitwise hpos)
  exact (h.logical hpos).expression (by decide)

/-! ### Operators before or after an operand -/

theorem outline_branch_unary (form : Form) (t : Token) (n : Node) :
    (Node.branch form t [n]).outline =
      .mk (NodeData.shape ⟨form, t, .point .origin, [], [], []⟩) [n.outline] :=
  Node.outline_build _ _ _ _ _

/-- An operator and the operand after it. -/
theorem Gives.afterOperator {accepts : Kind → Bool} {operand' tighter : Production (Option Node)}
    {form : Form} {shape : Shape} (hop : accepts (.operator op))
    (hshape : ∀ t, IsToken (.operator op) t →
      NodeData.shape ⟨form, t, .point .origin, [], [], []⟩ = shape)
    (h : Gives P operand' ws a) :
    Gives P (do
      match ← operatorBefore accepts with
      | some op => return some (.branch form op [← operand operand'])
      | none => tighter) (.operator op :: ws) (.mk shape [a]) := by
  intro rest hrest
  refine (goes_operatorBefore (w := .operator op) hop).bind fun found hfound => ?_
  obtain ⟨t, rfl, ht⟩ := hfound
  refine (Leads.operand (h rest hrest)).bind fun node hnode => .pure ⟨_, rfl, ?_⟩
  rw [outline_branch_unary, hshape t ht, hnode]

theorem reads_invert (hop : inverts (.operator op)) (h : IsOperand ws a) :
    ReadsAs (.operator op :: ws) (.mk (.invert (.operator op)) [a]) := by
  intro n hn
  rw [List.length_cons] at hn
  obtain ⟨m, rfl⟩ := Nat.exists_eq_add_of_le' (Nat.le_trans (Nat.le_add_left 1 _) hn)
  have hoperand : Gives 100 (rules (m + 1)).invert ws a := h.invert (by omega)
  have hinvert : Gives 100 (invert (rules (m + 1))) (.operator op :: ws)
      (.mk (.invert (.operator op)) [a]) :=
    .afterOperator hop (fun t ht => by exact congrArg Shape.invert ht.1) hoperand
  have hstar : (Kind.operator op == .operator .star) = false := by
    revert hop
    cases op <;> decide
  have hstep : ((Kind.operator op).opClass? == some .incDec) = false := by
    revert hop
    cases op <;> decide
  have hderef := hinvert.deref fun rest => hstar
  have hsteps := hderef.steps (by decide) (fun rest => hstep) (Nat.succ_pos m)
  exact (hsteps.ofSteps (Nat.succ_pos m)).expression (by decide)

theorem reads_deref (h : IsOperand ws a) :
    ReadsAs (.operator .star :: ws) (.mk .deref [a]) := by
  intro n hn
  rw [List.length_cons] at hn
  obtain ⟨m, rfl⟩ := Nat.exists_eq_add_of_le' (Nat.le_trans (Nat.le_add_left 1 _) hn)
  have hoperand : Gives 100 (rules (m + 1)).deref ws a := h.deref (by omega)
  have hderef : Gives 100 (deref (rules (m + 1))) (.operator .star :: ws) (.mk .deref [a]) :=
    .afterOperator (by decide) (fun t ht => rfl) hoperand
  have hsteps := hderef.steps (by decide) (fun rest => rfl) (Nat.succ_pos m)
  exact (hsteps.ofSteps (Nat.succ_pos m)).expression (by decide)

theorem reads_stepBefore (hop : op.opClass = .incDec) (h : IsOperand ws a) :
    ReadsAs (.operator op :: ws) (.mk (.stepBefore (.operator op)) [a]) := by
  intro n hn
  rw [List.length_cons] at hn
  obtain ⟨m, rfl⟩ := Nat.exists_eq_add_of_le' (Nat.le_trans (Nat.le_add_left 1 _) hn)
  have haccepts : ((Kind.operator op).opClass? == some .incDec) = true := by
    rw [Kind.opClass?, hop, beq_self_eq_true]
  have hoperand : Gives 80 (rules (m + 1)).steps ws a := h.steps (by omega)
  have hsteps : Gives 80 (steps (rules (m + 1))) (.operator op :: ws)
      (.mk (.stepBefore (.operator op)) [a]) :=
    .afterOperator haccepts (fun t ht => by exact congrArg Shape.stepBefore ht.1) hoperand
  exact (hsteps.ofSteps (Nat.succ_pos m)).expression (by decide)

/-- Before a step on the same line, the step is read. -/
theorem goes_stepRound_next (hop : op.opClass = .incDec) (node : Node) :
    Goes (stepRound node) (.operator op :: ws) ws fun found =>
      ∃ after, found = .inl after ∧ after.outline = .mk (.stepAfter (.operator op)) [node.outline] := by
  refine goes_get.bind fun s hs => ?_
  have hkind : s.current.kind = .operator op := hs.kind
  have hclass : s.current.isOfClass .incDec = true := by
    rw [Token.isOfClass, hkind, Kind.opClass?, hop, beq_self_eq_true]
  rw [hclass, hs.line, if_pos (by rfl)]
  refine goes_advance.bind fun t ht => .pure ⟨_, rfl, ?_⟩
  rw [outline_branch_unary]
  exact congrArg (fun kind => Outline.mk (.stepAfter kind) [node.outline]) ht.1

theorem reads_stepAfter (hop : op.opClass = .incDec) (h : IsOperand ws a) :
    ReadsAs (ws ++ [.operator op]) (.mk (.stepAfter (.operator op)) [a]) := by
  intro n hn
  rw [List.length_append, List.length_singleton] at hn
  have hpos := h.length_pos
  obtain ⟨m, rfl⟩ := Nat.exists_eq_add_of_le' (Nat.le_trans (by omega : 2 ≤ ws.length + 1) hn)
  have hpull : (Kind.operator op).pull < 100 := by
    revert hop
    cases op <;> decide
  have hsteps : Gives 80 (steps (rules (m + 2))) (ws ++ [.operator op])
      (.mk (.stepAfter (.operator op)) [a]) := by
    intro rest hrest
    rw [List.append_assoc, List.singleton_append]
    have hnone : ((Word.kindAt (ws ++ .operator op :: rest)).opClass? == some .incDec) = false :=
      (isPrefix_parts (h.noPrefix _)).2.2
    refine Goes.orAfter ?_ hnone
    refine (h.deref (by omega) (.operator op :: rest) hpull).bind fun found hfound => ?_
    obtain ⟨node, rfl, hnode⟩ := hfound
    refine .map (Leads.loop_next (goes_stepRound_next hop node) fun after hafter => ?_)
    refine Leads.loop_last ((goes_stepRound_stop hrest after).mono fun found hfound => ?_)
    exact ⟨after, hfound, after, rfl, hafter.trans (by rw [hnode])⟩
  exact (hsteps.ofSteps (Nat.succ_pos _)).expression (by decide)

/-! ### Assignments -/

theorem isAssignable_of_isTarget {n : Node} (h : n.outline.shape.isTarget) :
    isAssignable n.form := by
  rw [Node.shape_outline] at h
  obtain ⟨⟨form, token, span, marks, leading, trailing⟩, children⟩ := n
  show isAssignable form
  cases form <;> first | rfl | cases h

theorem reads_assignment (hop : op.opClass = .assignment) (hshape : a.shape.isTarget)
    (htarget : IsOperand ws a) (hvalue : IsOperand vs b) :
    ReadsAs (ws ++ .operator op :: vs) (.mk (.assignment (.operator op)) [a, b]) := by
  intro n hn rest hrest
  rw [List.length_append, List.length_cons] at hn
  obtain ⟨m, rfl⟩ := Nat.exists_eq_add_of_le' (Nat.le_trans (by omega : 1 ≤ _) hn)
  have hpull : (Kind.operator op).pull < 10 := by
    revert hop
    cases op <;> decide
  have hexpression : Gives 5 (rules (m + 1)).expression vs b := hvalue.reads m (by omega)
  rw [List.append_assoc, List.cons_append]
  refine (htarget.logical (by omega) (.operator op :: (vs ++ rest)) hpull).bind fun found hfound => ?_
  obtain ⟨target, rfl, htargetNode⟩ := hfound
  refine goes_current.bind fun t ht => ?_
  have hclass : t.isOfClass .assignment = true := by
    have hkind : t.kind = .operator op := ht
    rw [Token.isOfClass, hkind, Kind.opClass?, hop, beq_self_eq_true]
  rw [hclass, if_pos rfl]
  refine goes_advance.bind fun t ht => ?_
  refine (Leads.operand (hexpression rest hrest)).bind fun value hvalue => ?_
  have hassignable : isAssignable target.form = true :=
    isAssignable_of_isTarget (htargetNode ▸ hshape)
  refine .map ?_
  unfold assignment
  rw [hassignable, if_neg (by decide)]
  refine .pure ⟨_, rfl, ?_⟩
  rw [Node.branch, Node.outline_build, List.map_cons, List.map_singleton, htargetNode, hvalue]
  exact congrArg (fun kind => Outline.mk (.assignment kind) [a, b]) ht.1

end Grammar

end SableFront
