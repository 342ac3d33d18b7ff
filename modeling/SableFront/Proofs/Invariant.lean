import SableFront.Proofs.Contract

/-!
# Invariants of the state of reading

Some properties of a state outlast every single step of reading: a token that is passed, an error
that is kept, one `>` of several that is split off, and going back to a state that has the
property. `Preserves I p Q` says that a production that starts in a state
with such a property `I` ends in one, also after an error, and that its results satisfy `Q`. There
is one rule for each way to put productions together, so what is left to prove about a production is
what it gives.
-/

namespace SableFront.Grammar

/-- Every single step of reading keeps the property. -/
class Invariant (I : State → Prop) : Prop where
  advance {s : State} : I s → I s.advance
  record {s : State} (e : SyntaxError) : I s → I (s.record e)
  split {s : State} : I s → isClosingAngle s.current.kind →
    I { s with lexer := s.lexer.splitAngle?.getD s.lexer }
  rewind {s t : State} : I s → I t → I (t.rewind s)

/-- From a state with the property the production leads to a state with it, and a result satisfies
`Q`. -/
def Preserves {α : Type} (I : State → Prop) (p : Production α) (Q : α → Prop) : Prop :=
  ∀ ⦃s⦄, I s → Meets s p p (fun a t => I t ∧ Q a) fun _ t => I t

namespace Preserves

variable {I : State → Prop} {α β : Type} {t : State} {p : Production α} {f : α → Production β}
  {Q : α → Prop} {R : β → Prop}

/-! ### Rules for any property -/

theorem weaken {Q' : α → Prop} (h : Preserves I p Q) (hQ : ∀ a, Q a → Q' a) : Preserves I p Q' :=
  fun _ hs => (h hs).weaken fun a _ ht => ⟨ht.1, hQ a ht.2⟩

theorem pure {a : α} (h : Q a) : Preserves I (pure a) Q := fun _ hs => .pure ⟨hs, h⟩

theorem bind (h : Preserves I p Q) (hf : ∀ a, Q a → Preserves I (f a) R) :
    Preserves I (p >>= f) R :=
  fun _ hs => (h hs).bind fun a _ ht => hf a ht.2 ht.1

/-- Both ways go on alike. -/
theorem iteBind {c : Prop} [Decidable c] {q : Production α} (hp : Preserves I p Q)
    (hq : Preserves I q Q) (hf : ∀ a, Q a → Preserves I (f a) R) :
    Preserves I (if c then p >>= f else q >>= f) R := by
  split
  · exact hp.bind hf
  · exact hq.bind hf

theorem map {g : α → β} (h : Preserves I p fun a => R (g a)) : Preserves I (g <$> p) R :=
  fun _ hs => .map (h hs)

/-- What is read is found. -/
theorem found (h : Preserves I p Q) : Preserves I (some <$> p) fun found => ∀ a ∈ found, Q a :=
  .map (h.weaken fun _ ha _ hb => Option.some.inj hb ▸ ha)

theorem getBind {f : State → Production β} (hf : ∀ s : State, I s → Preserves I (f s) R) :
    Preserves I (get >>= f) R := by
  intro s hs
  rw [meets_get]
  exact hf s hs hs

theorem set (h : I t) : Preserves I (set t) fun _ => True :=
  fun _ _ => .result ⟨⟩ t rfl rfl ⟨h, trivial⟩

theorem modify {change : State → State} (h : ∀ s : State, I s → I (change s)) :
    Preserves I (modify change) fun _ => True :=
  fun s hs => .result ⟨⟩ (change s) rfl rfl ⟨h s hs, trivial⟩

theorem fail (kind : ErrorKind) : Preserves I (fail kind) Q := fun _ hs => .fail hs

theorem failFor (kind : ErrorKind) (reason : Reason) : Preserves I (failFor kind reason) Q :=
  fun _ hs => .failFor hs

theorem throw (e : SyntaxError) : Preserves I (throw e) Q := fun _ hs => .throw hs

theorem current : Preserves I current fun _ => True :=
  fun s hs => .result s.current s rfl rfl ⟨hs, trivial⟩

theorem isAt (k : Kind) : Preserves I (isAt k) fun _ => True :=
  fun s hs => .result (s.isAt k) s rfl rfl ⟨hs, trivial⟩

theorem require {p : Production (Option α)} (h : Preserves I p fun found => ∀ a ∈ found, Q a)
    (missing : ErrorKind) : Preserves I (require p missing) Q := by
  unfold Grammar.require
  refine h.bind fun found hfound => ?_
  cases found with
  | some a => exact .pure (hfound a rfl)
  | none => exact .fail _

theorem orNone (h : Preserves I p Q) : Preserves I (orNone p) fun found => ∀ a ∈ found, Q a := by
  intro s hs
  refine .orNone ((h hs).mono (fun a t ht => ⟨ht.1, fun b hb => ?_⟩)
    fun e t ht => ⟨ht, fun b hb => ?_⟩)
  · exact Option.some.inj hb ▸ ht.2
  · cases hb

theorem loop {round : α → Production (α ⊕ β)}
    (h : ∀ a, Q a → Preserves I (round a) (Sum.elim Q R)) (n : Nat) {a : α} (ha : Q a) :
    Preserves I (loop round n a) R := by
  induction n generalizing a with
  | zero => exact .fail _
  | succ n ih =>
    refine (h a ha).bind fun next hnext => ?_
    cases next with
    | inl a => exact ih hnext
    | inr b => exact .pure hnext

/-! ### Rules for invariants -/

variable [Invariant I]

theorem record (e : SyntaxError) : Preserves I (record e) fun _ => True :=
  modify fun _ hs => Invariant.record e hs

theorem advance : Preserves I advance fun _ => True :=
  fun s hs => .result s.current s.advance rfl rfl ⟨Invariant.advance hs, trivial⟩

theorem eat (k : Kind) : Preserves I (eat k) fun _ => True := by
  unfold Grammar.eat
  refine (isAt k).bind fun here _ => ?_
  split
  · exact advance.bind fun _ _ => .pure trivial
  · exact .pure trivial

theorem expect (k : Kind) (missing : ErrorKind) : Preserves I (expect k missing) fun _ => True := by
  unfold Grammar.expect
  refine (eat k).bind fun found _ => ?_
  cases found with
  | some token => exact .pure trivial
  | none => exact .fail _

theorem expectIdent : Preserves I expectIdent fun _ => True := by
  unfold Grammar.expectIdent
  refine (isAt _).bind fun here _ => ?_
  split
  · exact advance.bind fun _ _ => .pure trivial
  · exact .fail _

theorem operatorBefore (accepts : Kind → Bool) :
    Preserves I (operatorBefore accepts) fun _ => True := by
  unfold Grammar.operatorBefore
  refine .getBind fun s _ => ?_
  split
  · exact advance.bind fun _ _ => .pure trivial
  · exact .pure trivial

theorem closeAngle : Preserves I closeAngle fun _ => True := by
  intro s hs
  unfold Grammar.closeAngle
  rw [meets_current]
  split
  · rename_i hangle
    rw [meets_modify]
    have hclose : Preserves I (do return some (← Grammar.advance)) fun _ => True :=
      advance.bind fun _ _ => .pure trivial
    exact hclose (Invariant.split hs hangle)
  · exact .pure ⟨hs, trivial⟩

theorem modifiers (rounds : Nat) : Preserves I (modifiers rounds) fun _ => True := by
  unfold Grammar.modifiers
  refine Preserves.loop (Q := fun _ => True) (fun marks _ => ?_) rounds trivial
  refine current.bind fun token _ => ?_
  split
  · exact advance.bind fun _ _ => .pure trivial
  · exact .pure trivial

/-- An empty node stands for an operand that is missing. -/
theorem operand {p : Production (Option Node)} {Q : Node → Prop}
    (h : Preserves I p fun found => ∀ n ∈ found, Q n) (hmissing : ∀ s : State, Q s.placeholder) :
    Preserves I (operand p) Q := by
  unfold Grammar.operand
  refine h.bind fun found hfound => ?_
  cases found with
  | some n => exact .pure (hfound n rfl)
  | none => exact .getBind fun s _ => (record _).bind fun _ _ => .pure (hmissing s)

theorem commaList {item : Production α} {closer : Closer} {missing : State → ErrorKind}
    (hitem : Preserves I item Q) (hclose : Preserves I closer.close fun _ => True) (rounds : Nat) :
    Preserves I (commaList rounds closer missing item) fun found => ∀ a ∈ found.1, Q a := by
  refine Preserves.loop (Q := fun items => ∀ a ∈ items, Q a) (fun items hitems => ?_) rounds
    (List.forall_mem_nil _)
  refine hclose.bind fun close _ => ?_
  cases close with
  | some token => exact .pure hitems
  | none =>
    refine hitem.bind fun a ha => (eat _).bind fun comma _ => .getBind fun s _ => ?_
    split
    · exact .fail _
    · exact .pure (List.forall_mem_append.mpr ⟨hitems, List.forall_mem_singleton.mpr ha⟩)

theorem commaItems {item : Production α} (hitem : Preserves I item Q) (rounds : Nat) :
    Preserves I (commaItems rounds item) fun items => ∀ a ∈ items, Q a := by
  refine Preserves.loop (Q := fun items => ∀ a ∈ items, Q a) (fun items hitems => ?_) rounds
    (List.forall_mem_nil _)
  refine hitem.bind fun a ha => (eat _).bind fun comma _ => ?_
  have hmore : ∀ b ∈ items ++ [a], Q b :=
    List.forall_mem_append.mpr ⟨hitems, List.forall_mem_singleton.mpr ha⟩
  cases comma with
  | some token => exact .pure hmore
  | none => exact .pure hmore

/-- An operator between operands with the property makes a node with it. -/
theorem level {next : Production (Option Node)} {combine : Node → Token → Node → Production Node}
    {Q : Node → Prop} (hnext : Preserves I next fun found => ∀ n ∈ found, Q n)
    (hmissing : ∀ s : State, Q s.placeholder)
    (hcombine : ∀ left op right, Q left → Q right → Preserves I (combine left op right) Q)
    (rounds : Nat) (cls : Operator.Class) :
    Preserves I (level rounds cls next combine) fun found => ∀ n ∈ found, Q n := by
  have hround : ∀ left, Q left →
      Preserves I (operatorRound cls next combine left) (Sum.elim Q Q) := by
    intro left hleft
    unfold operatorRound
    refine current.bind fun token _ => ?_
    split
    · refine advance.bind fun op _ => (hnext.operand hmissing).bind fun right hright => ?_
      exact .map (hcombine left op right hleft hright)
    · exact .pure hleft
  unfold Grammar.level
  refine hnext.bind fun found hfound => ?_
  cases found with
  | none => exact .pure fun n hn => (Option.not_mem_none n hn).elim
  | some left => exact (Preserves.loop hround rounds (hfound left rfl)).found

theorem orRewind {p : Production (Option α)} (h : Preserves I p fun found => ∀ a ∈ found, Q a) :
    Preserves I (orRewind p) fun found => ∀ a ∈ found, Q a := by
  intro s hs
  refine .orRewind ((h hs).weaken fun found t ht => ?_)
  cases found with
  | some a => exact ht
  | none => exact ⟨Invariant.rewind hs ht.1, ht.2⟩

end Preserves

end SableFront.Grammar
