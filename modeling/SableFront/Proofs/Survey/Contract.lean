import SableFront.Proofs.Survey.Hand

/-!
# Surveys: what productions hand on

A production is handed pieces and hands on what its result carries (`L.Turns`, `L.Yields`). The rules
here are for what productions are built from: scopes that are entered and left, operands, lists in
brackets, and attempts, which leave the hand as it was where they are given up.
-/

namespace SableFront

namespace Grammar

namespace Survey

variable {L : Survey} {α β : Type} {before xs ys : List Piece} {s : State} {p : Production α}
  {carry : α → List Piece} {use : Use}

/-- The scope that was current is kept in mind while another one is, until it is entered again. What
is said of the pieces behind must not be about the table. -/
theorem meets_inScope_laid {R : α → List Piece → State → Prop} (hL : L.Lawful)
    (hR : ∀ a ys t symbols, R a ys t → R a ys { t with symbols })
    (hp : ∀ ⦃before s⦄, L.Has before xs s →
      Meets s p p (fun a t => ∃ ys, R a ys t ∧ L.Laid before ys t) (L.Fails before))
    (hs : L.Has before xs s) {enter : SymbolTable → SymbolTable} (op : SymbolTable.Operation)
    (hop : op.IsFor s.symbols) (henter : enter s.symbols = op.apply s.symbols) :
    Meets s (inScope enter p) (inScope enter p) (fun a t => ∃ ys, R a ys t ∧ L.Laid before ys t)
      (L.Fails before) := by
  have hmem : Piece.scope s.symbols.current ∈ before ++ [.scope s.symbols.current] := by simp
  refine .inScope ?_
  rw [henter]
  refine (hp ((hs.mindCurrent hL).operate hL hop)).mono (fun a t ht => ?_) fun e t ht => ?_
  · obtain ⟨ys, hys, ht⟩ := ht
    have hback : L.Laid (before ++ [.scope s.symbols.current]) ys
        { t with symbols := t.symbols.enter s.symbols.current } :=
      ⟨ht.kept.enter hL (List.mem_append_left _ hmem), ht.idle⟩
    exact ⟨ys, hR a ys t _ hys, hback.forget hL (List.forall_mem_singleton.mpr rfl)⟩
  · exact ⟨(ht.left.enter hL hmem).sublist hL (List.sublist_append_left before _), ht.fit⟩

/-- Where no comments are attached to the nodes behind, they are in hand. -/
theorem meets_inScope {R : α → List Piece → Prop} (hL : L.Lawful)
    (hp : ∀ ⦃before s⦄, L.Has before xs s →
      Meets s p p (fun a t => ∃ ys, R a ys ∧ L.Has before ys t) (L.Fails before))
    (hs : L.Has before xs s) {enter : SymbolTable → SymbolTable} (op : SymbolTable.Operation)
    (hop : op.IsFor s.symbols) (henter : enter s.symbols = op.apply s.symbols) :
    Meets s (inScope enter p) (inScope enter p) (fun a t => ∃ ys, R a ys ∧ L.Has before ys t)
      (L.Fails before) := by
  refine (meets_inScope_laid (R := fun a ys _ => R a ys ∧ ∀ n : Node, .node n ∈ ys → n.IsBare) hL
    (fun _ _ _ _ hR => hR) (fun _ _ hs => (hp hs).weaken fun a t ht => ?_) hs op hop henter).weaken
    fun a t ht => ?_
  · obtain ⟨ys, hys, ht⟩ := ht
    exact ⟨ys, ⟨hys, ht.bare⟩, ht.toLaid⟩
  · obtain ⟨ys, ⟨hys, hbare⟩, ht⟩ := ht
    exact ⟨ys, hys, ht, hbare⟩

namespace Turns

/-- A production may be handed the last of the pieces in hand. -/
theorem beside (h : L.Turns xs p carry) (hL : L.Lawful) (hs : L.Has before (ys ++ xs) s) :
    Meets s p p (fun a => L.Has before (ys ++ carry a)) (L.Fails before) :=
  (h hs.putDown).mono (fun _ _ ht => ht.pickUp hs.bare_left) fun _ _ he => he.drop hL

theorem recast (h : L.Turns xs p carry) {carry' : α → List Piece}
    (hcarry : ∀ a, carry a = carry' a) : L.Turns xs p carry' :=
  fun _ _ hs => (h hs).weaken fun a _ ht => hcarry a ▸ ht

theorem require {p : Production (Option α)} {carry : α → List Piece}
    (h : L.Turns xs p fun found => found.elim ys carry) (hL : L.Lawful) (missing : ErrorKind) :
    L.Turns xs (require p missing) carry := by
  intro before s hs
  unfold Grammar.require
  refine (h hs).bind fun found t ht => ?_
  cases found with
  | some a => exact .pure ht
  | none => exact .fail (ht.fails hL _ _)

/-- Each round of a loop is handed what the round before it handed on. -/
theorem loop (carry : α → List Piece) {round : α → Production (α ⊕ β)} {carry' : β → List Piece}
    (hL : L.Lawful) (h : ∀ a, L.Turns (carry a) (round a) (Sum.elim carry carry')) (n : Nat)
    (a : α) : L.Turns (carry a) (loop round n a) carry' := by
  intro before s hs
  refine meets_loop (P := fun a t => L.Has before (carry a) t) (fun a s hs => ?_)
    (fun a s hs => hs.fails hL _ _) n a hs
  refine (h a hs).weaken fun next t ht => ?_
  cases next <;> exact ht

/-- The scope that was current is kept in mind until it is entered again. -/
theorem inScope (h : L.Turns xs p carry) (hL : L.Lawful) {enter : SymbolTable → SymbolTable}
    (hs : L.Has before xs s) (op : SymbolTable.Operation) (hop : op.IsFor s.symbols)
    (henter : enter s.symbols = op.apply s.symbols) :
    Meets s (inScope enter p) (inScope enter p) (fun a => L.Has before (carry a))
      (L.Fails before) :=
  (meets_inScope (R := fun a ys => ys = carry a) hL (fun _ _ ht => (h ht).weaken fun _ _ hu =>
    ⟨_, rfl, hu⟩) hs op hop henter).weaken fun a t ht => by
      obtain ⟨_, rfl, ht⟩ := ht
      exact ht

theorem inNewScope (h : L.Turns xs p carry) (hL : L.Lawful) : L.Turns xs (inNewScope p) carry :=
  fun _ _ hs => h.inScope hL hs .push trivial rfl

end Turns

namespace Yields

theorem beside (h : L.Yields p carry) (hL : L.Lawful) (hs : L.Has before ys s) :
    Meets s p p (fun a => L.Has before (ys ++ carry a)) (L.Fails before) :=
  Turns.beside h hL ((List.append_nil ys).symm ▸ hs)

theorem require {p : Production (Option Node)} (h : L.Yields p maybe) (hL : L.Lawful)
    (missing : ErrorKind) : L.Yields (require p missing) one :=
  Turns.require (Turns.recast h fun found => by cases found <;> rfl :
    L.Turns [] p fun found => found.elim [] one) hL missing

/-- An empty node stands for an operand that is missing. -/
theorem operand {p : Production (Option Node)} (h : L.Yields p maybe) (hL : L.Lawful) :
    L.Yields (operand p) one := by
  intro before s hs
  unfold Grammar.operand
  refine (h hs).bind fun found t ht => ?_
  cases found with
  | some node => exact .pure ht
  | none =>
    rw [meets_get, meets_record]
    exact .pure (ht.missing hL)

/-- The items of a list are in hand, and the token that closes it. -/
theorem commaList {item : Production α} (hitem : L.Yields item carry) {closer : Closer}
    (hclose : L.Yields closer.close fun found => found.toList.map (.token use)) (hL : L.Lawful)
    (rounds : Nat) (missing : State → ErrorKind) :
    L.Yields (commaList rounds closer missing item)
      fun found => found.1.flatMap carry ++ [.token use found.2] := by
  refine Turns.loop (fun items => items.flatMap carry) hL (fun items before s hs => ?_)
    rounds []
  refine (hclose.beside hL hs).bind fun close t ht => ?_
  cases close with
  | some token => exact .pure ht
  | none =>
    have hopen : L.Has before (items.flatMap carry) t := List.append_nil (items.flatMap carry) ▸ ht
    refine (hitem.beside hL hopen).bind fun a u hu => ?_
    refine (hu.eatSkip hL rfl).bind fun comma v hv => ?_
    rw [meets_get]
    split
    · exact .fail (hv.fails hL _ _)
    · refine .pure (?_ : L.Has before ((items ++ [a]).flatMap carry) v)
      rw [List.flatMap_append, List.flatMap_singleton]
      exact hv

/-- The nodes of a list are in hand, and the token that closes it. -/
theorem commaNodes {item : Production Node} (hitem : L.Yields item one) {closer : Closer}
    (hclose : L.Yields closer.close fun found => found.toList.map (.token use)) (hL : L.Lawful)
    (rounds : Nat) (missing : State → ErrorKind) :
    L.Yields (Grammar.commaList rounds closer missing item) (listed use) :=
  Turns.recast (hitem.commaList hclose hL rounds missing) fun found => by rw [flatMap_one, listed]

theorem commaItems {item : Production α} (hitem : L.Yields item carry) (hL : L.Lawful)
    (rounds : Nat) : L.Yields (commaItems rounds item) fun items => items.flatMap carry := by
  refine Turns.loop (fun items => items.flatMap carry) hL (fun items before s hs => ?_)
    rounds []
  refine (hitem.beside hL hs).bind fun a t ht => ?_
  have hmore : L.Has before ((items ++ [a]).flatMap carry) t := by
    rw [List.flatMap_append, List.flatMap_singleton]
    exact ht
  refine (hmore.eatSkip hL rfl).bind fun comma u hu => ?_
  cases comma with
  | some token => exact .pure hu
  | none => exact .pure hu

end Yields

/-- A production that takes a name that waits can do without one. -/
theorem Takes.yields (h : L.Takes p carry) : L.Yields p carry := by
  intro before s hs
  have hkept := hs.kept
  rw [List.append_nil] at hkept
  exact h hkept

theorem yields_mark (hL : L.Lawful) {mark : Punctuation}
    (hmark : Use.plain.allows (.punctuation mark)) :
    L.Yields (Closer.mark mark).close fun found => found.toList.map (.token .plain) :=
  fun _ _ hs => hs.eat hL .plain hmark

/-- **An attempt** that is given up leaves the hand as it was, where reading may go back. -/
theorem meets_orRewind {p : Production (Option α)} {R : State → State → Prop} (hL : L.Lawful)
    (hback : L.GoesBack R) (hs : L.Has before [] s)
    (hp : ∀ ⦃before⦄, L.Has before [] s → Meets s p p
      (fun found t => found.elim (L.Left before t ∧ R s t) fun a => L.Has before (carry a) t)
      (L.Fails before)) :
    Meets s (orRewind p) (orRewind p) (fun found => L.Has before (found.elim [] carry))
      (L.Fails before) := by
  -- the current scope is kept in mind, since it is entered again, and the errors are, since they
  -- are the ones that are left
  have hmind : L.Has (before ++ [.scope s.symbols.current, .faults s.errors]) [] s := by
    have hnone : L.Has before ([] ++ []) s := hs
    have hscope : L.Has before ([.scope s.symbols.current] ++ []) s :=
      hnone.mind hL (q := .scope s.symbols.current) rfl (fun _ => Piece.noConfusion) hs.current_lt
    have hboth := hscope.mind hL (q := .faults s.errors) rfl (fun _ => Piece.noConfusion)
      (List.prefix_refl s.errors)
    exact hboth.aside
  have hdrop := List.sublist_append_left before [Piece.scope s.symbols.current, .faults s.errors]
  refine .orRewind ((hp hmind).mono (fun found t ht => ?_) fun e t ht => ht.sublist hL hdrop)
  cases found with
  | some a => exact Has.forget ht hL (by simp)
  | none =>
    obtain ⟨ht, hR⟩ := ht
    have hold : L.Holds before s := by
      have hholds := hs.holds
      rwa [List.append_nil] at hholds
    have herrors : s.errors <+: t.errors := ht.sane.pieces (.faults s.errors) (by simp)
    have hmem : Piece.scope s.symbols.current ∈
        before ++ [.scope s.symbols.current, .faults s.errors] := by simp
    have hentered := (ht.enter hL hmem).sane.sublist hdrop
    have hsane := (hs.kept.sane.sublist (List.sublist_append_left before [])).rewind hentered herrors
    rw [← List.append_nil before] at hsane
    refine .intro ?_ hsane hs.idle fun _ hn => absurd hn List.not_mem_nil
    rw [Option.elim_none, List.append_nil]
    exact hback hold (hL.lose ht.breaks (hdrop.trans (List.sublist_append_left _ _))) herrors hR

end Survey

end Grammar

end SableFront
