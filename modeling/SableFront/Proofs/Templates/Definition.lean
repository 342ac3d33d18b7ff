import SableFront.Proofs.Templates.Contract

/-!
# Templates: headers

The parameters of a header are read up to where its item opens. Then the header leaves its note, and
the rules are asked to read an item that has taken it.
-/

namespace SableFront.Grammar

open Node

variable {r : Rules} {s : State}

/-- The rules read trees in order. Where a header has left its note and its item opens a definition,
the statement is one that stands behind a header. -/
structure Rules.Orderly (r : Rules) : Prop where
  governs : ordered.Governs r
  leaves : r.LeavesSymbols
  item : ∀ ⦃s : State⦄ (outer : ScopeId), s.InOrder → isTemplatable s.current.kind →
    opensDefinition s.words →
    Meets { s with templateScope := some outer } r.statement r.statement
      (fun found t => t.InOrder ∧ ∀ n ∈ found, n.Defines true)
      fun _ t => State.InOrder { t with templateScope := none }

/-! ### Headers -/

/-- The state is in order, and the item opens behind the parameters that are left. -/
structure State.InHeader (s : State) : Prop where
  inOrder : s.InOrder
  opens : opensDefinition (afterParams s.words)

namespace State.InHeader

theorem congr {t : State} (h : s.InHeader) (ht : t.InOrder) (hlexer : t.lexer = s.lexer) :
    t.InHeader := ⟨ht, (words_eq_of_lexer hlexer).symm ▸ h.opens⟩

/-- What belongs to the parameters is passed over. -/
theorem pass {k : Kind} (h : s.InHeader) (hat : s.isAt k) (hk : k ≠ .eof)
    (hparam : ∀ ks, afterParams (k :: ks) = afterParams ks) : s.advance.InHeader := by
  refine ⟨h.inOrder.advance, ?_⟩
  have hopens := h.opens
  rwa [words_advance_of_isAt hat hk, hparam] at hopens

theorem eat {k : Kind} (h : s.InHeader) (hk : k ≠ .eof)
    (hparam : ∀ ks, afterParams (k :: ks) = afterParams ks) :
    Meets s (eat k) (eat k) (fun _ => State.InHeader) fun _ t => t.InOrder := by
  have hrun := outcome_eat s k
  split at hrun
  · rename_i hat
    exact .result _ _ hrun hrun (h.pass hat hk hparam)
  · exact .result _ _ hrun hrun h

theorem expectIdent (h : s.InHeader) :
    Meets s expectIdent expectIdent (fun _ => State.InHeader) fun _ t => t.InOrder := by
  have hrun := outcome_expectIdent s
  split at hrun
  · rename_i hat
    exact .result _ _ hrun hrun (h.pass hat Kind.noConfusion fun _ => rfl)
  · exact .failure _ _ hrun hrun h.inOrder

theorem closeAngle (h : s.InHeader) :
    Meets s closeAngle closeAngle
      (fun found t => found.elim t.InHeader fun _ => t.InOrder ∧ opensDefinition t.words)
      fun _ t => t.InOrder := by
  unfold Grammar.closeAngle
  rw [meets_current]
  split
  · rename_i hangle
    rw [meets_modify, meets_advance]
    exact .pure ⟨(h.inOrder.split hangle).advance, opensDefinition_behind_angle hangle h.opens⟩
  · exact .pure h

end State.InHeader

theorem meets_templateParam (hs : s.InHeader) :
    Meets s templateParam templateParam (fun n t => t.InHeader ∧ n.InOrder)
      fun _ t => t.InOrder := by
  unfold templateParam
  refine hs.expectIdent.bind fun ident t ht => ?_
  have hdeclare {name : Node} {symbol : Symbol} {u : State} (hu : u.InHeader)
      (hname : name.InOrder) :
      Meets u (declare name symbol u.symbols.current .parameter >>= fun found => pure found.1)
        (declare name symbol u.symbols.current .parameter >>= fun found => pure found.1)
        (fun n t => t.InHeader ∧ n.InOrder) fun _ t => t.InOrder :=
    (meets_declare (D := ordered) (w := .file) hu.inOrder hname _ trivial _).bind
      fun found v hv => .pure ⟨hu.congr hv.1.1 hv.1.2.1, hv.2.value⟩
  have hname : (Node.name ident.1 ident.2).InOrder := inOrder_leaf rfl _
  dsimp only
  refine (ht.eat (k := .punctuation .ellipsis) Kind.noConfusion fun _ => rfl).bind
    fun dots u hu => ?_
  cases dots with
  | some dots =>
    dsimp only
    rw [meets_pure_bind]
    dsimp only
    rw [meets_get]
    exact hdeclare hu (hname.congr rfl rfl)
  | none =>
    dsimp only
    rw [meets_pure_bind]
    dsimp only
    rw [meets_get]
    exact hdeclare hu hname

/-- Behind the parameters the item opens. -/
theorem meets_templateParams (hs : s.InHeader) (rounds : Nat) (missing : State → ErrorKind) :
    Meets s (commaList rounds angle missing templateParam)
      (commaList rounds angle missing templateParam)
      (fun found t => (t.InOrder ∧ opensDefinition t.words) ∧ ∀ n ∈ found.1, n.InOrder)
      fun _ t => t.InOrder := by
  refine meets_loop (P := fun params t => t.InHeader ∧ ∀ n ∈ params, n.InOrder)
    (fun params t ht => ?_) (fun _ _ ht => ht.1.inOrder) rounds []
    ⟨hs, fun _ hn => (List.not_mem_nil hn).elim⟩
  obtain ⟨ht, hparams⟩ := ht
  unfold commaRound
  refine ht.closeAngle.bind fun close u hu => ?_
  cases close with
  | some token => exact .pure ⟨hu, hparams⟩
  | none =>
    refine (meets_templateParam hu).bind fun param v hv => ?_
    refine (hv.1.eat (k := .punctuation .comma) Kind.noConfusion fun _ => rfl).bind
      fun comma w hw => ?_
    rw [meets_get]
    split
    · exact .fail hw.inOrder
    · exact .pure ⟨hw, forall_mem_concat (D := ordered) hparams hv.2⟩

theorem meets_templateRest (h : r.Orderly) (outer : ScopeId) (hs : s.InHeader) :
    Meets s (templateRest r outer) (templateRest r outer)
      (fun found t => t.InOrder ∧ (∀ n ∈ found.1, n.InOrder) ∧ found.2.Defines true)
      fun _ t => State.InOrder { t with templateScope := none } := by
  unfold templateRest
  refine ((meets_templateParams hs _ _).mono (fun _ _ ht => ht) fun _ _ ht => ht.withoutNote).bind
    fun params t ht => ?_
  obtain ⟨⟨ht, hopens⟩, hparams⟩ := ht
  dsimp only
  rw [meets_current]
  split
  · rename_i hitem
    rw [meets_modify]
    unfold Grammar.require
    refine Meets.bind ((h.item outer ht hitem hopens).bind fun found u hu => ?_)
      (fun item u (hu : u.InOrder ∧ item.Defines true) => .pure ⟨hu.1, hparams, hu.2⟩)
    cases found with
    | some item => exact .pure ⟨hu.1, hu.2 item rfl⟩
    | none => exact .fail hu.1.withoutNote
  · exact .failFor ht.withoutNote

/-- **A header with its item** is in order. -/
theorem meets_template (h : r.Orderly) (hs : s.InOrder) (hat : s.isAt (.keyword .templateKw)) :
    Meets s (template r) (template r) (fun n t => t.InOrder ∧ n.InOrder) fun _ t => t.InOrder := by
  have hopens : opensDefinition (afterHeader s.advance.words) := by
    have hheaded := hs.headed
    rw [words_advance_of_isAt hat Kind.noConfusion] at hheaded
    exact (Bool.and_eq_true_iff.mp hheaded).1
  unfold template
  rw [meets_advance]
  have hrun := outcome_eat s.advance (.operator .lt)
  split at hrun
  · rename_i hangle
    have hheader : s.advance.advance.InHeader := by
      refine ⟨hs.advance.advance, ?_⟩
      rwa [words_advance_of_isAt hangle Kind.noConfusion] at hopens
    rw [meets_step hrun hrun]
    dsimp only
    rw [meets_get]
    generalize s.advance.advance = t at hheader
    have hrest : Meets t
        (ensuring (fun s => { s with templateScope := none })
          (inNewScope (templateRest r t.symbols.current)))
        (ensuring (fun s => { s with templateScope := none })
          (inNewScope (templateRest r t.symbols.current)))
        (fun found u => u.InOrder ∧ (∀ n ∈ found.1, n.InOrder) ∧ found.2.Defines true)
        fun _ u => u.InOrder := by
      have hinner := hheader.congr (hheader.inOrder.withSymbols t.symbols.push) rfl
      refine .ensuring (.inScope ((meets_templateRest h _ hinner).mono (fun found u hu => ?_)
        fun e u hu => ?_))
      · exact ⟨(hu.1.withSymbols _).withoutNote, hu.2⟩
      · exact hu.withSymbols _
    exact hrest.bind fun found u hu => .pure ⟨hu.1, inOrder_template hu.2.1 hu.2.2 _ _⟩
  · rw [meets_step hrun hrun]
    exact .failFor hs.advance

end SableFront.Grammar
