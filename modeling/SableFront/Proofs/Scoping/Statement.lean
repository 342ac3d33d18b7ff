import SableFront.Program
import SableFront.Proofs.Scoping.Definition

/-!
# Scoping: statements

What a statement may bind in its scope is told by its first tokens: a definition its name, and any
other statement nothing, unless it is a template, an import, an enumerator or the declaration of a
value. A name that denotes a type starts a declaration if another name stands behind the type.

The law of scoping holds of a statement as a list of statements reads it: whether it ends in a node,
in nothing or in an error, the list goes on in the scope where the statement has started.
-/

namespace SableFront

namespace Grammar

variable {r : Rules} {s t : State} {what : Introduced} {context : Context} {α : Type}

/-! ### What is introduced -/

namespace State

/-- The name behind the current token. -/
def nameBehind (s : State) : Introduced := .name (s.advance.current.text?.getD "")

/-- What a definition at a keyword introduces. -/
def definitionHere (k : Keyword) (s : State) : Introduced :=
  match k with
  | .classKw | .enumKw | .functionKw => s.nameBehind
  | .operatorKw => s.advance.operatorHere
  | _ => .nothing

/-- What is introduced behind a storage keyword, unless that is a value. -/
def behindStorage (s : State) : Option Introduced :=
  match s.current.kind with
  | .keyword .functionKw => some (s.definitionHere .functionKw)
  | .keyword .operatorKw => some (s.definitionHere .operatorKw)
  | _ => none

/-- What is introduced behind a visibility keyword, unless that is a value. -/
def behindVisibility (s : State) : Option Introduced :=
  match s.current.kind with
  | .keyword k => if k.isStorage then s.advance.behindStorage else some (s.definitionHere k)
  | _ => some .nothing

/-- A type and then a name stand here. -/
def declares (r : Rules) (s : State) : Bool :=
  match outcome (typeRef r none) s with
  | (.ok (some _), t) => t.isAt .ident
  | _ => false

/-- What a statement at a name introduces, unless that is a value. -/
def nameHere (r : Rules) (s : State) : Option Introduced :=
  if s.declares r then none else some .nothing

/-- What the statement at a keyword introduces, unless it is a template, an import or the
declaration of a value. -/
def keywordHere (r : Rules) (k : Keyword) (s : State) : Option Introduced :=
  match k with
  | .importKw | .fromKw | .templateKw => none
  | .classKw | .enumKw | .operatorKw => some (s.definitionHere k)
  | .functionKw => some (if lambdaAhead s then .nothing else s.definitionHere k)
  | k =>
    if k.isVisibility then s.advance.behindVisibility
    else if k.isTypeName then s.nameHere r
    else if k.isStorage then s.advance.behindStorage
    else some .nothing

/-- What the statement at the current token introduces, unless it is a template, an import or the
declaration of a value. -/
def statementHere (r : Rules) (s : State) : Option Introduced :=
  match s.current.kind with
  | .keyword k => s.keywordHere r k
  | .ident => s.nameHere r
  | _ => some .nothing

/-- What the next item of a list introduces, unless it is a template, an import, an enumerator or
the declaration of a value. The comments before an item do not belong to it. -/
def introduces (r : Rules) (context : Context) (s : State) : Option Introduced :=
  if context == .enumBody && atEnumerator s then none
  else { s with comments := [] }.statementHere r

end State

/-! ### Statements -/

/-- What is read here keeps the law of scoping. -/
def Respects (s : State) (p : Production α) (what : Introduced) : Prop :=
  Meets s p p (fun _ t => s.symbols.Scoped t.symbols what) fun _ t => s.symbols.Scoped t.symbols what

namespace Respects

variable {p : Production α}

/-- What stays in the frame of all there is binds nothing. -/
theorem of_holds (hp : Meets s p p (fun _ => (Frame.ofState s).Holds s.place)
    fun _ => (Frame.ofState s).Holds s.place) (what : Introduced) : Respects s p what := by
  have hscoped {t : State} (ht : (Frame.ofState s).Holds s.place t) :
      s.symbols.Scoped t.symbols what := .of_spares (ht.table.spares none) ht.current what
  exact hp.mono (fun _ _ ht => hscoped ht) fun _ _ ht => hscoped ht

theorem of_frame {Q : α → Prop} (hp : Preserves ((Frame.ofState s).Holds s.place) p Q)
    (hnote : s.templateScope = none) (what : Introduced) : Respects s p what :=
  .of_holds ((hp (Frame.holds_ofState hnote)).weaken fun _ _ ht => ht.1) what

/-- A token may be read before. -/
theorem after {f : Token → Production α} (hp : Respects s.advance (f s.current) what) :
    Respects s (advance >>= f) what := by
  unfold Respects at hp ⊢
  rw [meets_advance, ← s.symbols_advance]
  exact hp

theorem map {β : Type} (hp : Respects s p what) (f : α → β) : Respects s (f <$> p) what :=
  Meets.map hp

end Respects

/-- A name that starts no declaration starts an expression: a type that was read is gone back
over. -/
theorem respects_nameStatement (h : r.Framed) (hnote : s.templateScope = none)
    (hwhat : s.nameHere r = some what) : Respects s (nameStatement r) what := by
  have hs := Frame.holds_ofState hnote
  have hname : s.declares r = false := by
    unfold State.nameHere at hwhat
    split at hwhat
    · cases hwhat
    · rename_i hname
      exact Bool.eq_false_iff.mpr hname
  -- without a name behind it the type is no declaration
  have hattempt : Meets s (declaration r none) (declaration r none)
      (fun _ => (Frame.ofState s).Holds s.place) fun _ => (Frame.ofState s).Holds s.place := by
    unfold declaration
    rcases obeys_typeRef (h _) found_none hs with ⟨found, t, hp, hq, ht, -⟩ | ⟨e, t, hp, hq, ht⟩
    · rw [meets_step hp hq]
      cases found with
      | none => exact .pure ht
      | some type =>
        rw [State.declares, hp] at hname
        replace hname : t.isAt .ident = false := hname
        dsimp only
        rw [meets_isAt, hname]
        exact .pure ht
    · have hstops : Meets s (typeRef r none) (typeRef r none) (fun _ _ => False)
          fun _ => (Frame.ofState s).Holds s.place := .failure e t hp hq ht
      exact hstops.bind fun _ _ hnever => hnever.elim
  have hexpression {t : State} (ht : (Frame.ofState s).Holds s.place t) :
      Meets t (expression r) (expression r) (fun _ => (Frame.ofState s).Holds s.place)
        fun _ => (Frame.ofState s).Holds s.place :=
    (obeys_expression (h _) ht).weaken fun _ _ hu => hu.1
  refine .of_holds ?_ what
  unfold nameStatement
  rw [meets_get]
  split
  · refine Meets.bind (.orRewind (Q := fun _ => (Frame.ofState s).Holds s.place)
      (hattempt.weaken fun found t ht => ?_)) fun found t ht => ?_
    · cases found with
      | none => exact hs.rewind ht
      | some node => exact ht
    · cases found with
      | none => exact hexpression ht
      | some node => exact .pure ht
  · split
    · exact (obeys_unknownNameStatement (h _) hs).weaken fun _ _ ht => ht.1
    · exact hexpression hs

/-- What introduces something behind a storage keyword is a function or an operator. -/
theorem respects_callable (h : r.Framed) (hnote : s.templateScope = none)
    (hwhat : s.behindStorage = some what) (visibility storage : Option Node) :
    s.current.kind = .keyword .functionKw ∧ Respects s (functionDef r visibility storage) what ∨
      s.current.kind = .keyword .operatorKw ∧ Respects s (operatorDef r visibility storage) what := by
  unfold State.behindStorage at hwhat
  split at hwhat
  · rename_i hkind
    cases hwhat
    exact .inl ⟨hkind, scoped_functionDef h hnote visibility storage⟩
  · rename_i hkind
    cases hwhat
    exact .inr ⟨hkind, scoped_operatorDef h hnote visibility storage⟩
  · cases hwhat

theorem respects_afterStorage (h : r.Framed) (hnote : s.templateScope = none)
    (hwhat : s.behindStorage = some what) (storage : Node) :
    Respects s (afterStorage r storage) what := by
  unfold Respects afterStorage
  rw [meets_current]
  rcases respects_callable h hnote hwhat none (some storage) with ⟨hkind, hp⟩ | ⟨hkind, hp⟩
  · rw [hkind]
    exact hp
  · rw [hkind]
    exact hp

theorem outcome_storageNode (s : State) :
    outcome storageNode s = (.ok (.leaf .storage s.current), s.advance) := rfl

theorem meets_storageHere (s : State) {E : SyntaxError → State → Prop} :
    Meets s storageHere storageHere
      (fun found t => found = none ∧ t = s ∨
        ∃ k, s.current.kind = .keyword k ∧ k.isStorage ∧ found.isSome ∧ t = s.advance) E := by
  unfold storageHere
  rw [meets_current]
  split
  · rename_i k hkind
    split
    · rename_i hk
      have hnode := outcome_storageNode s
      exact .map (.result _ _ hnode hnode (.inr ⟨k, hkind, hk, rfl, rfl⟩))
    · exact .pure (.inl ⟨rfl, rfl⟩)
  · exact .pure (.inl ⟨rfl, rfl⟩)

/-- What stands behind a visibility keyword introduces what its first tokens tell. A storage keyword
may stand between them. -/
theorem respects_behindVisibility (h : r.Framed) (hnote : s.templateScope = none)
    (hwhat : s.behindVisibility = some what) (visibility : Node) :
    Respects s (storageHere >>= afterVisibility r visibility) what := by
  unfold State.behindVisibility at hwhat
  refine (meets_storageHere s).bind fun found t ht => ?_
  rcases ht with ⟨rfl, rfl⟩ | ⟨k, hkind, hk, hfound, rfl⟩
  · unfold afterVisibility
    rw [meets_current]
    split
    · rename_i hkind _
      rw [hkind] at hwhat
      cases hwhat
      exact scoped_classDef h hnote _
    · rename_i hkind _
      rw [hkind] at hwhat
      cases hwhat
      exact scoped_classDef h hnote _
    · rename_i hkind
      rw [hkind] at hwhat
      cases hwhat
      exact scoped_functionDef h hnote _ _
    · rename_i hkind
      rw [hkind] at hwhat
      cases hwhat
      exact scoped_operatorDef h hnote _ _
    · exact .pure (.refl _ _)
    · rename_i hsome _ _
      cases hsome
  · obtain ⟨storage, rfl⟩ := Option.isSome_iff_exists.mp hfound
    rw [hkind] at hwhat
    dsimp only at hwhat
    rw [if_pos hk] at hwhat
    have hnote' : s.advance.templateScope = none := s.templateScope_advance.trans hnote
    rw [← s.symbols_advance]
    unfold afterVisibility
    rw [meets_current]
    rcases respects_callable h hnote' hwhat (some visibility) (some storage) with
      ⟨hkind, hp⟩ | ⟨hkind, hp⟩
    · rw [hkind]
      exact hp
    · rw [hkind]
      exact hp

theorem respects_visibilityStatement (h : r.Framed) (hnote : s.templateScope = none)
    (hwhat : s.advance.behindVisibility = some what) : Respects s (visibilityStatement r) what := by
  have hnote' : s.advance.templateScope = none := s.templateScope_advance.trans hnote
  refine .after ?_
  have heat := outcome_eat s.advance (.punctuation .colon)
  split at heat
  · have hsame : s.advance.advance.symbols = s.advance.symbols := s.advance.symbols_advance
    refine (meets_step heat heat).mpr (.pure ?_)
    rw [hsame]
    exact .refl _ _
  · exact (meets_step heat heat).mpr (respects_behindVisibility h hnote' hwhat _)

/-! ### All statements -/

theorem respects_keywordStatement (h : r.Framed) (hnote : s.templateScope = none) {k : Keyword}
    (hwhat : s.keywordHere r k = some what) : Respects s (keywordStatement r k) what := by
  have hframe := h (Frame.ofState s)
  have hbinds {p : Production Node}
      (hp : Preserves ((Frame.ofState s).Holds s.place) p fun _ => True) :
      Respects s (some <$> p) what := (Respects.of_frame hp hnote what).map some
  unfold keywordStatement
  split
  · exact hbinds (obeys_conditional hframe)
  · exact hbinds (obeys_whileLoop hframe)
  · exact hbinds (obeys_doWhile hframe)
  · exact hbinds (obeys_forLoop hframe)
  · exact hbinds (obeys_returnStatement hframe)
  · exact hbinds (obeys_delete hframe)
  · cases hwhat
  · cases hwhat
  · cases hwhat
    exact .map (scoped_classDef h hnote none) some
  · cases hwhat
    exact .map (scoped_classDef h hnote none) some
  · replace hwhat := Option.some.inj hwhat
    unfold Respects
    rw [meets_get]
    split
    · exact Respects.of_frame (obeys_expression (h _)) hnote what
    · rename_i hdefines
      rw [if_neg hdefines] at hwhat
      cases hwhat
      exact Meets.map (scoped_functionDef h hnote none none)
  · cases hwhat
    exact .map (scoped_operatorDef h hnote none none) some
  · cases hwhat
  · unfold State.keywordHere at hwhat
    split at hwhat
    all_goals try contradiction
    have hnote' : s.advance.templateScope = none := s.templateScope_advance.trans hnote
    split at hwhat
    · rename_i hvisibility
      rw [if_pos hvisibility]
      exact .map (respects_visibilityStatement h hnote hwhat) some
    rename_i hvisibility
    rw [if_neg hvisibility]
    split at hwhat
    · rename_i htype
      rw [if_pos htype]
      exact respects_nameStatement h hnote hwhat
    rename_i htype
    rw [if_neg htype]
    split at hwhat
    · rename_i hstorage
      rw [if_pos hstorage]
      have hnode := outcome_storageNode s
      refine .map ((meets_step hnode hnode).mpr ?_) some
      rw [← s.symbols_advance]
      exact respects_afterStorage h hnote' hwhat _
    · rename_i hstorage
      rw [if_neg hstorage]
      exact .of_frame (obeys_expression (h _)) hnote what

theorem respects_statement (h : r.Framed) (hnote : s.templateScope = none)
    (hwhat : s.statementHere r = some what) : Respects s (statement r) what := by
  unfold State.statementHere at hwhat
  unfold Respects statement
  rw [meets_current]
  split at hwhat
  · rename_i k hkind
    rw [hkind]
    exact respects_keywordStatement h hnote hwhat
  · rename_i hkind
    rw [hkind]
    exact respects_nameStatement h hnote hwhat
  · rename_i hkeyword hname
    split
    · rename_i k hkind
      exact (hkeyword k hkind).elim
    · exact Respects.of_frame
        (obeys_block (h _) Discipline.enters_push .block).found hnote what
    · rename_i hkind
      exact (hname hkind).elim
    · exact Respects.of_frame (obeys_expression (h _)) hnote what

/-! ### Items of lists -/

@[simp] theorem symbols_stepOver (start : Nat) (s : State) :
    (stepOver start s).symbols = s.symbols := by
  unfold stepOver
  split
  · rfl
  · simp

@[simp] theorem symbols_finishItem (start : Nat) (leading : List Token) (n : Node) (s : State) :
    (finishItem start leading n s).2.symbols = s.symbols := by
  unfold finishItem
  dsimp only
  split
  · simp
  · simp

/-- After an error only the scope is gone back to. -/
@[simp] theorem symbols_recover (e : SyntaxError) (scope : ScopeId) (s : State) :
    (recover e scope s).2.symbols = s.symbols.enter scope := by
  unfold recover
  dsimp only
  split
  · simp
  · split
    · simp
    · simp

theorem scoped_item (h : r.Framed) (hnote : s.templateScope = none)
    (hwhat : s.introduces r context = some what) :
    s.symbols.Scoped (item r context s).2.symbols what := by
  unfold State.introduces at hwhat
  split at hwhat
  · cases hwhat
  rename_i henumerator
  let quiet : State := { s with comments := [] }
  have hitem : itemProduction r context s = statement r := if_neg henumerator
  unfold item
  dsimp only
  rcases respects_statement (s := quiet) h hnote hwhat with ⟨found, t, hp, -, ht⟩ | ⟨e, t, hp, -, ht⟩
  all_goals
    change (statement r).run quiet = _ at hp
    rw [hitem, hp]
  · cases found with
    | some node =>
      dsimp only
      rw [symbols_finishItem]
      exact ht
    | none =>
      dsimp only
      rw [State.symbols_advance, State.symbols_record]
      exact ht
  · have hback : t.symbols.enter s.symbols.current = t.symbols := by
      rw [← ht.current]
      rfl
    dsimp only
    rw [symbols_recover, hback]
    exact ht

/-- A list of statements ends in the scope where it has begun. -/
theorem current_items (n : Nat) (context : Context) (s : State) :
    ((rules n).items context s).2.symbols.current = s.symbols.current := by
  -- the frame that asks for nothing but the scope
  let f : Frame := ⟨⟨#[], #[], 0⟩, []⟩
  have hs : f.Holds ⟨s.symbols.current, true⟩ s := by
    refine ⟨⟨Nat.zero_le _, Nat.zero_le _, fun i hi => ?_, fun i hi => ?_, fun _ _ _ _ _ _ => ?_⟩,
      List.nil_prefix, fun _ _ => ⟨rfl, Nat.zero_le _⟩, rfl⟩
    · exact absurd hi (Nat.not_lt_zero i)
    · exact absurd hi (Nat.not_lt_zero i)
    · exact Nat.zero_le _
  exact ((framed_rules n f).items context (Nat.zero_le _) hs).1.current

end Grammar

namespace SymbolTable

theorem current_initial : initial.current = global := by
  decide +kernel

end SymbolTable

open Grammar

/-- **Scoping.** While no template header waits, a statement of a list, whether it ends in a node or
in an error, leaves all symbols and all bindings of its surroundings as they were, except that a
definition may bind its name in the scope it stands in, or replace its operator there; and the list
goes on in that scope. A whole program ends in the global scope. -/
theorem statements_keep_to_their_scope (n : Nat) :
    (∀ (context : Context) (s : State) (what : Introduced), s.templateScope = none →
      s.introduces (rules n) context = some what →
      s.symbols.Scoped (item (rules n) context s).2.symbols what) ∧
    ∀ source config, (Program.parse source config).symbols.current = SymbolTable.global := by
  refine ⟨fun context s what hnote hwhat => scoped_item (framed_rules n) hnote hwhat,
    fun source config => ?_⟩
  exact (current_items (Program.circles source) .file (.start source config)).trans
    SymbolTable.current_initial

/-- A class binds its name in the scope that it stands in. -/
theorem class_binds_in_its_scope :
    let s := State.start "class A{}" .standard
    s.introduces (rules 9) .file = some (.name "A") ∧
      s.symbols.Scoped (item (rules 9) .file s).2.symbols (.name "A") ∧
      ((item (rules 9) .file s).2.symbols.findLocal "A").isSome := by
  intro s
  have hwhat : s.introduces (rules 9) .file = some (.name "A") := by decide +kernel
  have hfound : ((item (rules 9) .file s).2.symbols.findLocal "A").isSome := by decide +kernel
  exact ⟨hwhat, (statements_keep_to_their_scope 9).1 .file s _ rfl hwhat, hfound⟩

end SableFront
