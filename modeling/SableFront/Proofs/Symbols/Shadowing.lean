import SableFront.Proofs.Rollback.Table
import SableFront.Proofs.Symbols.Consistent

/-!
# Symbols: what a block leaves outside

A block opens a scope, works in it and in scopes below it, and closes it again. Whatever it binds,
replaces or gives members to is new: names are bound in scopes that the block has opened, and what
takes the place of a symbol does so in such a scope. So the table it leaves lies beyond the table
before it (`Beyond`), and what any name means outside is what it meant.

The scopes that are open in a block are a chain: `Opened t d u scope` says that `d` closings lead
from `scope` to the scope of the block itself and one more to where the block was opened. Each step
keeps the chain of the current scope (`BlockStep.inside`), and a run of steps ends where it began.
-/

namespace SableFront.SymbolTable

/-! ### Steps in a block -/

/-- What may be done in a block. -/
inductive BlockStep
  | add (s : Symbol)
  | insert (s : Symbol)
  | find (name : String)
  | findLocal (name : String)
  | allocateStruct (id : SymbolId)
  | push
  | pop

namespace BlockStep

/-- The table after a step; a look-up leaves it as it is. -/
def apply (t : SymbolTable) : BlockStep → SymbolTable
  | add s => (Operation.add s).apply t
  | insert s => (Operation.insert s).apply t
  | find _ | findLocal _ => t
  | allocateStruct id => (Operation.allocateStruct id).apply t
  | push => Operation.push.apply t
  | pop => Operation.pop.apply t

/-- The number of blocks that are open in the block after a step. -/
def depth (d : Nat) : BlockStep → Nat
  | push => d + 1
  | pop => d - 1
  | _ => d

/-- The step may be taken with `d` blocks open in the block: members are given only to symbols that
are new, that is, not among the `old` first ones, and the block itself is not closed. -/
def Fits (old : Nat) (t : SymbolTable) (d : Nat) : BlockStep → Prop
  | allocateStruct id => old ≤ id ∧ id < t.size
  | pop => 0 < d
  | _ => True

instance (old : Nat) (t : SymbolTable) (d : Nat) : (step : BlockStep) → Decidable (step.Fits old t d)
  | allocateStruct id => inferInstanceAs (Decidable (old ≤ id ∧ id < t.size))
  | pop => inferInstanceAs (Decidable (0 < d))
  | add _ | insert _ | find _ | findLocal _ | push => inferInstanceAs (Decidable True)

end BlockStep

/-- The table after some steps. -/
def afterSteps (t : SymbolTable) (steps : List BlockStep) : SymbolTable :=
  steps.foldl BlockStep.apply t

/-- The steps may be taken one after the other, and close all blocks that they open. -/
def AreNested (old : Nat) : SymbolTable → Nat → List BlockStep → Prop
  | _, d, [] => d = 0
  | t, d, step :: steps => step.Fits old t d ∧ AreNested old (step.apply t) (step.depth d) steps

instance decidableAreNested (old : Nat) : (t : SymbolTable) → (d : Nat) →
    (steps : List BlockStep) → Decidable (AreNested old t d steps)
  | _, d, [] => inferInstanceAs (Decidable (d = 0))
  | t, d, step :: steps =>
    have := decidableAreNested old (step.apply t) (step.depth d) steps
    inferInstanceAs
      (Decidable (step.Fits old t d ∧ AreNested old (step.apply t) (step.depth d) steps))

variable {base t u : SymbolTable} {scope : ScopeId} {id : SymbolId} {d : Nat}

/-! ### Look-ups -/

/-- Beyond a table, a name means in each of its scopes what it meant. -/
theorem Beyond.findFrom (h : base.Beyond t) (hscope : scope < base.scopes.size) (name : String) :
    t.findFrom scope name = base.findFrom scope name := by
  -- on the scope, whose parent is older
  induction scope using Nat.strongRecOn with
  | ind scope ih =>
    rw [SymbolTable.findFrom, SymbolTable.findFrom, h.scope scope hscope]
    cases base.scope? scope with
    | none => rfl
    | some s =>
      cases hget : s.get? name with
      | some found => simp only [hget]
      | none =>
        cases hparent : s.parent with
        | none => simp only [hget, hparent]
        | some parent =>
          simp only [hget, hparent]
          split
          · exact ih parent ‹_› (Nat.lt_trans ‹_› hscope)
          · rfl

theorem Beyond.findIn (h : base.Beyond t) (hscope : scope < base.scopes.size) (name : String) :
    t.findIn scope name = base.findIn scope name := by
  unfold SymbolTable.findIn
  rw [h.scope scope hscope]

/-! ### Open scopes -/

/-- The scopes of `t` are in `u`, with the parents they had. -/
def KeepsParents (t u : SymbolTable) : Prop :=
  ∀ scope s, t.scope? scope = some s → ∃ s', u.scope? scope = some s' ∧ s'.parent = s.parent

theorem keepsParents_of_scopes (h : u.scopes = t.scopes) : t.KeepsParents u := by
  intro scope s hs
  refine ⟨s, ?_, rfl⟩
  unfold scope?
  rw [h]
  exact hs

theorem keepsParents_newScope (t : SymbolTable) (owner : Option SymbolId) :
    t.KeepsParents (t.newScope owner) := by
  intro scope s hs
  have hlt : scope < t.scopes.size := (Array.getElem?_eq_some_iff.mp hs).1
  refine ⟨s, ?_, rfl⟩
  rw [scope?_newScope, if_neg (Nat.ne_of_lt hlt)]
  exact hs

theorem keepsParents_bindNew (t : SymbolTable) (target : ScopeId) (s : Symbol) :
    t.KeepsParents (t.bindNew target s) := by
  intro scope c hc
  rw [scope?_bindNew, hc]
  split
  · exact ⟨_, rfl, rfl⟩
  · exact ⟨c, rfl, rfl⟩

/-- `d` closings lead from the scope to one that was opened right below the current scope of `t`,
all through scopes that are not in `t`. -/
def Opened (t : SymbolTable) : Nat → SymbolTable → ScopeId → Prop
  | 0, u, scope => t.scopes.size ≤ scope ∧ ∃ s, u.scope? scope = some s ∧ s.parent = some t.current
  | d + 1, u, scope => t.scopes.size ≤ scope ∧
      ∃ s parent, u.scope? scope = some s ∧ s.parent = some parent ∧ Opened t d u parent

theorem Opened.le (h : Opened base d t scope) : base.scopes.size ≤ scope := by
  cases d with
  | zero => exact h.1
  | succ d => exact h.1

/-- Scopes that keep their parents stay open. -/
theorem Opened.mono (h : Opened base d t scope) (hkeeps : t.KeepsParents u) :
    Opened base d u scope := by
  induction d generalizing scope with
  | zero =>
    obtain ⟨hle, s, hs, hparent⟩ := h
    obtain ⟨s', hs', hsame⟩ := hkeeps scope s hs
    exact ⟨hle, s', hs', hsame.trans hparent⟩
  | succ d ih =>
    obtain ⟨hle, s, parent, hs, hparent, hopen⟩ := h
    obtain ⟨s', hs', hsame⟩ := hkeeps scope s hs
    exact ⟨hle, s', parent, hs', hsame.trans hparent, ih hopen⟩

/-! ### What holds in a block -/

/-- In a block opened in `base`, with `d` blocks open in it: the table lies beyond `base`, and the
current scope is an open one. -/
structure Inside (base : SymbolTable) (d : Nat) (t : SymbolTable) : Prop where
  beyond : base.Beyond t
  opened : Opened base d t t.current

/-- A new scope is open below the current one. -/
theorem scope?_push (t : SymbolTable) :
    t.push.scope? t.push.current = some ⟨some t.current, none, []⟩ :=
  (scope?_newScope t none t.scopes.size).trans (if_pos rfl)

theorem inside_push (t : SymbolTable) : Inside t 0 t.push :=
  ⟨(Beyond.refl t).push, Nat.le_refl _, _, scope?_push t, rfl⟩

namespace Inside

/-- A step that leaves the current scope open below the same ones. -/
theorem step (h : Inside base d t) (hbeyond : base.Beyond u) (hkeeps : t.KeepsParents u)
    (hcurrent : u.current = t.current) : Inside base d u := by
  refine ⟨hbeyond, ?_⟩
  rw [hcurrent]
  exact h.opened.mono hkeeps

theorem add (h : Inside base d t) (s : Symbol) : Inside base d ((Operation.add s).apply t) := by
  unfold Operation.apply
  dsimp only
  split
  · rename_i added u hadd
    have hkeeps : t.KeepsParents u := by
      unfold SymbolTable.add addIn at hadd
      split at hadd
      · cases hadd
      · cases hadd
        exact keepsParents_bindNew t t.current s
    exact h.step (h.beyond.addIn h.opened.le hadd).1 hkeeps (current_of_addIn hadd)
  · exact h

theorem insert (h : Inside base d t) (s : Symbol) : Inside base d (t.insert s).2 := by
  have hkeeps : t.KeepsParents (t.insert s).2 := by
    unfold SymbolTable.insert
    split
    · exact keepsParents_of_scopes rfl
    · exact keepsParents_bindNew t t.current s
  exact h.step (h.beyond.insert h.opened.le s).1 hkeeps (current_insert t s)

theorem allocateStruct (h : Inside base d t) (hid : base.size ≤ id) :
    Inside base d (t.allocateStruct id).2 := by
  cases hmembers : (t.symbol? id).bind (·.members) with
  | some members =>
    have hsame : (t.allocateStruct id).2 = t := by rw [SymbolTable.allocateStruct, hmembers]
    rw [hsame]
    exact h
  | none =>
    have hnew : (t.allocateStruct id).2.scopes = (t.newScope (some id)).scopes := by
      rw [SymbolTable.allocateStruct, hmembers]
      rfl
    have hkeeps : t.KeepsParents (t.allocateStruct id).2 := by
      intro scope s hs
      unfold scope?
      rw [hnew]
      exact keepsParents_newScope t (some id) scope s hs
    exact h.step (h.beyond.allocateStruct hid hmembers).1 hkeeps (current_allocateStruct t id)

theorem push (h : Inside base d t) : Inside base (d + 1) t.push := by
  refine ⟨h.beyond.push, h.beyond.scopes_le, _, t.current, scope?_push t, rfl, ?_⟩
  exact h.opened.mono (keepsParents_newScope t none)

theorem pop (h : Inside base (d + 1) t) : Inside base d t.pop := by
  obtain ⟨-, s, parent, hs, hparent, hopen⟩ := h.opened
  have hpop : t.pop = t.enter parent := by
    rw [SymbolTable.pop, hs, Option.bind_some, hparent]
    rfl
  rw [hpop]
  exact ⟨h.beyond.enter parent, hopen.mono (keepsParents_of_scopes rfl)⟩

end Inside

/-- **A step in a block** stays in the block. -/
theorem BlockStep.inside (h : Inside base d t) (step : BlockStep)
    (hfits : step.Fits base.size t d) : Inside base (step.depth d) (step.apply t) := by
  cases step with
  | add s => exact h.add s
  | insert s => exact h.insert s
  | find name => exact h
  | findLocal name => exact h
  | allocateStruct id => exact h.allocateStruct hfits.1
  | push => exact h.push
  | pop =>
    obtain ⟨e, rfl⟩ : ∃ e, d = e + 1 := Nat.exists_eq_succ_of_ne_zero (Nat.ne_of_gt hfits)
    exact h.pop

/-- **A run of nested steps** ends in the scope of the block. -/
theorem Inside.afterSteps (h : Inside base d t) {steps : List BlockStep}
    (hsteps : AreNested base.size t d steps) : Inside base 0 (t.afterSteps steps) := by
  induction steps generalizing t d with
  | nil =>
    have hclosed : d = 0 := hsteps
    rw [← hclosed]
    exact h
  | cons step steps ih => exact ih (step.inside h hsteps.1) hsteps.2

/-- **A block leaves alone what is outside.** A block is opened in a reachable table; in it names
are bound, replaced and looked up, new symbols are given members, and blocks are opened and closed;
then it is closed. The current scope is the one before, every name means what it meant, and every
symbol is what it was. -/
theorem block_leaves_outside_alone (h : t.Reached) {steps : List BlockStep}
    (hsteps : AreNested t.size t.push 0 steps) :
    let u := (t.push.afterSteps steps).pop
    u.current = t.current ∧
    (∀ name, u.find name = t.find name ∧ u.findLocal name = t.findLocal name) ∧
    ∀ id < t.size, u.symbol? id = t.symbol? id := by
  intro u
  obtain ⟨hbeyond, -, s, hs, hparent⟩ := (inside_push t).afterSteps hsteps
  have hpop : u = (t.push.afterSteps steps).enter t.current := by
    change (t.push.afterSteps steps).pop = _
    rw [SymbolTable.pop, hs, Option.bind_some, hparent]
    rfl
  have hleft : t.Beyond u := by
    rw [hpop]
    exact hbeyond.enter t.current
  have hback : u.current = t.current := by
    rw [hpop]
    rfl
  have hcurrent : t.current < t.scopes.size := h.consistent.current
  refine ⟨hback, fun name => ⟨?_, ?_⟩, hleft.symbol⟩
  · unfold find
    rw [hback]
    exact hleft.findFrom hcurrent name
  · unfold findLocal
    rw [hback]
    exact hleft.findIn hcurrent name

/-- A name is bound again in a block, replaced in a block in it, and given members there. -/
theorem shadowed_name_is_back :
    let x := Symbol.new "x" SymbolType.bool .declared
    let t := (Operation.add x).apply .empty
    let steps := [.add x, .push, .insert x, .insert x, .allocateStruct 2, .find "x", .pop, .find "x"]
    let u := (t.push.afterSteps steps).pop
    t.Reached ∧ AreNested t.size t.push 0 steps ∧
      u.current = global ∧ u.find "x" = some 0 ∧ u.symbol? 0 = some x := by
  intro x t steps u
  have hreached : t.Reached := .step _ .empty fun _ hm => nomatch hm
  have hsteps : AreNested t.size t.push 0 steps := by decide +kernel
  obtain ⟨hcurrent, hfind, hsymbol⟩ := block_leaves_outside_alone hreached hsteps
  refine ⟨hreached, hsteps, hcurrent, ?_, hsymbol 0 (by decide)⟩
  rw [(hfind "x").1]
  decide +kernel

end SableFront.SymbolTable
