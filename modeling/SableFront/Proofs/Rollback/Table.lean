import SableFront.Symbol.Table

/-!
# Rollback: tables beyond a table

A table lies *beyond* an earlier one, its base, if it has all symbols and scopes of the base as they
were there, and if the scopes that are new bind only symbols that are new. Whatever binds a symbol
in a new scope, and whatever changes a new symbol, keeps a table beyond its base: also what replaces
the symbol of a name that the scope binds already, which is then a new one too.
-/

namespace SableFront

/-- A name that is bound in a scope is among its bindings. -/
theorem Scope.mem_of_get? {s : Scope} {name : String} {id : SymbolId} (h : s.get? name = some id) :
    (name, id) ∈ s.bindings := by
  obtain ⟨l, r, heq, -⟩ := List.lookup_eq_some_iff.mp h
  rw [heq]
  exact List.mem_append_right l List.mem_cons_self

namespace SymbolTable

/-- The table has the symbols and scopes of a base unchanged, and its new scopes bind only new
symbols. -/
structure Beyond (base t : SymbolTable) : Prop where
  size_le : base.size ≤ t.size
  scopes_le : base.scopes.size ≤ t.scopes.size
  symbol : ∀ id < base.size, t.symbol? id = base.symbol? id
  scope : ∀ id < base.scopes.size, t.scope? id = base.scope? id
  bindings : ∀ id, base.scopes.size ≤ id → ∀ s, t.scope? id = some s → ∀ b ∈ s.bindings,
    base.size ≤ b.2

variable {base t : SymbolTable} {scope : ScopeId} {id : SymbolId} {s : Symbol}

theorem Beyond.refl (t : SymbolTable) : t.Beyond t := by
  refine ⟨Nat.le_refl _, Nat.le_refl _, fun _ _ => rfl, fun _ _ => rfl, fun id hid s hs => ?_⟩
  rw [scope?, Array.getElem?_eq_none hid] at hs
  cases hs

namespace Beyond

theorem enter (h : base.Beyond t) (scope : ScopeId) : base.Beyond (t.enter scope) :=
  ⟨h.size_le, h.scopes_le, h.symbol, h.scope, h.bindings⟩

/-- What a new scope binds a name to is new. -/
theorem le_of_findIn (h : base.Beyond t) (hscope : base.scopes.size ≤ scope) {name : String}
    (hfind : t.findIn scope name = some id) : base.size ≤ id := by
  obtain ⟨s, hs, hget⟩ := Option.bind_eq_some_iff.mp hfind
  exact h.bindings scope hscope s hs _ (Scope.mem_of_get? hget)

/-! ### Scopes -/

theorem newScope (h : base.Beyond t) (owner : Option SymbolId) :
    base.Beyond (t.newScope owner) := by
  have hsize : (t.newScope owner).scopes.size = t.scopes.size + 1 := Array.size_push _
  have hne {id : ScopeId} (hid : id ≠ t.scopes.size) : (t.newScope owner).scope? id = t.scope? id := by
    show (t.scopes.push _)[id]? = _
    rw [Array.getElem?_push, if_neg hid]
    rfl
  refine ⟨h.size_le, ?_, h.symbol, fun id hid => ?_, fun id hid s hs b hb => ?_⟩
  · rw [hsize]
    exact Nat.le_succ_of_le h.scopes_le
  · rw [hne (Nat.ne_of_lt (Nat.lt_of_lt_of_le hid h.scopes_le))]
    exact h.scope id hid
  · by_cases hlast : id = t.scopes.size
    · subst hlast
      have hnew : (t.newScope owner).scope? t.scopes.size = some ⟨some t.current, owner, []⟩ :=
        Array.getElem?_push_size
      rw [hnew] at hs
      cases hs
      cases hb
    · rw [hne hlast] at hs
      exact h.bindings id hid s hs b hb

theorem push (h : base.Beyond t) : base.Beyond t.push := (h.newScope none).enter _

/-! ### Symbols -/

/-- New symbols may be changed. -/
theorem of_symbols (h : base.Beyond t) {symbols : Array Symbol} (hsize : t.size ≤ symbols.size)
    (hold : ∀ id < base.size, symbols[id]? = t.symbol? id) :
    base.Beyond { t with symbols } := by
  refine ⟨Nat.le_trans h.size_le hsize, h.scopes_le, fun id hid => ?_, h.scope, h.bindings⟩
  rw [← h.symbol id hid, ← hold id hid]
  rfl

theorem modifySymbol (h : base.Beyond t) (hid : base.size ≤ id) (f : Symbol → Symbol) :
    base.Beyond (t.modifySymbol id f) := by
  refine h.of_symbols (Nat.le_of_eq Array.size_modify.symm) fun i hi => ?_
  rw [Array.getElem?_modify, if_neg (by omega)]
  rfl

/-- A scope may be given a binding to a new symbol if it is new. -/
theorem modifyScope (h : base.Beyond t) (hscope : base.scopes.size ≤ scope) (hid : base.size ≤ id)
    (name : String) : base.Beyond { t with scopes := t.scopes.modify scope (·.bind name id) } := by
  refine ⟨h.size_le, ?_, h.symbol, fun i hi => ?_, fun i hi s hs b hb => ?_⟩
  · show _ ≤ (t.scopes.modify _ _).size
    rw [Array.size_modify]
    exact h.scopes_le
  · show (t.scopes.modify _ _)[i]? = _
    rw [Array.getElem?_modify, if_neg (by omega)]
    exact h.scope i hi
  · replace hs : (t.scopes.modify scope (·.bind name id))[i]? = some s := hs
    rw [Array.getElem?_modify] at hs
    split at hs
    · obtain ⟨old, hold, rfl⟩ := Option.map_eq_some_iff.mp hs
      rcases List.mem_cons.mp hb with rfl | hb
      · exact hid
      · exact h.bindings i hi old hold b hb
    · exact h.bindings i hi s hs b hb

theorem bindNew (h : base.Beyond t) (hscope : base.scopes.size ≤ scope) (s : Symbol) :
    base.Beyond (t.bindNew scope s) := by
  refine (h.modifyScope hscope h.size_le s.name).of_symbols ?_ fun i hi => ?_
  · show t.symbols.size ≤ (t.symbols.push _).size
    rw [Array.size_push]
    exact Nat.le_succ _
  · have hlt : i < t.symbols.size := Nat.lt_of_lt_of_le hi h.size_le
    rw [Array.getElem?_push, if_neg (Nat.ne_of_lt hlt)]
    rfl

/-! ### Binding -/

theorem addIn (h : base.Beyond t) (hscope : base.scopes.size ≤ scope) {u : SymbolTable}
    (hadd : t.addIn scope s = .ok (id, u)) : base.Beyond u ∧ base.size ≤ id := by
  unfold SymbolTable.addIn at hadd
  split at hadd
  · cases hadd
  · cases hadd
    exact ⟨h.bindNew hscope s, h.size_le⟩

theorem insert (h : base.Beyond t) (hcurrent : base.scopes.size ≤ t.current) (s : Symbol) :
    base.Beyond (t.insert s).2 ∧ base.size ≤ (t.insert s).1 := by
  unfold SymbolTable.insert
  split
  · rename_i id hfind
    have hid : base.size ≤ id := h.le_of_findIn hcurrent hfind
    refine ⟨h.of_symbols (Nat.le_of_eq Array.size_setIfInBounds.symm) fun i hi => ?_, hid⟩
    rw [Array.getElem?_setIfInBounds_ne (by omega)]
    rfl
  · exact ⟨h.bindNew hcurrent s, h.size_le⟩

/-- A symbol without members gets a new scope for them. -/
theorem allocateStruct (h : base.Beyond t) (hid : base.size ≤ id)
    (hmembers : (t.symbol? id).bind (·.members) = none) :
    base.Beyond (t.allocateStruct id).2 ∧ base.scopes.size ≤ (t.allocateStruct id).1 := by
  unfold SymbolTable.allocateStruct
  rw [hmembers]
  exact ⟨(h.newScope (some id)).modifySymbol hid _, h.scopes_le⟩

end Beyond

/-- The symbol that is bound last is the one that was asked for. -/
theorem symbol?_of_addIn {u : SymbolTable} (hadd : t.addIn scope s = .ok (id, u)) :
    id < u.size ∧ u.symbol? id = some { s with definedIn := scope } := by
  unfold addIn at hadd
  split at hadd
  · cases hadd
  · cases hadd
    refine ⟨?_, Array.getElem?_push_size⟩
    show t.symbols.size < (t.symbols.push _).size
    rw [Array.size_push]
    exact Nat.lt_succ_self _

theorem current_of_addIn {u : SymbolTable} (hadd : t.addIn scope s = .ok (id, u)) :
    u.current = t.current := by
  unfold addIn at hadd
  split at hadd
  · cases hadd
  · cases hadd
    rfl

theorem current_insert (t : SymbolTable) (s : Symbol) : (t.insert s).2.current = t.current := by
  unfold insert
  split
  · rfl
  · rfl

theorem current_allocateStruct (t : SymbolTable) (id : SymbolId) :
    (t.allocateStruct id).2.current = t.current := by
  unfold allocateStruct
  split
  · rfl
  · rfl

end SymbolTable

end SableFront
