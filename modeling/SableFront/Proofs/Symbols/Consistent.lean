import SableFront.Symbol.Table
import Mathlib.Data.List.Nodup

/-!
# Symbols: what every reachable table keeps

A symbol table says the same thing in three places: a scope binds a name to a symbol, the symbol
has the name, and the symbol knows the scope. `Consistent` says that the three agree, that the
scopes form a tree below the global one, and that every index a table stores exists. Each operation
is made of four steps, `enter`, `newScope`, `bindNew` and `modifySymbol`, and each of these keeps
the table consistent, so that all tables `Reached` by operations on existing indices are.
-/

namespace SableFront

/-- A scope binds names to symbols as a map does. -/
theorem Scope.get?_eq_some_iff {s : Scope} (h : (s.bindings.map (·.1)).Nodup) {name : String}
    {id : SymbolId} : s.get? name = some id ↔ (name, id) ∈ s.bindings := by
  obtain ⟨parent, owner, bindings⟩ := s
  induction bindings with
  | nil => simp [get?]
  | cons b bs ih =>
    obtain ⟨bound, target⟩ := b
    obtain ⟨hb, hbs⟩ := List.nodup_cons.mp h
    by_cases heq : name = bound
    · subst heq
      have hnot : (name, id) ∉ bs := fun hmem => hb (List.mem_map.mpr ⟨_, hmem, rfl⟩)
      simp [get?, hnot, eq_comm]
    · have hne : (name == bound) = false := beq_false_of_ne heq
      have hcons : (name, id) ≠ (bound, target) := fun h => heq (congrArg Prod.fst h)
      simp only [get?, List.lookup_cons, hne, List.mem_cons, hcons, false_or]
      exact ih hbs

namespace SymbolTable

/-! ### The invariant -/

/-- The bindings, the names and the scopes of symbols agree, scopes form a tree, and every index
that the table stores exists. -/
structure Consistent (t : SymbolTable) : Prop where
  /-- The current scope exists. -/
  current : t.current < t.scopes.size
  /-- The global scope has no parent. -/
  root : ∃ s, t.scope? global = some s ∧ s.parent = none
  /-- Every other scope has a parent, which is older. -/
  parent : ∀ id s, t.scope? id = some s → id ≠ global → ∃ p < id, s.parent = some p
  /-- A scope binds a name at most once. -/
  keys : ∀ id s, t.scope? id = some s → (s.bindings.map (·.1)).Nodup
  /-- A scope binds a name to the symbol that has the name and the scope, and to no other. -/
  bound : ∀ scope name id, t.findIn scope name = some id ↔
    ∃ s, t.symbol? id = some s ∧ s.name = name ∧ s.definedIn = scope
  /-- What a scope belongs to exists. -/
  owner : ∀ id s o, t.scope? id = some s → s.owner = some o → o < t.size
  /-- The scope of the members of a symbol exists. -/
  members : ∀ id s m, t.symbol? id = some s → s.members = some m → m < t.scopes.size

variable {t : SymbolTable} {scope : ScopeId} {id : SymbolId} {s : Symbol}

namespace Consistent

/-- A symbol is bound in its own scope, under its own name, and nowhere else. -/
theorem existsUnique_bound (h : t.Consistent) (hid : id < t.size) :
    ∃! b : ScopeId × String, t.findIn b.1 b.2 = some id := by
  have hs : t.symbol? id = some t.symbols[id] := Array.getElem?_eq_getElem hid
  refine ⟨(t.symbols[id].definedIn, t.symbols[id].name), (h.bound _ _ _).mpr ⟨_, hs, rfl, rfl⟩, ?_⟩
  rintro ⟨scope, name⟩ hb
  obtain ⟨s', hs', rfl, rfl⟩ := (h.bound _ _ _).mp hb
  cases hs.symm.trans hs'
  rfl

/-- Two symbols of one scope have different names. -/
theorem eq_of_name (h : t.Consistent) {i j : SymbolId} {a b : Symbol} (ha : t.symbol? i = some a)
    (hb : t.symbol? j = some b) (hscope : a.definedIn = b.definedIn) (hname : a.name = b.name) :
    i = j := by
  have hi := (h.bound _ _ _).mpr ⟨a, ha, hname, hscope⟩
  have hj := (h.bound _ _ _).mpr ⟨b, hb, rfl, rfl⟩
  exact Option.some.inj (hi.symm.trans hj)

/-- A look-up goes from scope to parent without ever being cut short. -/
theorem findFrom_eq (h : t.Consistent) (scope : ScopeId) (name : String) :
    t.findFrom scope name = (t.scope? scope).bind fun s =>
      (s.get? name).or (s.parent.bind (t.findFrom · name)) := by
  rw [findFrom]
  cases hs : t.scope? scope with
  | none => rfl
  | some s =>
    cases hget : s.get? name with
    | some id => simp [hget]
    | none =>
      cases hparent : s.parent with
      | none => simp [hget, hparent]
      | some p =>
        have hlt : p < scope := by
          by_cases hroot : scope = global
          · obtain ⟨s', hs', hnone⟩ := h.root
            subst hroot
            cases hs.symm.trans hs'
            cases hparent.symm.trans hnone
          · obtain ⟨q, hq, hparent'⟩ := h.parent scope s hs hroot
            cases hparent.symm.trans hparent'
            exact hq
        simp [hget, hparent, hlt]

/-! ### The four steps -/

theorem enter (h : t.Consistent) (hscope : scope < t.scopes.size) : (t.enter scope).Consistent :=
  { h with current := hscope }

end Consistent

theorem scope?_newScope (t : SymbolTable) (owner : Option SymbolId) (scope : ScopeId) :
    (t.newScope owner).scope? scope =
      if scope = t.scopes.size then some ⟨some t.current, owner, []⟩ else t.scope? scope :=
  Array.getElem?_push

theorem findIn_newScope (t : SymbolTable) (owner : Option SymbolId) (scope : ScopeId)
    (name : String) : (t.newScope owner).findIn scope name = t.findIn scope name := by
  unfold findIn
  rw [scope?_newScope]
  split
  · rename_i hnew
    have hnone : t.scope? scope = none := by rw [hnew]; exact Array.getElem?_eq_none (Nat.le_refl _)
    rw [hnone]
    rfl
  · rfl

theorem symbol?_bindNew (t : SymbolTable) (scope : ScopeId) (s : Symbol) (id : SymbolId) :
    (t.bindNew scope s).symbol? id =
      if id = t.size then some { s with definedIn := scope } else t.symbol? id :=
  Array.getElem?_push

theorem scope?_bindNew (t : SymbolTable) (scope : ScopeId) (s : Symbol) (id : ScopeId) :
    (t.bindNew scope s).scope? id =
      if scope = id then (t.scope? id).map (·.bind s.name t.size) else t.scope? id :=
  Array.getElem?_modify

theorem findIn_bindNew (hscope : scope < t.scopes.size) (s : Symbol) (other : ScopeId)
    (name : String) : (t.bindNew scope s).findIn other name =
      if scope = other ∧ name = s.name then some t.size else t.findIn other name := by
  unfold findIn
  rw [scope?_bindNew]
  by_cases hother : scope = other
  · subst hother
    have hs : t.scope? scope = some t.scopes[scope] := Array.getElem?_eq_getElem hscope
    by_cases hname : name = s.name
    · simp [hs, hname]
    · simp [hs, hname, Scope.get?_bind_ne _ _ hname]
  · simp [hother]

namespace Consistent

theorem newScope (h : t.Consistent) (owner : Option SymbolId) (howner : ∀ o ∈ owner, o < t.size) :
    (t.newScope owner).Consistent := by
  have hsize : (t.newScope owner).scopes.size = t.scopes.size + 1 := Array.size_push _
  have hpos : global < t.scopes.size := Nat.lt_of_le_of_lt (Nat.zero_le _) h.current
  -- A scope is either an old one or the new one, which is bare.
  have hcases {id : ScopeId} {s : Scope} (hs : (t.newScope owner).scope? id = some s) :
      t.scope? id = some s ∨ id = t.scopes.size ∧ s = ⟨some t.current, owner, []⟩ := by
    rw [scope?_newScope] at hs
    split at hs
    · exact .inr ⟨‹_›, (Option.some.inj hs).symm⟩
    · exact .inl hs
  refine ⟨?_, ?_, fun id s hs hid => ?_, fun id s hs => ?_, fun scope name id => ?_,
    fun id s o hs ho => ?_, fun id s m hs hm => ?_⟩
  · rw [hsize]
    exact Nat.lt_succ_of_lt h.current
  · rw [scope?_newScope, if_neg (Nat.ne_of_lt hpos)]
    exact h.root
  · rcases hcases hs with hold | ⟨rfl, rfl⟩
    · exact h.parent id s hold hid
    · exact ⟨t.current, h.current, rfl⟩
  · rcases hcases hs with hold | ⟨-, rfl⟩
    · exact h.keys id s hold
    · exact List.nodup_nil
  · rw [findIn_newScope]
    exact h.bound scope name id
  · rcases hcases hs with hold | ⟨-, rfl⟩
    · exact h.owner id s o hold ho
    · exact howner o ho
  · rw [hsize]
    exact Nat.lt_succ_of_lt (h.members id s m hs hm)

theorem bindNew (h : t.Consistent) (hscope : scope < t.scopes.size)
    (hfree : t.findIn scope s.name = none) (hmembers : ∀ m ∈ s.members, m < t.scopes.size) :
    (t.bindNew scope s).Consistent := by
  have hsize : (t.bindNew scope s).scopes.size = t.scopes.size := Array.size_modify
  have hgrown : (t.bindNew scope s).size = t.size + 1 := Array.size_push _
  -- A scope is an old one, but for a binding of the new symbol.
  have hcases {id : ScopeId} {c : Scope} (hc : (t.bindNew scope s).scope? id = some c) :
      ∃ old, t.scope? id = some old ∧ c.parent = old.parent ∧ c.owner = old.owner ∧
        (c = old ∨ id = scope ∧ c = old.bind s.name t.size) := by
    rw [scope?_bindNew] at hc
    split at hc
    · obtain ⟨old, hold, rfl⟩ := Option.map_eq_some_iff.mp hc
      exact ⟨old, hold, rfl, rfl, .inr ⟨Eq.symm ‹_›, rfl⟩⟩
    · exact ⟨c, hc, rfl, rfl, .inl rfl⟩
  refine ⟨?_, ?_, fun id c hc hid => ?_, fun id c hc => ?_, fun other name id => ?_,
    fun id c o hc ho => ?_, fun id a m ha hm => ?_⟩
  · rw [hsize]
    exact h.current
  · obtain ⟨old, hold, hnone⟩ := h.root
    rw [scope?_bindNew, hold]
    split
    · exact ⟨_, rfl, hnone⟩
    · exact ⟨_, rfl, hnone⟩
  · obtain ⟨old, hold, hparent, -⟩ := hcases hc
    rw [hparent]
    exact h.parent id old hold hid
  · obtain ⟨old, hold, -, -, rfl | ⟨rfl, rfl⟩⟩ := hcases hc
    · exact h.keys id c hold
    · refine List.nodup_cons.mpr ⟨fun hmem => ?_, h.keys id old hold⟩
      obtain ⟨b, hb, hname⟩ := List.mem_map.mp hmem
      have hget : old.get? b.1 = some b.2 := (Scope.get?_eq_some_iff (h.keys id old hold)).mpr hb
      rw [hname] at hget
      rw [findIn, hold] at hfree
      cases hget.symm.trans hfree
  · rw [findIn_bindNew hscope, symbol?_bindNew]
    by_cases hself : scope = other ∧ name = s.name
    · obtain ⟨rfl, rfl⟩ := hself
      rw [if_pos ⟨rfl, rfl⟩]
      constructor
      · intro hnew
        cases hnew
        exact ⟨_, if_pos rfl, rfl, rfl⟩
      · rintro ⟨a, ha, hname, hdefined⟩
        split at ha
        · rename_i hlast
          rw [hlast]
        · -- An old symbol of that name would have been found.
          have hfound := (h.bound scope s.name id).mpr ⟨a, ha, hname, hdefined⟩
          cases hfree.symm.trans hfound
    · rw [if_neg hself, h.bound]
      constructor
      · rintro ⟨a, ha, hname, hdefined⟩
        have hlt : id < t.size := (Array.getElem?_eq_some_iff.mp ha).1
        exact ⟨a, by rw [if_neg (Nat.ne_of_lt hlt)]; exact ha, hname, hdefined⟩
      · rintro ⟨a, ha, hname, hdefined⟩
        split at ha
        · cases ha
          exact absurd ⟨hdefined, hname.symm⟩ hself
        · exact ⟨a, ha, hname, hdefined⟩
  · obtain ⟨old, hold, -, howner, -⟩ := hcases hc
    rw [hgrown]
    exact Nat.lt_succ_of_lt (h.owner id old o hold (by rw [← howner]; exact ho))
  · rw [symbol?_bindNew] at ha
    rw [hsize]
    split at ha
    · cases ha
      exact hmembers m hm
    · exact h.members id a m ha hm

/-- A symbol may be changed as long as it keeps its name and its scope. -/
theorem modifySymbol (h : t.Consistent) {f : Symbol → Symbol}
    (hf : ∀ a, t.symbol? id = some a → (f a).name = a.name ∧ (f a).definedIn = a.definedIn ∧
      ∀ m ∈ (f a).members, m < t.scopes.size) : (t.modifySymbol id f).Consistent := by
  have hsymbol (i : SymbolId) : (t.modifySymbol id f).symbol? i =
      if id = i then (t.symbol? i).map f else t.symbol? i := Array.getElem?_modify
  have hsize : (t.modifySymbol id f).size = t.size := Array.size_modify
  refine { h with bound := fun scope name i => ?_, owner := ?_, members := fun i a m ha hm => ?_ }
  · refine (h.bound scope name i).trans ?_
    rw [hsymbol]
    by_cases hid : id = i
    · subst hid
      rw [if_pos rfl]
      constructor
      · rintro ⟨a, ha, rfl, rfl⟩
        obtain ⟨hname, hdefined, -⟩ := hf a ha
        exact ⟨f a, by rw [ha]; rfl, hname, hdefined⟩
      · rintro ⟨b, hb, rfl, rfl⟩
        obtain ⟨a, ha, rfl⟩ := Option.map_eq_some_iff.mp hb
        obtain ⟨hname, hdefined, -⟩ := hf a ha
        exact ⟨a, ha, hname.symm, hdefined.symm⟩
    · rw [if_neg hid]
  · rw [hsize]
    exact h.owner
  · rw [hsymbol] at ha
    split at ha
    · rename_i hid
      subst hid
      obtain ⟨b, hb, rfl⟩ := Option.map_eq_some_iff.mp ha
      exact (hf b hb).2.2 m hm
    · exact h.members i a m ha hm

/-! ### The operations -/

theorem addIn (h : t.Consistent) (hscope : scope < t.scopes.size)
    (hmembers : ∀ m ∈ s.members, m < t.scopes.size) {u : SymbolTable}
    (hadd : t.addIn scope s = .ok (id, u)) : u.Consistent := by
  unfold SymbolTable.addIn at hadd
  split at hadd
  · cases hadd
  · rename_i hfree
    cases hadd
    exact h.bindNew hscope hfree hmembers

theorem insert (h : t.Consistent) (hmembers : ∀ m ∈ s.members, m < t.scopes.size) :
    (t.insert s).2.Consistent := by
  unfold SymbolTable.insert
  split
  · rename_i id hfind
    -- The symbol in whose place the new one comes has its name and its scope.
    obtain ⟨old, hold, hname, hdefined⟩ := (h.bound _ _ _).mp hfind
    have hset : t.symbols.setIfInBounds id { s with definedIn := t.current } =
        t.symbols.modify id fun _ => { s with definedIn := t.current } := by
      refine Array.ext_getElem? fun i => ?_
      rw [Array.getElem?_setIfInBounds, Array.getElem?_modify]
      by_cases hi : id = i
      · subst hi
        rw [if_pos rfl, if_pos rfl, if_pos (Array.getElem?_eq_some_iff.mp hold).1,
          show t.symbols[id]? = some old from hold]
        rfl
      · rw [if_neg hi, if_neg hi]
    rw [hset]
    refine h.modifySymbol fun a ha => ?_
    cases hold.symm.trans ha
    exact ⟨hname.symm, hdefined.symm, hmembers⟩
  · exact h.bindNew h.current ‹_› hmembers

theorem push (h : t.Consistent) : t.push.Consistent := by
  refine (h.newScope none (by simp)).enter ?_
  show t.scopes.size < (t.scopes.push _).size
  rw [Array.size_push]
  exact Nat.lt_succ_self _

theorem pop (h : t.Consistent) : t.pop.Consistent := by
  unfold SymbolTable.pop
  split
  · rename_i parent hparent
    obtain ⟨s, hs, hsome⟩ := Option.bind_eq_some_iff.mp hparent
    have hne : t.current ≠ global := by
      intro hroot
      obtain ⟨s', hs', hnone⟩ := h.root
      rw [hroot] at hs
      cases hs.symm.trans hs'
      cases hsome.symm.trans hnone
    obtain ⟨p, hp, hp'⟩ := h.parent _ s hs hne
    cases hsome.symm.trans hp'
    exact h.enter (Nat.lt_trans hp h.current)
  · exact h

theorem allocateStruct (h : t.Consistent) (hid : id < t.size) :
    (t.allocateStruct id).2.Consistent := by
  unfold SymbolTable.allocateStruct
  split
  · exact h
  · refine (h.newScope (some id) fun o ho => ?_).modifySymbol fun a _ =>
      ⟨rfl, rfl, fun m hm => ?_⟩
    · cases ho
      exact hid
    · cases hm
      show t.scopes.size < (t.scopes.push _).size
      rw [Array.size_push]
      exact Nat.lt_succ_self _

theorem updateType (h : t.Consistent) (id : SymbolId) (type : SymbolType) :
    (t.updateType id type).Consistent :=
  h.modifySymbol fun a ha => ⟨rfl, rfl, fun m hm => h.members id a m ha hm⟩

theorem setMembers (h : t.Consistent) (id : SymbolId) (hscope : scope < t.scopes.size) :
    (t.setMembers id scope).Consistent := by
  refine h.modifySymbol fun a _ => ⟨rfl, rfl, fun m hm => ?_⟩
  cases hm
  exact hscope

theorem setReturns (h : t.Consistent) (id : SymbolId) (type : SymbolType) :
    (t.setReturns id type).Consistent :=
  h.modifySymbol fun a ha => ⟨rfl, rfl, fun m hm => h.members id a m ha hm⟩

theorem empty : SymbolTable.empty.Consistent := by
  have hscope {id : ScopeId} {s : Scope} (hs : SymbolTable.empty.scope? id = some s) :
      id = global ∧ s = ⟨none, none, []⟩ := by
    have hid : id = global := Nat.lt_one_iff.mp (Array.getElem?_eq_some_iff.mp hs).1
    subst hid
    exact ⟨rfl, (Option.some.inj hs).symm⟩
  refine ⟨Nat.zero_lt_one, ⟨_, rfl, rfl⟩, fun id s hs hid => absurd (hscope hs).1 hid,
    fun id s hs => ?_, fun scope name id => ?_, fun id s o hs ho => ?_, fun id s m hs => nomatch hs⟩
  · rw [(hscope hs).2]
    exact List.nodup_nil
  · constructor
    · intro hfind
      obtain ⟨s, hs, hget⟩ := Option.bind_eq_some_iff.mp hfind
      rw [(hscope hs).2] at hget
      cases hget
    · rintro ⟨s, hs, -⟩
      cases hs
  · rw [(hscope hs).2] at ho
    cases ho

theorem initial : SymbolTable.initial.Consistent :=
  List.foldlRecOn BuiltinType.all _ empty fun _ h _ _ => h.insert fun _ hm => nomatch hm

end Consistent

/-! ### Reachable tables -/

/-- What may be done to a table. -/
inductive Operation
  | add (s : Symbol)
  | addIn (scope : ScopeId) (s : Symbol)
  | insert (s : Symbol)
  | push
  | pop
  | enter (scope : ScopeId)
  | allocateStruct (id : SymbolId)
  | updateType (id : SymbolId) (type : SymbolType)
  | setMembers (id : SymbolId) (scope : ScopeId)
  | setReturns (id : SymbolId) (type : SymbolType)

/-- The table after an operation; one that a name stands in the way of does nothing. -/
def Operation.apply (t : SymbolTable) : Operation → SymbolTable
  | add s =>
    match t.add s with
    | .ok (_, u) => u
    | .error _ => t
  | addIn scope s =>
    match t.addIn scope s with
    | .ok (_, u) => u
    | .error _ => t
  | insert s => (t.insert s).2
  | push => t.push
  | pop => t.pop
  | enter scope => t.enter scope
  | allocateStruct id => (t.allocateStruct id).2
  | updateType id type => t.updateType id type
  | setMembers id scope => t.setMembers id scope
  | setReturns id type => t.setReturns id type

/-- A symbol that is added to a scope is bound there, or nothing is done. -/
theorem Operation.apply_addIn (t : SymbolTable) (scope : ScopeId) (s : Symbol) :
    (addIn scope s).apply t = t ∨ (addIn scope s).apply t = t.bindNew scope s := by
  unfold apply
  dsimp only
  split
  · rename_i hadd
    unfold SymbolTable.addIn at hadd
    split at hadd
    · cases hadd
    · cases hadd
      exact .inr rfl
  · exact .inl rfl

/-- The symbols and scopes that an operation names are in the table. -/
def Operation.IsFor (t : SymbolTable) : Operation → Prop
  | add s | insert s => ∀ m ∈ s.members, m < t.scopes.size
  | addIn scope s => scope < t.scopes.size ∧ ∀ m ∈ s.members, m < t.scopes.size
  | push | pop => True
  | enter scope => scope < t.scopes.size
  | allocateStruct id | updateType id _ | setReturns id _ => id < t.size
  | setMembers id scope => id < t.size ∧ scope < t.scopes.size

/-- A table that comes from the empty or the initial one by operations on what is in it. -/
inductive Reached : SymbolTable → Prop
  | empty : Reached .empty
  | initial : Reached .initial
  | step {t : SymbolTable} (op : Operation) : Reached t → op.IsFor t → Reached (op.apply t)

/-- One operation keeps a table consistent. -/
theorem Consistent.apply (h : t.Consistent) {op : Operation} (hop : op.IsFor t) :
    (op.apply t).Consistent := by
  cases op with
  | add s =>
    show Consistent (match t.add s with | .ok (_, u) => u | .error _ => t)
    split
    · exact h.addIn h.current hop ‹_›
    · exact h
  | addIn scope s =>
    show Consistent (match t.addIn scope s with | .ok (_, u) => u | .error _ => t)
    split
    · exact h.addIn hop.1 hop.2 ‹_›
    · exact h
  | insert s => exact h.insert hop
  | push => exact h.push
  | pop => exact h.pop
  | enter scope => exact h.enter hop
  | allocateStruct id => exact h.allocateStruct hop
  | updateType id type => exact h.updateType id type
  | setMembers id scope => exact h.setMembers id hop.2
  | setReturns id type => exact h.setReturns id type

/-- Every table that is reached is consistent. -/
theorem Reached.consistent (h : t.Reached) : t.Consistent := by
  induction h with
  | empty => exact .empty
  | initial => exact .initial
  | step op _ hop ih => exact ih.apply hop

/-- A binding that fails reports what the name is bound to, and that alone makes it fail. -/
theorem addIn_error_iff {e : AlreadyDefined} :
    t.addIn scope s = .error e ↔ e.name = s.name ∧ t.findIn scope s.name = some e.existing := by
  obtain ⟨name, existing⟩ := e
  unfold addIn
  split
  · rename_i found hfind
    simp [hfind, eq_comm]
  · rename_i hfind
    simp [hfind]

/-- **A reachable table is consistent.** Names, bindings and scopes agree, each symbol is bound
once, look-ups follow the parents to the end, and a name that is taken is reported with the symbol
that has it, the table being left alone. -/
theorem consistent_of_reached (h : t.Reached) :
    t.Consistent ∧
    (∀ id < t.size, ∃! b : ScopeId × String, t.findIn b.1 b.2 = some id) ∧
    (∀ i j a b, t.symbol? i = some a → t.symbol? j = some b → a.definedIn = b.definedIn →
      a.name = b.name → i = j) ∧
    (∀ scope name, t.findFrom scope name = (t.scope? scope).bind fun s =>
      (s.get? name).or (s.parent.bind (t.findFrom · name))) ∧
    (∀ scope s e, t.addIn scope s = .error e →
      e.name = s.name ∧ t.findIn scope s.name = some e.existing ∧
        (Operation.addIn scope s).apply t = t) ∧
    (∀ s e, t.add s = .error e →
      e.name = s.name ∧ t.findLocal s.name = some e.existing ∧ (Operation.add s).apply t = t) := by
  have hc := h.consistent
  refine ⟨hc, fun _ => hc.existsUnique_bound, fun _ _ _ _ => hc.eq_of_name, hc.findFrom_eq,
    fun scope s e he => ?_, fun s e he => ?_⟩
  · obtain ⟨hname, hfind⟩ := addIn_error_iff.mp he
    exact ⟨hname, hfind, by simp only [Operation.apply, he]⟩
  · obtain ⟨hname, hfind⟩ := addIn_error_iff.mp he
    exact ⟨hname, hfind, by simp only [Operation.apply, he]⟩

/-- Two scopes may bind one name, one scope may not. -/
theorem consistent_of_shadowing :
    let x := Symbol.new "x" SymbolType.bool .declared
    let t := (Operation.add x).apply (Operation.push.apply ((Operation.add x).apply .empty))
    t.Reached ∧ t.Consistent ∧ (Operation.add x).apply t = t := by
  intro x t
  have h : t.Reached := .step _ (.step _ (.step _ .empty (fun _ hm => nomatch hm)) trivial)
    (fun _ hm => nomatch hm)
  obtain ⟨hc, -, -, -, -, hadd⟩ := consistent_of_reached h
  exact ⟨h, hc, (hadd x ⟨"x", 1⟩ (by decide)).2.2⟩

end SymbolTable

end SableFront
