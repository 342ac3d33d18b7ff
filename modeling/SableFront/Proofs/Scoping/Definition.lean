import SableFront.Proofs.Rollback.Attempt
import SableFront.Proofs.Symbols.Consistent

/-!
# Scoping: what a definition binds

A statement stands in the scope that is current where it starts. A definition binds its name there;
whatever else it binds goes to scopes of its own, and whatever it changes later are symbols that it
has bound itself. `SymbolTable.Scoped` says so of the tables before and after a statement.

Two relations lead there. A table `Declares` a symbol into another if the only difference is that
the current scope may have gained the symbol, and a table `Spares` another if it has all symbols and
scopes of it as they were, but for one symbol: a definition first declares its name, and its
parameters and its body then spare the table that this gives.
-/

namespace SableFront

namespace Grammar

/-- What a statement may bind in the scope that it stands in. -/
inductive Introduced
  | nothing
  /-- The name of a class, an enum or a function. -/
  | name (text : String)
  /-- An operator, whose definition may take the place of an earlier one in the scope. -/
  | operator (o : Operator)
  deriving DecidableEq

/-- The name that is bound. -/
def Introduced.bound? : Introduced → Option String
  | nothing => none
  | name text => some text
  | operator o => some (operatorName o)

end Grammar

open Grammar

namespace SymbolTable

/-- **The law of scoping**, for the table `t` before a statement and the table `u` after it. The
same scope is current. Every old scope is as it was, except that the current one may have gained one
binding, of the name that the statement introduces, to a new symbol. Every old symbol is as it was,
except for the one that the current scope binds the introduced operator to. -/
structure Scoped (t u : SymbolTable) (what : Introduced) : Prop where
  current : u.current = t.current
  scope : ∀ id < t.scopes.size, u.scope? id = t.scope? id ∨
    id = t.current ∧ ∃ name ∈ what.bound?, t.findLocal name = none ∧
      ∃ new, t.size ≤ new ∧ u.scope? id = (t.scope? id).map (·.bind name new)
  symbol : ∀ id < t.size, u.symbol? id = t.symbol? id ∨
    ∃ o, what = .operator o ∧ t.findLocal (operatorName o) = some id

/-- The table `u` has all that the table `t` has as it was there, but for one symbol. -/
structure Spares (t u : SymbolTable) (id : Option SymbolId) : Prop where
  scope : ∀ i < t.scopes.size, u.scope? i = t.scope? i
  symbol : ∀ i < t.size, i ∉ id → u.symbol? i = t.symbol? i

/-- The current scope of `t` is asked to bind a symbol, which gives `u`, and an index if the symbol
is bound. -/
inductive Declares (t : SymbolTable) (s : Symbol) : SymbolTable → Option SymbolId → Prop
  /-- The name is bound already. -/
  | taken : Declares t s t none
  | fresh (h : t.findLocal s.name = none) : Declares t s (t.bindNew t.current s) (some t.size)

variable {t u v : SymbolTable} {id : Option SymbolId} {s : Symbol} {what : Introduced}

/-! ### Tables that spare others -/

theorem Beyond.spares (h : t.Beyond u) (id : Option SymbolId) : t.Spares u id :=
  ⟨h.scope, fun i hi _ => h.symbol i hi⟩

namespace Spares

theorem trans (h : t.Spares u id) (h' : u.Spares v id) (hsize : t.size ≤ u.size)
    (hscopes : t.scopes.size ≤ u.scopes.size) : t.Spares v id where
  scope i hi := (h'.scope i (Nat.lt_of_lt_of_le hi hscopes)).trans (h.scope i hi)
  symbol i hi hne := (h'.symbol i (Nat.lt_of_lt_of_le hi hsize) hne).trans (h.symbol i hi hne)

theorem enter (h : t.Spares u id) (scope : ScopeId) : t.Spares (u.enter scope) id :=
  ⟨h.scope, h.symbol⟩

/-- The symbol that is not spared may be changed. -/
theorem modifySymbol (t : SymbolTable) (i : SymbolId) (f : Symbol → Symbol) :
    t.Spares (t.modifySymbol i f) (some i) where
  scope _ _ := rfl
  symbol j _ hne := by
    show (t.symbols.modify i f)[j]? = _
    rw [Array.getElem?_modify, if_neg fun h => hne (congrArg some h)]
    rfl

/-- The symbol that is not spared may be replaced. -/
theorem replace (t : SymbolTable) (i : SymbolId) (s : Symbol) :
    t.Spares { t with symbols := t.symbols.setIfInBounds i s } (some i) where
  scope _ _ := rfl
  symbol _ _ hne := Array.getElem?_setIfInBounds_ne fun h => hne (congrArg some h)

end Spares

/-! ### The law of scoping -/

namespace Scoped

theorem refl (t : SymbolTable) (what : Introduced) : t.Scoped t what :=
  ⟨rfl, fun _ _ => .inl rfl, fun _ _ => .inl rfl⟩

/-- A table that is spared whole is as it was. -/
theorem of_spares (h : t.Spares u none) (hcurrent : u.current = t.current) (what : Introduced) :
    t.Scoped u what :=
  ⟨hcurrent, fun i hi => .inl (h.scope i hi),
    fun i hi => .inl (h.symbol i hi (Option.not_mem_none i))⟩

/-- A definition binds its name, and then spares all but the symbol that it has bound. -/
theorem of_declares (hdeclares : t.Declares s u id) (hspares : u.Spares v id)
    (hcurrent : v.current = t.current) (hwhat : what.bound? = some s.name) : t.Scoped v what := by
  cases hdeclares with
  | taken => exact of_spares hspares hcurrent what
  | fresh hfree =>
    have hsize : (t.bindNew t.current s).scopes.size = t.scopes.size := Array.size_modify
    have hgrown : (t.bindNew t.current s).size = t.size + 1 := Array.size_push _
    refine ⟨hcurrent, fun i hi => ?_, fun i hi => .inl ?_⟩
    · rw [hspares.scope i (hsize ▸ hi), scope?_bindNew]
      by_cases hi' : t.current = i
      · exact .inr ⟨hi'.symm, s.name, hwhat, hfree, t.size, Nat.le_refl _, if_pos hi'⟩
      · exact .inl (if_neg hi')
    · have hne : i ≠ t.size := Nat.ne_of_lt hi
      rw [hspares.symbol i (hgrown ▸ Nat.lt_succ_of_lt hi) fun h => hne (Option.some.inj h).symm,
        symbol?_bindNew, if_neg hne]

/-- An operator takes the place of the one that its scope binds already, and no other symbol is
changed. -/
theorem of_replaced {o : Operator} {i : SymbolId} (hfind : t.findLocal (operatorName o) = some i)
    (h : t.Spares u (some i)) (hcurrent : u.current = t.current) : t.Scoped u (.operator o) := by
  refine ⟨hcurrent, fun j hj => .inl (h.scope j hj), fun j hj => ?_⟩
  by_cases hji : j = i
  · exact .inr ⟨o, rfl, hji ▸ hfind⟩
  · exact .inl (h.symbol j hj fun hmem => hji (Option.some.inj hmem).symm)

/-- A table that is spared but for what it was asked to bind, or to put in the place of another, has
kept the law of scoping. -/
theorem of_insert {o : Operator} (hname : s.name = operatorName o)
    (h : (t.insert s).2.Spares u (some (t.insert s).1)) (hcurrent : u.current = t.current) :
    t.Scoped u (.operator o) := by
  unfold SymbolTable.insert at h
  split at h
  · rename_i i hfind
    exact .of_replaced (hname ▸ hfind) ((Spares.replace t i _).trans h
      (Nat.le_of_eq Array.size_setIfInBounds.symm) (Nat.le_refl _)) hcurrent
  · rename_i hfree
    exact .of_declares (.fresh hfree) h hcurrent (congrArg some hname.symm)

end Scoped

namespace Declares

theorem current (h : t.Declares s u id) : u.current = t.current := by
  cases h with
  | taken => rfl
  | fresh => rfl

/-- The table lies beyond the one that has the binding but not yet the symbol. -/
theorem beyond (h : t.Declares s u id) : Beyond { u with symbols := t.symbols } u := by
  cases h with
  | taken => exact .refl t
  | fresh =>
    refine Beyond.of_symbols (t := { t.bindNew t.current s with symbols := t.symbols }) (.refl _) ?_ ?_
    · show t.symbols.size ≤ (t.symbols.push _).size
      rw [Array.size_push]
      exact Nat.le_succ _
    · intro i hi
      exact (symbol?_bindNew t t.current s i).trans (if_neg (Nat.ne_of_lt hi))

/-- What lies beyond the table without the new symbol spares the table but for that symbol. -/
theorem spares (h : t.Declares s u id) (hv : Beyond { u with symbols := t.symbols } v) :
    u.Spares v id := by
  refine ⟨hv.scope, fun i hi hne => ?_⟩
  have hlt : i < t.size := by
    cases h with
    | taken => exact hi
    | fresh =>
      have hgrown : (t.bindNew t.current s).size = t.size + 1 := Array.size_push _
      have hother : i ≠ t.size := fun h => hne (congrArg some h.symm)
      omega
  exact (hv.symbol i hlt).trans (h.beyond.symbol i hlt).symm

/-- The symbol that is bound is the one that was asked for. -/
theorem symbol (h : t.Declares s u id) : ∀ i ∈ id, t.size ≤ i ∧ i < u.size ∧
    u.symbol? i = some { s with definedIn := t.current } := by
  intro i hi
  cases h with
  | taken => exact absurd hi (Option.not_mem_none i)
  | fresh hfree =>
    cases hi
    have hlt : t.size < (t.bindNew t.current s).size :=
      Nat.lt_of_lt_of_eq (Nat.lt_succ_self _) (Array.size_push _).symm
    exact ⟨Nat.le_refl _, hlt, (symbol?_bindNew _ _ _ _).trans (if_pos rfl)⟩

end Declares

end SymbolTable

namespace Grammar

variable {r : Rules} {s t : State} {id : Option SymbolId}

/-! ### Steps of definitions -/

/-- Where no template header waits, there is no note to take. -/
theorem meets_noTemplateScope {α : Type} {c c' : Option ScopeId → Production α}
    {Q : α → State → Prop} {E : SyntaxError → State → Prop} (hnote : s.templateScope = none) :
    Meets s (takeTemplateScope >>= c) (takeTemplateScope >>= c') Q E ↔
      Meets s (c none) (c' none) Q E := by
  have hsame : { s with templateScope := none } = s := by rw [← hnote]
  rw [meets_takeTemplateScope, hsame, hnote]

/-- What is introduced is named next, or nothing is introduced. -/
theorem scoped_expectIdent (what : Introduced) :
    Meets s expectIdent expectIdent
      (fun ident t => ident = (s.current.text?.getD "", s.current) ∧ t = s.advance)
      fun _ t => s.symbols.Scoped t.symbols what := by
  have he := outcome_expectIdent s
  split at he
  · exact .result _ _ he he ⟨rfl, rfl⟩
  · exact .failure _ _ he he (.refl _ _)

theorem meets_declareHere (hnote : s.templateScope = none) (name : Node) (symbol : Symbol)
    (role : Role) {E : SyntaxError → State → Prop} :
    Meets s (declare name symbol s.symbols.current role) (declare name symbol s.symbols.current role)
      (fun declared t => t.templateScope = none ∧
        s.symbols.Declares symbol t.symbols declared.2) E := by
  unfold declare
  rw [meets_get]
  cases hfind : s.symbols.findIn s.symbols.current symbol.name with
  | none =>
    have hadd : s.symbols.addIn s.symbols.current symbol =
        .ok (s.symbols.size, s.symbols.bindNew s.symbols.current symbol) := by
      rw [SymbolTable.addIn, hfind]
    rw [hadd]
    dsimp only
    rw [meets_set]
    exact .pure ⟨hnote, .fresh hfind⟩
  | some existing =>
    have hadd : s.symbols.addIn s.symbols.current symbol = .error ⟨symbol.name, existing⟩ := by
      rw [SymbolTable.addIn, hfind]
    rw [hadd]
    dsimp only
    rw [meets_record]
    split
    all_goals
      refine .pure ⟨(s.templateScope_record _).trans hnote, ?_⟩
      rw [s.symbols_record]
      exact .taken

/-- A state goes on where another stands, in the same scope and with all of its symbols but one. -/
def State.Continues (s : State) (id : Option SymbolId) (t : State) : Prop :=
  s.symbols.Spares t.symbols id ∧ t.symbols.current = s.symbols.current

/-- **Parameters, return type and body** spare all symbols but the one that is told what it
returns. -/
theorem meets_newSignature (h : r.Framed) (hnote : s.templateScope = none)
    (id : Option SymbolId) :
    Meets s (inNewScope (signatureAndBody r id)) (inNewScope (signatureAndBody r id))
      (fun _ => s.Continues id) fun _ => s.Continues id := by
  obtain ⟨hpush, hopen⟩ :=
    Discipline.Binds.push (D := (Frame.ofState s).discipline) (Frame.holds_ofState hnote)
  have hback {t : State} (ht : s.symbols.Spares t.symbols id) :
      s.Continues id { t with symbols := t.symbols.enter s.symbols.current } := ⟨ht.enter _, rfl⟩
  have hbody (f : Frame) (w : Place) (sig : Signature) :
      Preserves (f.Holds w) (body r >>= fun body => pure (sig, body)) fun _ => True :=
    (obeys_body (h f)).bind fun _ _ => .pure trivial
  unfold signatureAndBody
  refine Meets.inScope (Meets.bind ((obeys_signature (h _) hopen hpush).mono
    (fun _ _ ht => ht.1) fun _ t ht => hback (ht.table.spares id)) fun sig t ht => ?_)
  cases id with
  | none =>
    exact (hbody _ _ sig ht).mono (fun _ _ hu => hback (hu.1.table.spares none))
      fun _ _ hu => hback (hu.table.spares none)
  | some i =>
    dsimp only
    rw [meets_modify]
    -- the body is read in the table where the symbol has its return type
    let told : State := { t with symbols := t.symbols.setReturns i sig.returnType }
    have htold : (Frame.ofState told).Holds told.place told := Frame.holds_ofState ht.quiet
    have hspares {u : State} (hu : (Frame.ofState told).Holds told.place u) :
        s.symbols.Spares u.symbols (some i) :=
      (ht.table.spares (some i)).trans
        ((SymbolTable.Spares.modifySymbol _ i _).trans (hu.table.spares (some i))
          (Nat.le_of_eq Array.size_modify.symm) (Nat.le_refl _))
        ht.table.size_le ht.table.scopes_le
    exact (hbody _ _ sig htold).mono (fun _ _ hu => hback (hspares hu.1))
      fun _ _ hu => hback (hspares hu)

/-! ### Definitions -/

/-- A function binds its name. -/
theorem scoped_functionDef (h : r.Framed) (hnote : s.templateScope = none)
    (visibility storage : Option Node) :
    Meets s (functionDef r visibility storage) (functionDef r visibility storage)
      (fun _ t => s.symbols.Scoped t.symbols (.name (s.advance.current.text?.getD "")))
      fun _ t => s.symbols.Scoped t.symbols (.name (s.advance.current.text?.getD "")) := by
  rw [← s.symbols_advance]
  unfold functionDef
  rw [meets_advance]
  replace hnote : s.advance.templateScope = none := s.templateScope_advance.trans hnote
  generalize s.advance = t at hnote ⊢
  rw [meets_noTemplateScope hnote, meets_get, Option.getD_none]
  refine (scoped_expectIdent _).bind fun ident u hi => ?_
  obtain ⟨rfl, rfl⟩ := hi
  rw [← t.symbols_advance]
  dsimp only
  generalize hsymbol : Symbol.new _ _ _ = symbol
  have hquiet : t.advance.templateScope = none := t.templateScope_advance.trans hnote
  refine (meets_declareHere hquiet _ symbol _).bind fun declared u hu => ?_
  obtain ⟨hu, hdeclares⟩ := hu
  have hscoped {v : State} (hv : u.Continues declared.2 v) :
      t.advance.symbols.Scoped v.symbols (.name (t.current.text?.getD "")) := by
    refine .of_declares hdeclares hv.1 (hv.2.trans hdeclares.current) ?_
    rw [← hsymbol]
    rfl
  exact ((meets_newSignature h hu declared.2).mono (fun _ _ hv => hv) fun _ _ hv => hscoped hv).bind
    fun found v hv => .pure (hscoped hv)

/-- What an operator definition introduces whose keyword has been read. -/
def State.operatorHere (s : State) : Introduced :=
  match s.current.kind with
  | .operator o => .operator o
  | _ => .nothing

theorem outcome_bindOperator (s : State) (symbol : Symbol) :
    outcome (bindOperator none symbol) s =
      (.ok (some (s.symbols.insert symbol).1), { s with symbols := (s.symbols.insert symbol).2 }) := rfl

/-- An operator is bound, or takes the place of the one that is bound already. -/
theorem scoped_operatorDef (h : r.Framed) (hnote : s.templateScope = none)
    (visibility storage : Option Node) :
    Meets s (operatorDef r visibility storage) (operatorDef r visibility storage)
      (fun _ t => s.symbols.Scoped t.symbols s.advance.operatorHere)
      fun _ t => s.symbols.Scoped t.symbols s.advance.operatorHere := by
  unfold operatorDef
  rw [meets_advance, ← s.symbols_advance]
  replace hnote : s.advance.templateScope = none := s.templateScope_advance.trans hnote
  generalize s.advance = t at hnote ⊢
  rw [meets_noTemplateScope hnote, meets_current]
  split
  · rename_i o hkind
    have hquiet : t.advance.templateScope = none := t.templateScope_advance.trans hnote
    have hwhat : t.operatorHere = .operator o := by rw [State.operatorHere, hkind]
    rw [meets_advance, ← t.symbols_advance, hwhat]
    generalize hsymbol : Symbol.new (operatorName o) _ _ = symbol
    generalize t.advance = u at hquiet ⊢
    refine (meets_step (outcome_bindOperator u symbol) (outcome_bindOperator u symbol)).mpr ?_
    let bound : State := { u with symbols := (u.symbols.insert symbol).2 }
    have hscoped {v : State} (hv : bound.Continues (some (u.symbols.insert symbol).1) v) :
        u.symbols.Scoped v.symbols (.operator o) :=
      .of_insert (hsymbol ▸ rfl) hv.1 (hv.2.trans (SymbolTable.current_insert _ _))
    exact ((meets_newSignature (s := bound) h hquiet _).mono (fun _ _ hv => hv)
      fun _ _ hv => hscoped hv).bind fun found v hv => .pure (hscoped hv)
  · exact .failFor (.refl _ _)

/-- A class or an enum binds its name. What its body binds goes to the scope of its members. -/
theorem scoped_classDef (h : r.Framed) (hnote : s.templateScope = none) (visibility : Option Node) :
    Meets s (classDef r visibility) (classDef r visibility)
      (fun _ t => s.symbols.Scoped t.symbols (.name (s.advance.current.text?.getD "")))
      fun _ t => s.symbols.Scoped t.symbols (.name (s.advance.current.text?.getD "")) := by
  rw [← s.symbols_advance]
  unfold classDef
  rw [meets_advance]
  dsimp only
  replace hnote : s.advance.templateScope = none := s.templateScope_advance.trans hnote
  generalize s.advance = t at hnote ⊢
  rw [meets_noTemplateScope hnote, meets_get, Option.getD_none]
  refine (scoped_expectIdent _).bind fun ident u hi => ?_
  obtain ⟨rfl, rfl⟩ := hi
  rw [← t.symbols_advance]
  dsimp only
  generalize hsymbol : Symbol.new _ _ _ = symbol
  have hquiet : t.advance.templateScope = none := t.templateScope_advance.trans hnote
  refine (meets_declareHere hquiet _ symbol _).bind fun declared u hu => ?_
  obtain ⟨hu, hdeclares⟩ := hu
  -- the rest stays in the frame where the name is bound but its symbol is not there yet
  let f : Frame := ⟨{ u.symbols with symbols := t.advance.symbols.symbols }, []⟩
  have hbase : f.Holds u.place u := by
    refine ⟨hdeclares.beyond, List.nil_prefix, fun outer ho => ?_, rfl⟩
    rw [hu] at ho
    exact absurd ho (Option.not_mem_none _)
  have hscoped {v : State} (hv : f.Holds u.place v) :
      t.advance.symbols.Scoped v.symbols (.name (t.current.text?.getD "")) := by
    refine .of_declares hdeclares (hdeclares.spares hv.table) (hv.current.trans hdeclares.current) ?_
    rw [← hsymbol]
    rfl
  refine Meets.mono (?_ : Meets _ _ _ (fun _ => f.Holds u.place) fun _ => f.Holds u.place)
    (fun _ _ hv => hscoped hv) fun _ _ hv => hscoped hv
  refine (meets_bases (h f) h.leaves hbase hu).bind fun bases v hv => ?_
  obtain ⟨⟨hv, -⟩, hkept⟩ := hv
  rw [meets_isAt]
  split
  · refine (meets_memberScope hv fun i hi => ?_).bind fun enter w hw => ?_
    · obtain ⟨hle, hlt, hbound⟩ := hdeclares.symbol i hi
      refine ⟨hle, ?_⟩
      rw [hkept i hlt, hbound, ← hsymbol]
      rfl
    · exact (obeys_block (h f) hw.2 _ hw.1).bind fun body x hx => .pure hx.1
  · exact .fail hv

end Grammar

end SableFront
