import SableFront.Tree.ValueType
import SableFront.Proofs.Survey.Reading

/-!
# Symbols: names and what they are bound to

A name of a program that is bound to a symbol is the name of that symbol. It is bound while the
program is read, when the table is not yet the final one, and possibly in an attempt that is given
up later: but symbols are never removed, and what takes the place of a symbol has its name
(`Operation.name_apply`). So names and symbols still agree in the end, and whatever is looked up for
a node of the program is found.
-/

namespace SableFront

namespace SymbolTable

variable {t : SymbolTable} {id : SymbolId} {s : Symbol}

/-! ### What operations leave -/

theorem name_modifySymbol (hs : t.symbol? id = some s) (i : SymbolId) {f : Symbol → Symbol}
    (hf : ∀ a, (f a).name = a.name) :
    ∃ s', (t.modifySymbol i f).symbol? id = some s' ∧ s'.name = s.name := by
  have hsymbol : (t.modifySymbol i f).symbol? id =
      if i = id then (t.symbol? id).map f else t.symbol? id := Array.getElem?_modify
  rw [hsymbol, hs]
  split
  · exact ⟨f s, rfl, hf s⟩
  · exact ⟨s, rfl, rfl⟩

theorem name_bindNew (hs : t.symbol? id = some s) (scope : ScopeId) (new : Symbol) :
    ∃ s', (t.bindNew scope new).symbol? id = some s' ∧ s'.name = s.name := by
  rw [symbol?_bindNew, if_neg (Nat.ne_of_lt (lt_of_symbol? hs))]
  exact ⟨s, hs, rfl⟩

/-- What takes the place of a symbol has its name. -/
theorem Consistent.name_insert (h : t.Consistent) (hs : t.symbol? id = some s) (new : Symbol) :
    ∃ s', (t.insert new).2.symbol? id = some s' ∧ s'.name = s.name := by
  unfold SymbolTable.insert
  split
  · rename_i found hfind
    by_cases hid : found = id
    · subst hid
      obtain ⟨old, hold, hname⟩ := h.name_of_findIn hfind
      cases hs.symm.trans hold
      exact ⟨_, Array.getElem?_setIfInBounds_self_of_lt (lt_of_symbol? hs), hname.symm⟩
    · exact ⟨s, (Array.getElem?_setIfInBounds_ne hid).trans hs, rfl⟩
  · exact name_bindNew hs _ _

/-- **No operation removes a symbol or gives it another name.** -/
theorem Operation.name_apply (h : t.Consistent) (hs : t.symbol? id = some s) (op : Operation) :
    ∃ s', (op.apply t).symbol? id = some s' ∧ s'.name = s.name := by
  have hsame : ∃ s', t.symbol? id = some s' ∧ s'.name = s.name := ⟨s, hs, rfl⟩
  have haddIn (scope : ScopeId) (new : Symbol) :
      ∃ s', ((Operation.addIn scope new).apply t).symbol? id = some s' ∧ s'.name = s.name := by
    rcases apply_addIn t scope new with hkept | hnew
    · rwa [hkept]
    · rw [hnew]
      exact name_bindNew hs scope new
  cases op with
  | add new => exact haddIn t.current new
  | addIn scope new => exact haddIn scope new
  | insert new => exact h.name_insert hs new
  | push => exact hsame
  | pop =>
    simp only [apply, SymbolTable.pop]
    split <;> exact hsame
  | enter scope => exact hsame
  | allocateStruct i =>
    simp only [apply, SymbolTable.allocateStruct]
    split
    · exact hsame
    · exact name_modifySymbol (t := t.newScope (some i)) hs i fun _ => rfl
  | updateType i type => exact name_modifySymbol hs i fun _ => rfl
  | setMembers i scope => exact name_modifySymbol hs i fun _ => rfl
  | setReturns i type => exact name_modifySymbol hs i fun _ => rfl

/-- The scope that binds a symbol exists. -/
theorem Consistent.definedIn (h : t.Consistent) (hs : t.symbol? id = some s) :
    ∃ scope, t.scope? s.definedIn = some scope := by
  obtain ⟨scope, hscope, -⟩ := Option.bind_eq_some_iff.mp ((h.bound _ _ _).mpr ⟨s, hs, rfl, rfl⟩)
  exact ⟨scope, hscope⟩

/-- Like `isMember`, where the symbol and its scope have to be there. -/
def isMember? (t : SymbolTable) (id : SymbolId) : Option Bool := do
  let s ← t.symbol? id
  let scope ← t.scope? s.definedIn
  return scope.owner.isSome

theorem Consistent.isMember?_eq (h : t.Consistent) (hid : id < t.size) :
    t.isMember? id = some (t.isMember id) := by
  have hs : t.symbol? id = some t.symbols[id] := Array.getElem?_eq_getElem hid
  obtain ⟨scope, hscope⟩ := h.definedIn hs
  simp [isMember?, isMember, hs, hscope]

end SymbolTable

theorem Ident.Coherent.apply {t : SymbolTable} {i : Ident} (h : i.Coherent t) (ht : t.Consistent)
    (op : SymbolTable.Operation) : i.Coherent (op.apply t) := by
  refine ⟨fun id hid => ?_, h.declared⟩
  obtain ⟨s, hs, hname⟩ := h.symbol id hid
  obtain ⟨s', hs', hname'⟩ := op.name_apply ht hs
  exact ⟨s', hs', hname'.trans hname⟩

namespace Node

variable {table : SymbolTable} {n : Node} {ps : List Piece}

/-! ### Nodes whose names are bound well -/

/-- If the node is a name, it agrees with its symbol. -/
def Resolved (table : SymbolTable) (n : Node) : Prop := ∀ i, n.ident? = some i → i.Coherent table

theorem resolved_build {form : Form} (hform : form.isFresh) (table : SymbolTable) (anchor : Token)
    (children : List Node) (marks : List Token) (further : List Span) :
    (build form anchor children marks further).Resolved table := by
  rintro i hi
  cases form
  case ident j =>
    cases hi
    obtain ⟨hnone, hdeclaration⟩ := Bool.and_eq_true_iff.mp hform
    refine ⟨fun id hid => ?_, fun h => ?_⟩
    · rw [Option.isNone_iff_eq_none.mp hnone] at hid
      cases hid
    · rw [h] at hdeclaration
      cases hdeclaration
  all_goals cases hi

/-- A node that is made is a name that agrees with its symbol, if those that it is made from are. -/
theorem Makes.resolved (h : Makes table ps n) (hps : ∀ k, .node k ∈ ps → k.Resolved table) :
    n.Resolved table := by
  cases h with
  | build hps => exact resolved_build hps.fresh _ _ _ _ _
  | @literal token =>
    refine resolved_build ?_ table token [] [] []
    split <;> rfl
  | enclosed k | marked k | markedFirst _ k | extended k _ => exact hps k (by simp)
  | commented leading trailing k => exact hps k (by simp)
  | @bound k f hf _ =>
    intro i hi
    rw [ident?_modifyIdent] at hi
    obtain ⟨j, hj, rfl⟩ := Option.map_eq_some_iff.mp hi
    exact hf j hj (hps k (by simp) j hj)

mutual

/-- What a node is bound to is in the table. -/
theorem symbol?_of_boundSymbol? {id : SymbolId} : ∀ n : Node, n.Everywhere (Resolved table) →
    n.boundSymbol? = some id → ∃ s, table.symbol? id = some s
  | mk data children, h, hid => by
    rw [boundSymbol?] at hid
    split at hid
    · rename_i i hform
      have hident : (mk data children).ident? = some i := by
        rw [ident?, form, Node.data, hform]
      obtain ⟨s, hs, -⟩ := (h.self i hident).symbol id hid
      exact ⟨s, hs⟩
    · exact symbol?_of_lastSymbol? children (everywhere_iff.mp h).2 hid
    · cases hid

theorem symbol?_of_lastSymbol? {id : SymbolId} : ∀ ns : List Node,
    (∀ n ∈ ns, n.Everywhere (Resolved table)) → lastSymbol? ns = some id →
      ∃ s, table.symbol? id = some s
  | [], _, hid => by cases hid
  | [n], h, hid => symbol?_of_boundSymbol? n (h n List.mem_cons_self) hid
  | _ :: n :: ns, h, hid =>
    symbol?_of_lastSymbol? (n :: ns) (fun m hm => h m (List.mem_cons_of_mem _ hm)) hid

end

/-! ### Types of values, where nothing may be missing -/

/-- What is worked out from the symbol of a node that is bound; the symbol has to be there. -/
def ofSymbol? (table : SymbolTable) (f : Symbol → SymbolType) (n : Node) : Option SymbolType :=
  match n.boundSymbol? with
  | some id => (table.symbol? id).map f
  | none => some .unknown

/-- Like `valueType`, where all symbols that are looked up have to be there. -/
def valueType? (table : SymbolTable) : Node → Option SymbolType
  | mk data children =>
    match data.form, children with
    | .int _, _ => some (.int .w32 true)
    | .float _ single, _ => some (.float (if single then .w32 else .w64))
    | .str _, _ => some .string
    | .char _, _ => some .char
    | .bool _, _ => some .bool
    | .null, _ => some .pointer
    | .list, _ => some .list
    | .dict, _ => some .dict
    | .ident _, _ | .dotted, _ => (mk data children).ofSymbol? table (·.type)
    | .binary, [left, right] =>
      match data.token.kind.opClass? with
      | some .relational | some .logical => some .bool
      | _ =>
        (valueType? table left).bind fun type =>
          (valueType? table right).map (SymbolType.promote type)
    | .between, _ => some .bool
    | .invert, [operand] =>
      match data.token.kind with
      | .operator .bang | .operator .notWord => some .bool
      | _ => valueType? table operand
    | .stepBefore, [operand] | .stepAfter, [operand] => valueType? table operand
    | .deref, [operand] => (valueType? table operand).map (·.without .pointer)
    | .call _, callee :: _ => callee.ofSymbol? table callType
    | .index, target :: _ =>
      (valueType? table target).map fun type => if type = .string then .char else .unknown
    | .slice .., target :: _ => valueType? table target
    | .new _, type :: _ =>
      match type.referredType? with
      | some t => some (t.forValue.append .pointer)
      | none => some .pointer
    | .lambda _, _ => some .function
    | .assignment, [_, value] => valueType? table value
    | _, _ => some .unknown

theorem ofSymbol?_eq (h : n.Everywhere (Resolved table)) (f : Symbol → SymbolType) :
    n.ofSymbol? table f = some (((n.boundSymbol?.bind table.symbol?).map f).getD .unknown) := by
  unfold ofSymbol?
  cases hbound : n.boundSymbol? with
  | none => rfl
  | some id =>
    obtain ⟨s, hs⟩ := symbol?_of_boundSymbol? n h hbound
    simp [hs]

/-- One step of the work: the types of the children are known. -/
theorem valueType?_step {data : NodeData} {children : List Node}
    (h : (mk data children).Everywhere (Resolved table))
    (hchildren : ∀ c ∈ children, c.valueType? table = some (c.valueType table)) :
    (mk data children).valueType? table = some ((mk data children).valueType table) := by
  have hself := ofSymbol?_eq h (·.type)
  have hbelow := (everywhere_iff.mp h).2
  obtain ⟨form, ⟨kind, _, _, _, _, _⟩, _, _, _, _⟩ := data
  -- on the form, which tells how many of the children are looked at
  cases form
  case ident | dotted => exact hself
  case binary =>
    rcases children with _ | ⟨left, _ | ⟨right, _ | _⟩⟩
    case cons.cons.nil =>
      have hboth : ((valueType? table left).bind fun type =>
          (valueType? table right).map (SymbolType.promote type)) =
            some (SymbolType.promote (left.valueType table) (right.valueType table)) := by
        rw [hchildren left (by simp), hchildren right (by simp)]
        rfl
      cases kind with
      | operator o => cases o <;> first | rfl | exact hboth
      | _ => exact hboth
    all_goals rfl
  case invert =>
    rcases children with _ | ⟨operand, _ | _⟩
    case cons.nil =>
      have hoperand := hchildren operand (by simp)
      cases kind with
      | operator o => cases o <;> first | rfl | exact hoperand
      | _ => exact hoperand
    all_goals rfl
  case stepBefore | stepAfter =>
    rcases children with _ | ⟨operand, _ | _⟩
    case cons.nil => exact hchildren operand (by simp)
    all_goals rfl
  case deref =>
    rcases children with _ | ⟨operand, _ | _⟩
    case cons.nil => exact congrArg (Option.map (·.without .pointer)) (hchildren operand (by simp))
    all_goals rfl
  case call =>
    rcases children with _ | ⟨callee, _⟩
    · rfl
    · exact ofSymbol?_eq (hbelow callee List.mem_cons_self) callType
  case index =>
    rcases children with _ | ⟨target, _⟩
    · rfl
    · exact congrArg
        (Option.map fun type => if type = SymbolType.string then SymbolType.char else .unknown)
        (hchildren target List.mem_cons_self)
  case slice =>
    rcases children with _ | ⟨target, _⟩
    · rfl
    · exact hchildren target List.mem_cons_self
  case new =>
    rcases children with _ | ⟨⟨⟨type, _, _, _, _, _⟩, _⟩, _⟩
    · rfl
    · cases type <;> rfl
  case assignment =>
    rcases children with _ | ⟨_, _ | ⟨value, _ | _⟩⟩
    case cons.cons.nil => exact hchildren value (by simp)
    all_goals rfl
  all_goals rfl

mutual

/-- Where names agree with their symbols, nothing is missing. -/
theorem valueType?_eq : ∀ n : Node, n.Everywhere (Resolved table) →
    n.valueType? table = some (n.valueType table)
  | mk _ children, h => valueType?_step h (all_valueType?_eq children (everywhere_iff.mp h).2)

theorem all_valueType?_eq : ∀ ns : List Node, (∀ n ∈ ns, n.Everywhere (Resolved table)) →
    ∀ n ∈ ns, n.valueType? table = some (n.valueType table)
  | [], _, _, hn => by cases hn
  | first :: others, h, m, hm => by
    rcases List.mem_cons.mp hm with hfirst | hm
    · rw [hfirst]
      exact valueType?_eq first (h first List.mem_cons_self)
    · exact all_valueType?_eq others (fun k hk => h k (List.mem_cons_of_mem _ hk)) m hm

end

end Node

namespace Grammar

open Node

/-! ### The survey of names -/

/-- All names in hand agree with their symbols. -/
def Naming (ps : List Piece) (s : State) : Prop := Piece.AllNodes (Resolved s.symbols) ps

theorem loose_naming : Survey.Loose (fun _ => True) Naming where
  fit_current _ := trivial
  fit _ _ := trivial
  congr {ps s t} h _ _ _ hsymbols _ := by
    rw [Naming, hsymbols]
    exact h
  sublist h hqs := Piece.AllNodes.subset h hqs.subset
  mind h hmental := Piece.AllNodes.insert h (Piece.node?_of_isMental hmental)
  advance {ps s _} h _ := by
    rw [Naming, State.symbols_advance]
    exact Piece.AllNodes.push h (.inl rfl)
  split h _ := h
  record {ps s e} h _ := by
    unfold State.record
    split <;> exact h
  missing h := Piece.AllNodes.push h (.inr ⟨_, _, rfl, resolved_build rfl _ _ _ _ _⟩)
  make h hn :=
    Piece.AllNodes.make h hn (hn.resolved fun k hk => Everywhere.self (h k (by simp [hk])))
  collect h _ _ := Piece.AllNodes.collect h fun _ _ => resolved_build rfl _ _ _ _ _
  operate {ps s op} h hreached _ :=
    Piece.AllNodes.mono h fun _ hm i hi => (hm i hi).apply hreached.consistent op
  rewind _ ht := Piece.AllNodes.mono ht fun _ hm i hi => ⟨(hm i hi).symbol, (hm i hi).declared⟩

end Grammar

open Node

/-- **Names agree with their symbols.** Every name of a program that is bound to a symbol has the
name of that symbol in the final table, and a name that is introduced is bound. All scopes that are
stored in the table exist. So the type of every value and the role of every symbol are worked out
without looking up anything that is not there. -/
theorem names_agree_with_symbols (source : String) (config : ParseConfig) :
    let p := Program.parse source config
    (∀ n ∈ walkAll p.nodes, ∀ i, n.ident? = some i →
      (∀ id, i.symbol = some id → ∃ s, p.symbols.symbol? id = some s ∧ s.name = i.name) ∧
      (i.declaration = true → ∃ id, i.symbol = some id)) ∧
    (∀ id s, p.symbols.symbol? id = some s →
      (∃ scope, p.symbols.scope? s.definedIn = some scope) ∧
      ∀ m, s.members = some m → ∃ scope, p.symbols.scope? m = some scope) ∧
    (∀ n ∈ walkAll p.nodes, n.valueType? p.symbols = some (n.valueType p.symbols)) ∧
    ∀ id < p.symbols.size, p.symbols.isMember? id = some (p.symbols.isMember id) := by
  intro p
  have hstart : Grammar.Naming [] (Grammar.State.start source config) := Piece.AllNodes.nil
  obtain ⟨s, hholds, -, hsymbols, hreached⟩ :=
    Grammar.Survey.reading_keeps (Grammar.loose_naming.whole _) hstart
  rw [hsymbols] at hreached
  have hconsistent : p.symbols.Consistent := hreached.consistent
  have hall : Piece.AllNodes (Resolved p.symbols) (p.nodes.map .node) := hsymbols ▸ hholds
  refine ⟨fun n hn i hi => ?_, fun id s hs => ⟨hconsistent.definedIn hs, fun m hm => ?_⟩,
    fun n hn => valueType?_eq n (hall.walkAll hn), fun id hid => hconsistent.isMember?_eq hid⟩
  · obtain ⟨hsymbol, hdeclared⟩ := (hall.walkAll hn).self i hi
    exact ⟨hsymbol, fun h => Option.isSome_iff_exists.mp (hdeclared h)⟩
  · exact ⟨_, Array.getElem?_eq_getElem (hconsistent.members id s m hs hm)⟩

end SableFront
