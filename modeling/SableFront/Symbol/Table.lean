import SableFront.SymbolType.Basic

/-!
# Symbols: the scoped symbol table

A table holds symbols and scopes, both named by their index, and one scope is current. A scope binds
names to symbols and has a parent, in which names are looked up that it does not bind itself. Scopes
and symbols are never removed, so what a name was resolved to stays known after its scope is left.

The parent of a scope is always older than the scope, which is why a look-up ends.
-/

namespace SableFront

/-- The index of a symbol in its table. -/
abbrev SymbolId := Nat

/-- The index of a scope in its table. -/
abbrev ScopeId := Nat

/-- How a symbol came to be. -/
inductive Origin
  | builtin | declared | parameter | imported
  deriving DecidableEq

/-- A named binding with a type. -/
structure Symbol where
  name : String
  type : SymbolType
  /-- Where the members are bound, for classes, enums and their values. -/
  members : Option ScopeId
  /-- The declared return type, for functions. -/
  returns : Option SymbolType
  origin : Origin
  /-- The scope that binds the symbol. -/
  definedIn : ScopeId
  deriving DecidableEq

namespace Symbol

/-- A symbol without members and return type, not yet bound anywhere in particular. -/
def new (name : String) (type : SymbolType) (origin : Origin) : Symbol :=
  ⟨name, type, none, none, origin, 0⟩

/-- Symbols stand for the same thing if they agree in name and type. -/
def sameAs (s t : Symbol) : Bool := s.name == t.name && s.type == t.type

end Symbol

/-- One scope. -/
structure Scope where
  parent : Option ScopeId
  /-- The class or enum whose members the scope binds. -/
  owner : Option SymbolId
  bindings : List (String × SymbolId)
  deriving DecidableEq

namespace Scope

/-- The symbol that a name is bound to in the scope itself. -/
def get? (s : Scope) (name : String) : Option SymbolId := s.bindings.lookup name

/-- The scope with one more binding. -/
def bind (s : Scope) (name : String) (id : SymbolId) : Scope :=
  { s with bindings := (name, id) :: s.bindings }

/-- The number of names bound in the scope. -/
def size (s : Scope) : Nat := s.bindings.length

@[simp] theorem get?_bind_self (s : Scope) (name : String) (id : SymbolId) :
    (s.bind name id).get? name = some id := by simp [get?, bind]

theorem get?_bind_ne (s : Scope) {name other : String} (id : SymbolId) (h : other ≠ name) :
    (s.bind name id).get? other = s.get? other := by
  have : (other == name) = false := by simp [h]
  simp [get?, bind, List.lookup_cons, this]

end Scope

/-- Symbols, scopes, and the current scope. -/
structure SymbolTable where
  symbols : Array Symbol
  scopes : Array Scope
  current : ScopeId
  deriving DecidableEq

/-- A name that a scope already binds. -/
structure AlreadyDefined where
  name : String
  existing : SymbolId
  deriving DecidableEq

/-- The complaint about a second definition. -/
def AlreadyDefined.message (e : AlreadyDefined) : String :=
  "symbol `" ++ e.name ++ "` is already defined in this scope"

namespace SymbolTable

/-- The scope that every other scope descends from. -/
def global : ScopeId := 0

/-- A table with nothing but the global scope. -/
def empty : SymbolTable := ⟨#[], #[⟨none, none, []⟩], global⟩

/-- The symbol with an index. -/
def symbol? (t : SymbolTable) (id : SymbolId) : Option Symbol := t.symbols[id]?

/-- The scope with an index. -/
def scope? (t : SymbolTable) (id : ScopeId) : Option Scope := t.scopes[id]?

/-- The number of symbols. -/
def size (t : SymbolTable) : Nat := t.symbols.size

/-! ### Look-up -/

/-- The symbol that a scope itself binds a name to. -/
def findIn (t : SymbolTable) (scope : ScopeId) (name : String) : Option SymbolId :=
  (t.scope? scope).bind (·.get? name)

/-- The symbol that the current scope itself binds a name to. -/
def findLocal (t : SymbolTable) (name : String) : Option SymbolId := t.findIn t.current name

/-- The symbol that a name means in a scope: bound there, or in the nearest ancestor. -/
def findFrom (t : SymbolTable) (scope : ScopeId) (name : String) : Option SymbolId :=
  match t.scope? scope with
  | none => none
  | some s =>
    match s.get? name, s.parent with
    | some id, _ => some id
    | none, some parent => if parent < scope then t.findFrom parent name else none
    | none, none => none
termination_by scope

/-- The symbol that a name means in the current scope. -/
def find (t : SymbolTable) (name : String) : Option SymbolId := t.findFrom t.current name

/-- The symbol is bound among the members of a class or enum. -/
def isMember (t : SymbolTable) (id : SymbolId) : Bool :=
  ((t.symbol? id).bind fun s => (t.scope? s.definedIn).bind (·.owner)).isSome

/-! ### Binding -/

/-- The table with a new symbol, bound in a scope without regard to what the scope binds. -/
def bindNew (t : SymbolTable) (scope : ScopeId) (s : Symbol) : SymbolTable :=
  { t with
    symbols := t.symbols.push { s with definedIn := scope }
    scopes := t.scopes.modify scope (·.bind s.name t.size) }

/-- Bind a new symbol in a scope, unless the scope binds its name already. -/
def addIn (t : SymbolTable) (scope : ScopeId) (s : Symbol) :
    Except AlreadyDefined (SymbolId × SymbolTable) :=
  match t.findIn scope s.name with
  | some existing => .error ⟨s.name, existing⟩
  | none => .ok (t.size, t.bindNew scope s)

/-- Bind a new symbol in the current scope, unless the scope binds its name already. -/
def add (t : SymbolTable) (s : Symbol) : Except AlreadyDefined (SymbolId × SymbolTable) :=
  t.addIn t.current s

/-- Bind a symbol in the current scope, in the place of a symbol of that name if there is one. -/
def insert (t : SymbolTable) (s : Symbol) : SymbolId × SymbolTable :=
  match t.findLocal s.name with
  | some id =>
    (id, { t with symbols := t.symbols.setIfInBounds id { s with definedIn := t.current } })
  | none => (t.size, t.bindNew t.current s)

/-! ### The current scope -/

/-- The table with one more scope, below the current one. -/
def newScope (t : SymbolTable) (owner : Option SymbolId) : SymbolTable :=
  { t with scopes := t.scopes.push ⟨some t.current, owner, []⟩ }

/-- Open a scope below the current one and make it current. -/
def push (t : SymbolTable) : SymbolTable :=
  { t.newScope none with current := t.scopes.size }

/-- Make the parent of the current scope current; the global scope stays. -/
def pop (t : SymbolTable) : SymbolTable :=
  match (t.scope? t.current).bind (·.parent) with
  | some parent => { t with current := parent }
  | none => t

/-- Make a scope current. -/
def enter (t : SymbolTable) (scope : ScopeId) : SymbolTable := { t with current := scope }

/-! ### Change of symbols -/

/-- The table with one symbol changed. -/
def modifySymbol (t : SymbolTable) (id : SymbolId) (f : Symbol → Symbol) : SymbolTable :=
  { t with symbols := t.symbols.modify id f }

/-- Give a symbol a scope for its members, below the current one, and make it the name of a
structure type. A symbol that has such a scope keeps it and is left alone. -/
def allocateStruct (t : SymbolTable) (id : SymbolId) : ScopeId × SymbolTable :=
  match (t.symbol? id).bind (·.members) with
  | some scope => (scope, t)
  | none =>
    (t.scopes.size,
      (t.newScope (some id)).modifySymbol id fun s =>
        { s with
          members := some t.scopes.size
          type := (s.type.mask .template).append SymbolType.struct.asType })

/-- Give a symbol another type. -/
def updateType (t : SymbolTable) (id : SymbolId) (type : SymbolType) : SymbolTable :=
  t.modifySymbol id fun s => { s with type }

/-- Say where the members of a symbol are bound. -/
def setMembers (t : SymbolTable) (id : SymbolId) (scope : ScopeId) : SymbolTable :=
  t.modifySymbol id fun s => { s with members := some scope }

/-- Say what a function returns. -/
def setReturns (t : SymbolTable) (id : SymbolId) (type : SymbolType) : SymbolTable :=
  t.modifySymbol id fun s => { s with returns := some type }

/-- A table whose global scope binds the builtin type names. -/
def initial : SymbolTable :=
  BuiltinType.all.foldl
    (fun t b => (t.insert (.new b.spelling (SymbolType.builtin b) .builtin)).2) empty

end SymbolTable

end SableFront
