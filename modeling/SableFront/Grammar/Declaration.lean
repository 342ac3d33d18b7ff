import SableFront.Grammar.Expression
import SableFront.Tree.ValueType

/-!
# Grammar: declarations of values

Declarations of variables and enumerators, and the statements that start with a name. A name that
denotes a type starts a declaration, unless no declaration follows it. An unknown name right before
another one is taken for a type that is missing.
-/

namespace SableFront.Grammar

/-- Give an `auto` variable the type of its value. A value that is a type makes the variable another
name of that type. -/
def infer (id : SymbolId) (name value : Node) : Production Node := do
  let s ← get
  if ((s.symbols.symbol? id).any (·.type.has .auto)) then
    let found := value.valueType s.symbols
    if found.isUnknown then return name
    else
      let type := if found.isType then found else found.forValue
      set { s with symbols := s.symbols.updateType id type }
      return name.modifyIdent fun i => { i with type }
  else return name

/-- The type of a declared name, and the members of that type. -/
def declaredType (s : State) (type : Node) : SymbolType × Option ScopeId :=
  (type.referredType?.getD .unknown,
    (((typeName? type).bind Node.ident?).bind (·.symbol)).bind fun id =>
      (s.symbols.symbol? id).bind (·.members))

/-- A variable has the members of its type, if it is new and the type has members. -/
def shareMembers (id : Option SymbolId) (members : Option ScopeId) : Production Unit := do
  match id, members with
  | some id, some members =>
    modify fun s => { s with symbols := s.symbols.setMembers id members }
  | _, _ => return

/-- The value of a variable whose type and name have been read, if there is one. The variable has a
symbol of its own if it is new. -/
def initializer (rules : Rules) (type name : Node) (id : Option SymbolId) : Production Node := do
  let token := name.token
  match ← eat (.operator .eq) with
  | some op =>
    let value ← operand (expression rules)
    let name ← match id with
      | some id => infer id name value
      | none => pure name
    assignment (.branch (.identDef false) token [type, name]) op value
  | none => return .branch (.identDef false) token [type, name]

/-- Declare the variable whose type has been read. -/
def typedVariable (rules : Rules) (type : Node) : Production Node := do
  let (text, token) ← expectIdent
  let s ← get
  let (declared, members) := declaredType s type
  let scope := s.symbols.current
  let (name, id) ←
    declare (.name text token) (.new text declared.forValue .declared) scope (s.memberRole scope)
  shareMembers id members
  initializer rules type name id

/-- A declaration: a type, a name, and perhaps a value. It must be there if a storage keyword has
been read before it. -/
def declaration (rules : Rules) (storage : Option Node) : Production (Option Node) := do
  match ← typeRef rules storage with
  | none => return none
  | some type =>
    if ← isAt .ident then some <$> typedVariable rules type
    else if storage.isSome then fail .missingIdent
    else return none

/-- A statement at a name that means nothing yet. -/
def unknownNameStatement (rules : Rules) : Production (Option Node) := do
  let token ← advance
  let s ← get
  let name := s.bindName token
  set { s with lookaside := some name }
  if s.isAt .ident && !s.newlineBefore then
    throw ⟨.missingType, token, some (.notAType token.describe)⟩
  else expression rules

/-- A statement at a name: a declaration, or an expression. -/
def nameStatement (rules : Rules) : Production (Option Node) := do
  let s ← get
  if s.atTypeName then
    match ← orRewind (declaration rules none) with
    | some node => return some node
    | none => expression rules
  else if s.currentSymbol?.isNone then unknownNameStatement rules
  else expression rules

/-- The current token is a name that denotes no type, so it starts an enumerator. -/
def atEnumerator (s : State) : Bool := s.isAt .ident && !s.atTypeName

/-- The type of the enumerators in a scope: a value of the enum that owns the scope. -/
def enumeratorType (symbols : SymbolTable) (scope : ScopeId) : SymbolType :=
  match (symbols.scope? scope).bind (·.owner) with
  | some owner => ((symbols.symbol? owner).map (·.type.forValue)).getD .unknown
  | none => .unknown

/-- An enumerator: a name and perhaps a value. A comma after it is read. -/
def enumerator (rules : Rules) : Production (Option Node) := do
  let (text, token) ← expectIdent
  let s ← get
  let scope := s.symbols.current
  let symbol := Symbol.new text (enumeratorType s.symbols scope) .declared
  let (name, _) ← declare (.name text token) symbol scope .property
  let node ← match ← eat (.operator .eq) with
    | some op => assignment name op (← operand (expression rules))
    | none => pure name
  let _ ← eat (.punctuation .comma)
  return some node

end SableFront.Grammar
