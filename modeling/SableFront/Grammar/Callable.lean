import SableFront.Grammar.TypeReference

/-!
# Grammar: blocks, parameters and signatures

The parts that functions, operators and lambdas are made of. A name is declared as soon as it is
read, so what follows can refer to it. A second declaration of a name in the same scope is noted,
and the name is bound to the first one.
-/

namespace SableFront.Grammar

/-- Declare a name in a scope: its node, bound to its symbol, and the symbol if it is new. -/
def declare (name : Node) (symbol : Symbol) (scope : ScopeId) (role : Role) :
    Production (Node × Option SymbolId) := do
  let s ← get
  match s.symbols.addIn scope symbol with
  | .ok (id, symbols) =>
    set { s with symbols }
    return ((name.attach id symbol role).declared, some id)
  | .error e =>
    record ⟨.symbolAlreadyDefined, name.token, some (.about e.name)⟩
    match s.symbols.symbol? e.existing with
    | some existing => return (name.attach e.existing existing role, none)
    | none => return (name, none)

/-! ### Blocks -/

/-- The statements between braces, of which the first is the current token. -/
def block (rules : Rules) (enter : SymbolTable → SymbolTable) (context : Context) :
    Production Node := do
  let brace ← advance
  let statements ← inScope enter (rules.items context)
  let close ← eat (.punctuation .rBrace)
  if close.isNone then
    record ((← get).error .missingBlock (some .unclosedBrace))
  return .build (.block close.isSome) brace statements []
    (statements.map Node.span ++ (close.map Token.span).toList)

/-- A block with a scope of its own, which must be there. -/
def body (rules : Rules) : Production Node := do
  if ← isAt (.punctuation .lBrace) then block rules SymbolTable.push .block
  else fail .missingBlock

/-! ### Parameters -/

/-- The value after an equals sign, if there is one. -/
def defaultValue (rules : Rules) : Production (Option Node) := do
  match ← eat (.operator .eq) with
  | some _ => return some (← operand rules.expression)
  | none => return none

/-- One parameter: a type, a name, and perhaps a default. -/
def param (rules : Rules) : Production Node := do
  match ← typeRef rules none with
  | none => failFor .missingType (.notAType (← current).describe)
  | some type =>
    let (text, token) ← expectIdent
    let symbol := Symbol.new text (type.referredType?.getD .unknown).forValue .parameter
    let (name, _) ← declare (.name text token) symbol (← get).symbols.current .parameter
    let default ← defaultValue rules
    return .branch (.identDef default.isSome) token (type :: name :: default.toList)

/-- The parameters in parentheses, declared in the current scope. -/
def params (rules : Rules) : Production Node := do
  let paren ← expect (.punctuation .lParen) .missingParams
  let missing (s : State) : ErrorKind :=
    if s.current.isEof then .missingRightParen else .missingComma
  let (items, close) ← commaList rules.rounds (.mark .rParen) missing (param rules)
  return .build .params paren items [] [close.span]

/-! ### Signatures -/

/-- Parameters, and the node of the return type if one is given. -/
structure Signature where
  params : Node
  returns : Option Node

/-- What a function with a signature returns: nothing, unless the signature says otherwise. -/
def Signature.returnType (sig : Signature) : SymbolType :=
  ((sig.returns.bind fun n => n.children.head?.bind Node.referredType?).map (·.forValue)).getD
    .none

/-- Parameters and return type. -/
def signature (rules : Rules) : Production Signature := do
  let params ← params rules
  match ← eat (.punctuation .arrow) with
  | some arrow =>
    let type ← require (typeRef rules none) .missingReturnType
    return ⟨params, some (.branch .returnType arrow [type])⟩
  | none => return ⟨params, none⟩

/-- Signature and body of a callable, whose symbol is told what it returns before the body is
read. -/
def signatureAndBody (rules : Rules) (id : Option SymbolId) : Production (Signature × Node) := do
  let sig ← signature rules
  match id with
  | some id => modify fun s => { s with symbols := s.symbols.setReturns id sig.returnType }
  | none => pure ()
  return (sig, ← body rules)

end SableFront.Grammar
