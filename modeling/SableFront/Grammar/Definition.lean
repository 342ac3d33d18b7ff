import SableFront.Grammar.Declaration

/-!
# Grammar: definitions

Functions, operators, classes and enums, and the template headers that may stand before them. The
parameters of a template live in a scope of their own around the item, but the name of the item is
declared outside of it: a header leaves a note where, and the definition takes the note.
-/

namespace SableFront.Grammar

/-- Where the item of the template header before it is to be declared, if there is a header. The
note is taken, so it holds for one definition. -/
def takeTemplateScope : Production (Option ScopeId) := do
  let s ← get
  set { s with templateScope := none }
  return s.templateScope

/-- A type, marked as that of a template if there is a header. -/
def templated (template : Option ScopeId) (type : SymbolType) : SymbolType :=
  if template.isSome then type.append .template else type

/-! ### Functions and operators -/

/-- A function definition, at its keyword. -/
def functionDef (rules : Rules) (visibility storage : Option Node) : Production Node := do
  let keyword ← advance
  let template ← takeTemplateScope
  let s ← get
  let scope := template.getD s.symbols.current
  let (text, token) ← expectIdent
  let symbol := Symbol.new text (templated template .function) .declared
  let (name, id) ← declare (.name text token) symbol scope (s.memberRole scope)
  let (sig, body) ← inNewScope (signatureAndBody rules id)
  return .build (.function visibility.isSome storage.isSome sig.returns.isSome) keyword
    (visibility.toList ++ storage.toList ++ name :: sig.params :: sig.returns.toList ++ [body]) []
    ((visibility.toList ++ storage.toList ++ [body]).map Node.span)

/-- The name under which an operator is bound. -/
def operatorName (o : Operator) : String := "operator" ++ o.spelling

/-- Bind an operator. A later definition takes the place of an earlier one, but under a template
header the earlier one stays. -/
def bindOperator (template : Option ScopeId) (symbol : Symbol) : Production (Option SymbolId) := do
  let s ← get
  match template with
  | some scope =>
    match s.symbols.addIn scope symbol with
    | .ok (id, symbols) =>
      set { s with symbols }
      return some id
    | .error _ => return none
  | none =>
    let (id, symbols) := s.symbols.insert symbol
    set { s with symbols }
    return some id

/-- An operator definition, at its keyword. -/
def operatorDef (rules : Rules) (visibility storage : Option Node) : Production Node := do
  let keyword ← advance
  let template ← takeTemplateScope
  match (← current).kind with
  | .operator o =>
    let symbol ← advance
    let id ← bindOperator template
      (.new (operatorName o) (templated template .function) .declared)
    let (sig, body) ← inNewScope (signatureAndBody rules id)
    return .build (.operatorDef visibility.isSome storage.isSome sig.returns.isSome) keyword
      (visibility.toList ++ storage.toList ++ sig.params :: sig.returns.toList ++ [body])
      [symbol] ((visibility.toList ++ storage.toList ++ [body]).map Node.span)
  | _ => failFor .incorrectToken .expectedOperator

/-! ### Classes and enums -/

/-- The types after a colon that a class is derived from. -/
def bases (rules : Rules) : Production (List Node) := do
  match ← eat (.punctuation .colon) with
  | some _ => commaItems rules.rounds (require (typeRef rules none) .missingType)
  | none => return []

/-- The scope for the members of a class. A class whose name was taken already has a scope that
belongs to no symbol. -/
def memberScope (id : Option SymbolId) : Production (SymbolTable → SymbolTable) := do
  match id with
  | some id =>
    let s ← get
    let (scope, symbols) := s.symbols.allocateStruct id
    set { s with symbols }
    return (·.enter scope)
  | none => return SymbolTable.push

/-- A class or enum definition, at its keyword. -/
def classDef (rules : Rules) (visibility : Option Node) : Production Node := do
  let keyword ← advance
  let isEnum := keyword.isKeyword .enumKw
  let template ← takeTemplateScope
  let scope := template.getD (← get).symbols.current
  let (text, token) ← expectIdent
  let symbol := Symbol.new text (templated template SymbolType.struct.asType) .declared
  let (name, id) ←
    declare (.name text token) symbol scope (if isEnum then .enumeration else .plain)
  let bases ← bases rules
  if ← isAt (.punctuation .lBrace) then
    let enter ← memberScope id
    let body ← block rules enter (if isEnum then .enumBody else .block)
    return .build (.classDef isEnum visibility.isSome bases.length) keyword
      (visibility.toList ++ name :: bases ++ [body]) []
      ((visibility.toList ++ [body]).map Node.span)
  else fail .missingBlock

/-! ### Templates -/

/-- A template parameter: a name, which may stand for any number of types. -/
def templateParam : Production Node := do
  let (text, token) ← expectIdent
  let name := Node.name text token
  let (name, type) ← match ← eat (.punctuation .ellipsis) with
    | some dots => pure (name.mark dots, SymbolType.anyType.append .pack)
    | none => pure (name, SymbolType.anyType)
  let (name, _) ←
    declare name (.new text type .parameter) (← get).symbols.current .parameter
  return name

/-- The keywords that can start what stands after a template header. -/
def isTemplatable : Kind → Bool
  | .keyword k =>
    match k with
    | .classKw | .enumKw | .functionKw | .operatorKw => true
    | k => k.isVisibility
  | _ => false

/-- The parameters and the item of a template, which is declared in the scope `outer`. -/
def templateRest (rules : Rules) (outer : ScopeId) : Production (List Node × Node) := do
  let (params, _) ← commaList rules.rounds angle (fun _ => .missingComma) templateParam
  if isTemplatable (← current).kind then
    modify fun s => { s with templateScope := some outer }
    return (params, ← require rules.statement .parsingFailed)
  else failFor .incorrectToken .notTemplatable

/-- A template header with its item, at its keyword. -/
def template (rules : Rules) : Production Node := do
  let keyword ← advance
  match ← eat (.operator .lt) with
  | none => failFor .incorrectToken .expectedAngle
  | some _ =>
    let outer := (← get).symbols.current
    let (params, item) ←
      ensuring (fun s => { s with templateScope := none })
        (inNewScope (templateRest rules outer))
    return .build .template keyword (params ++ [item]) [] [item.span]

end SableFront.Grammar
