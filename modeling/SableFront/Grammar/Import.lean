import SableFront.Grammar.Production

/-!
# Grammar: imports

An import binds names of unknown type in the current scope, in the place of names already bound
there: the alias if there is one, else the last segment of the path or the name of the item. Modules
themselves are not looked at.
-/

namespace SableFront.Grammar

/-- Bind a name that is imported. -/
def importName (name : Node) : Production Node := do
  let s ← get
  let symbol := Symbol.new ((name.ident?.map (·.name)).getD "") .unknown .imported
  let (id, symbols) := s.symbols.insert symbol
  set { s with symbols }
  return (name.attach id symbol .path).declared

/-- A name after `as`, which is imported, with the token of that keyword. -/
def importAlias : Production (Option (Token × Node)) := do
  match ← eat (.keyword .asKw) with
  | some keyword =>
    let (text, token) ← expectIdent
    return some (keyword, ← importName (.name text token))
  | none => return none

/-- An item of an import: a name, and perhaps another name for it. -/
def importItem : Production Node := do
  let (text, token) ← expectIdent
  let name := Node.name text token
  match ← importAlias with
  | some (keyword, newName) =>
    return .build (.importItem true) token [name, newName] [keyword] [name.span, newName.span]
  | none => return .branch (.importItem false) token [← importName name]

/-- The segments of a module path. -/
def pathSegments (rounds : Nat) : Production (List Node) :=
  loop
    (fun segments => do
      let (text, token) ← expectIdent
      let segments := segments ++ [(Node.name text token).withRole .path]
      match ← eat (.punctuation .dot) with
      | some _ => return .inl segments
      | none => return .inr segments)
    rounds []

/-- The node of a module path. -/
def pathOf (segments : List Node) : Production Node :=
  match segments with
  | [] => fail .missingIdent
  | [segment] => pure segment
  | first :: rest => pure (.branch .dotted first.token (first :: rest))

/-- Import a module by the last segment of its path. -/
def importModule (segments : List Node) : Production Node := do
  match segments.getLast? with
  | some last => pathOf (segments.dropLast ++ [← importName last])
  | none => pathOf segments

/-- An import, at its keyword. -/
def importStatement (rules : Rules) : Production Node := do
  let keyword ← advance
  let segments ← pathSegments rules.rounds
  if keyword.isKeyword .fromKw then
    match ← eat (.keyword .importKw) with
    | some word =>
      let items ← commaItems rules.rounds importItem
      let module ← pathOf segments
      return .build (.imports false) keyword (module :: items) [word]
        ((module :: items).map Node.span)
    | none => failFor .incorrectToken .expectedImport
  else
    match ← importAlias with
    | some (word, newName) =>
      let module ← pathOf segments
      return .build (.imports true) keyword [module, newName] [word] [module.span, newName.span]
    | none => return .branch (.imports false) keyword [← importModule segments]

end SableFront.Grammar
