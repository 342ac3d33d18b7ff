import SableFront.Grammar.Production

/-!
# Grammar: type references

A type reference is the name of a type, perhaps with generic arguments in angles, and any number of
pointer, reference and pack marks. Whether `<` opens generic arguments is found out by trying: if no
list of arguments closes, reading goes back to the `<`. A token of several `>` closes as many lists,
one `>` at a time.
-/

namespace SableFront.Grammar

/-- The token can close a list in angles. -/
def isClosingAngle : Kind → Bool
  | .operator .gt | .operator .shr | .operator .gtEq | .operator .shrEq => true
  | _ => false

/-- One `>`, which is read, also if it is only the first of its token. -/
def closeAngle : Production (Option Token) := do
  if isClosingAngle (← current).kind then
    modify fun s => { s with lexer := s.lexer.splitAngle?.getD s.lexer }
    return some (← advance)
  else return none

/-- The closer of lists in angles. -/
def angle : Closer := ⟨closeAngle, fun s => isClosingAngle s.current.kind⟩

/-- A generic argument: a type reference, or a value that holds no comparison. -/
def genericArgument (rules : Rules) : Production Node := do
  require (if (← get).atTypeName then rules.typeRef else rules.shift) .missingValue

/-- The generic arguments at the current `<`, with the closing `>`, if they are such. -/
def genericArguments (rules : Rules) : Production (Option (List Node × Token)) :=
  orRewind <| orNone do
    let _ ← advance
    commaList rules.rounds angle (fun _ => .missingComma) (genericArgument rules)

/-- What a mark after a type adds to the type. -/
def modifier? : Kind → Option SymbolType
  | .punctuation .ellipsis => some .pack
  | .operator .amp => some .reference
  | .operator .star => some .pointer
  | _ => none

/-- The marks after a type. -/
def modifiers (rounds : Nat) : Production (List Token) :=
  loop
    (fun marks => do
      if (modifier? (← current).kind).isSome then return .inl (marks ++ [← advance])
      else return .inr marks)
    rounds []

/-- A type with the marks after it. -/
def modified (type : SymbolType) (marks : List Token) : SymbolType :=
  marks.foldl (fun t m => t.append ((modifier? m.kind).getD .unknown)) type

/-- The type of a name. -/
def typeOfName (n : Node) : SymbolType := (n.ident?.map (·.type)).getD .unknown

/-- A type reference, if the current token names a type. A storage keyword may have been read
before it. -/
def typeRef (rules : Rules) (storage : Option Node) : Production (Option Node) := do
  let s ← get
  if s.atTypeName then
    let name := s.bindName (← advance)
    let args ← if ← isAt (.operator .lt) then genericArguments rules else pure none
    let marks ← modifiers rules.rounds
    let generics := (args.map (·.1)).getD []
    return some <|
      .build (.typeRef storage.isSome generics.length (modified (typeOfName name) marks)) name.token
        (storage.toList ++ name :: generics) marks
        ((storage.toList ++ [name]).map Node.span ++ (args.map (·.2.span)).toList)
  else return none

/-- The name in a type reference. -/
def typeName? (n : Node) : Option Node :=
  match n.form with
  | .typeRef storage .. => n.children[if storage then 1 else 0]?
  | _ => none

end SableFront.Grammar
