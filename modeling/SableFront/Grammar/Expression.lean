import SableFront.Grammar.Callable

/-!
# Grammar: expressions

The levels of expressions, from the loosest to the tightest: assignment, the six classes of binary
operators, steps (`++`, `--`), dereference, inversion, what follows a value (calls, subscripts,
members), and values. Each level is read from the next tighter one. An operand that is missing is
noted, and an empty node stands for it.

A name in the lookaside is the start of the operand that is being read, so an operator after it is
never one that stands before its operand.
-/

namespace SableFront.Grammar

/-! ### Calls, subscripts and members -/

/-- Expressions with commas between them up to a closing mark. -/
def expressions (rules : Rules) (close : Punctuation) (unclosed : ErrorKind) :
    Production (List Node × Token) :=
  let unlessEof (other : ErrorKind) (s : State) : ErrorKind :=
    if s.current.isEof then unclosed else other
  commaList rules.rounds (.mark close) (unlessEof .missingComma) do
    match ← rules.expression with
    | some item => return item
    | none => fail (unlessEof .missingValue (← get))

/-- A call, at its opening parenthesis. -/
def call (rules : Rules) (callee : Node) (generics : List Node) : Production Node := do
  let paren ← advance
  let (args, close) ← expressions rules .rParen .missingRightParen
  return .build (.call generics.length) paren (callee :: generics ++ args) []
    [callee.span, close.span]

/-- An index or a slice, at its opening bracket. -/
def subscript (rules : Rules) (target : Node) : Production Node := do
  let bracket ← advance
  let start ← rules.expression
  let (form, children) ← match ← eat (.punctuation .colon), start with
    | some _, start =>
      let stop ← rules.expression
      pure (Form.slice start.isSome stop.isSome, target :: start.toList ++ stop.toList)
    | none, some index => pure (Form.index, [target, index])
    | none, none => fail .missingIndexOrSlice
  let close ← expect (.punctuation .rBracket) .missingRightBracket
  return .build form bracket children [] (children.map Node.span ++ [close.span])

/-- A dotted name with one more part. -/
def dotted (base part : Node) : Node :=
  match base.form with
  | .dotted => .mk (base.cover part.span).data (base.children ++ [part])
  | _ => .branch .dotted base.token [base, part]

/-- A member, at its dot. Members of members make one dotted name. -/
def member (base : Node) : Production Node := do
  let _ ← advance
  let (text, token) ← expectIdent
  let s ← get
  let name := Node.name text token
  match (s.membersOf base).bind (s.symbols.findIn · text) with
  | some id =>
    match s.symbols.symbol? id with
    | some symbol => return dotted base (name.attach id symbol .property)
    | none => return dotted base (name.withRole .property)
  | none => return dotted base (name.withRole .property)

/-! ### Values -/

/-- The key and the value of one entry of a dictionary. -/
def dictEntry (rules : Rules) : Production (List Node) := do
  let key ← require rules.expression .missingValue
  let _ ← expect (.punctuation .colon) .missingValue
  let value ← require rules.expression .missingValue
  return [key, value]

/-- A dictionary, at its opening brace. -/
def dict (rules : Rules) : Production Node := do
  let brace ← advance
  let (entries, close) ←
    commaList rules.rounds (.mark .rBrace) (fun _ => .missingComma) (dictEntry rules)
  return .build .dict brace entries.flatten [] [close.span]

/-- A list, at its opening bracket. -/
def list (rules : Rules) : Production Node := do
  let bracket ← advance
  let (items, close) ← expressions rules .rBracket .missingRightBracket
  return .build .list bracket items [] [close.span]

/-- An expression in parentheses, at the opening one; it covers them too. -/
def parenthesized (rules : Rules) : Production Node := do
  let paren ← advance
  let inner ← require rules.expression .missingValue
  let close ← expect (.punctuation .rParen) .missingRightParen
  return inner.cover (paren.span.merge close.span)

/-- A new object, at its keyword. -/
def newObject (rules : Rules) : Production Node := do
  let keyword ← advance
  let type ← require (typeRef rules none) .missingType
  match ← eat (.punctuation .lParen) with
  | some _ =>
    let (args, close) ← expressions rules .rParen .missingRightParen
    return .build (.new true) keyword (type :: args) [] [type.span, close.span]
  | none => return .branch (.new false) keyword [type]

/-- A function without a name, at its keyword. -/
def lambda (rules : Rules) : Production Node := do
  let keyword ← advance
  let (sig, body) ← inNewScope (signatureAndBody rules none)
  return .build (.lambda sig.returns.isSome) keyword
    (sig.params :: sig.returns.toList ++ [body]) [] [body.span]

/-- Invalid tokens on one line, at the first of them: one error and one node for all. -/
def invalidRun (rounds : Nat) : Production Node := do
  let first ← advance
  record ⟨.invalidTokenSequence, first, some (.about first.describe)⟩
  let spans ← loop
    (fun spans => do
      let s ← get
      if s.isAt .invalid && !s.newlineBefore then return .inl (spans ++ [(← advance).span])
      else return .inr spans)
    rounds []
  return .build .invalid first [] [] spans

/-- A name as a value. After a type or template, generic arguments are tried; with arguments it is
a call if a parenthesis follows, else a type reference. -/
def nameValue (rules : Rules) : Production Node := do
  let s ← get
  let name := s.bindName (← advance)
  let generic := s.config.speculateGenerics && (typeOfName name).isGenericCapable
  if generic && (← isAt (.operator .lt)) then
    match ← genericArguments rules with
    | none => return name
    | some (generics, close) =>
      if ← isAt (.punctuation .lParen) then call rules name generics
      else
        return .build (.typeRef false generics.length (typeOfName name)) name.token
          (name :: generics) [] [name.span, close.span]
  else return name

/-- The value that starts with a token of some kind. -/
def valueAt (rules : Rules) (kind : Kind) : Production (Option Node) :=
  match kind with
  | .ident => some <$> nameValue rules
  | .keyword .newKw => some <$> newObject rules
  | .keyword .functionKw => some <$> lambda rules
  | .keyword k => if k.isTypeName then some <$> nameValue rules else pure none
  | .punctuation .lParen => some <$> parenthesized rules
  | .punctuation .lBracket => some <$> list rules
  | .punctuation .lBrace => some <$> dict rules
  | .invalid => some <$> invalidRun rules.rounds
  | kind => if kind.isLiteral then (some ∘ Node.ofLiteral) <$> advance else pure none

/-- A value: the name in the lookaside, or what starts at the current token. -/
def value (rules : Rules) : Production (Option Node) := do
  let s ← get
  match s.lookaside with
  | some name =>
    set { s with lookaside := none }
    return some name
  | none => valueAt rules s.current.kind

/-- One more call, subscript or member after a value, if there is one. -/
def postfixRound (rules : Rules) (node : Node) : Production (Node ⊕ Node) := do
  match (← current).kind with
  | .punctuation .lParen => .inl <$> call rules node []
  | .punctuation .lBracket => .inl <$> subscript rules node
  | .punctuation .dot => .inl <$> member node
  | _ => return .inr node

/-- A value with all calls, subscripts and members after it. -/
def postfixed (rules : Rules) : Production (Option Node) := do
  match ← value rules with
  | none => return none
  | some node => some <$> loop (postfixRound rules) rules.rounds node

/-! ### Operators with one operand -/

/-- The operator that stands before an operand here: one that `accepts` the current token, unless a
name waits in the lookaside. -/
def operatorBefore (accepts : Kind → Bool) : Production (Option Token) := do
  let s ← get
  if s.lookaside.isNone && accepts s.current.kind then return some (← advance) else return none

/-- The operators that invert: `!`, `~`, `not`, and the minus sign. -/
def inverts (kind : Kind) : Bool := kind.opClass? == some .invert || kind == .operator .minus

/-- An inversion, or what binds tighter. -/
def invert (rules : Rules) : Production (Option Node) := do
  match ← operatorBefore inverts with
  | some op => return some (.branch .invert op [← operand rules.invert])
  | none => postfixed rules

/-- A dereference, or what binds tighter. -/
def deref (rules : Rules) : Production (Option Node) := do
  match ← operatorBefore (· == .operator .star) with
  | some op => return some (.branch .deref op [← operand rules.deref])
  | none => invert rules

/-- One more step after an operand, on its line, if there is one. -/
def stepRound (node : Node) : Production (Node ⊕ Node) := do
  let s ← get
  if s.current.isOfClass .incDec && !s.newlineBefore then
    return .inl (.branch .stepAfter (← advance) [node])
  else return .inr node

/-- The steps after an operand. -/
def stepsAfter (rounds : Nat) (node : Node) : Production Node := loop stepRound rounds node

/-- Steps before or after an operand, or what binds tighter. -/
def steps (rules : Rules) : Production (Option Node) := do
  match ← operatorBefore (·.opClass? == some .incDec) with
  | some op => return some (.branch .stepBefore op [← operand rules.steps])
  | none =>
    match ← deref rules with
    | some node => some <$> stepsAfter rules.rounds node
    | none => return none

/-! ### Operators with two operands -/

/-- One more operator of a class with the operand after it, if there is one. `combine` makes the node
of what stands to the left, the operator, and the operand. -/
def operatorRound (cls : Operator.Class) (next : Production (Option Node))
    (combine : Node → Token → Node → Production Node) (left : Node) :
    Production (Node ⊕ Node) := do
  if (← current).isOfClass cls then
    let op ← advance
    let right ← operand next
    .inl <$> combine left op right
  else return .inr left

/-- Operators of one class between operands of the next level, grouped from the left. -/
def level (rounds : Nat) (cls : Operator.Class) (next : Production (Option Node))
    (combine : Node → Token → Node → Production Node) : Production (Option Node) := do
  match ← next with
  | none => return none
  | some left => some <$> loop (operatorRound cls next combine) rounds left

/-- The node of an operator between two operands. -/
def binary (left : Node) (op : Token) (right : Node) : Production Node :=
  return .branch .binary op [left, right]

def multiplicative (rules : Rules) : Production (Option Node) :=
  level rules.rounds .multiplicative (steps rules) binary

def additive (rules : Rules) : Production (Option Node) :=
  level rules.rounds .additive (multiplicative rules) binary

def shift (rules : Rules) : Production (Option Node) :=
  level rules.rounds .shift (additive rules) binary

def bitwise (rules : Rules) : Production (Option Node) :=
  level rules.rounds .bitwise (shift rules) binary

/-- Two ordering operators that open alike (`<` and `<=`, `>` and `>=`) make one range test. -/
def chains (first second : Kind) : Bool :=
  match first, second with
  | .operator p, .operator q =>
    p.isOrdering && q.isOrdering && p.spelling.toList.head? == q.spelling.toList.head?
  | _, _ => false

/-- The node of a comparison, or of a range test if a second ordering operator chains with the
first. -/
def comparison (rules : Rules) (left : Node) (op : Token) (right : Node) : Production Node := do
  if chains op.kind (← current).kind then
    let second ← advance
    let upper ← operand (bitwise rules)
    return .build .between op [left, right, upper] [second] [left.span, upper.span]
  else binary left op right

def relational (rules : Rules) : Production (Option Node) :=
  level rules.rounds .relational (bitwise rules) (comparison rules)

def logical (rules : Rules) : Production (Option Node) :=
  level rules.rounds .logical (relational rules) binary

/-! ### Assignment -/

/-- What can be assigned to. -/
def isAssignable : Form → Bool
  | .ident _ | .dotted | .identDef _ | .index | .deref => true
  | _ => false

/-- The node of an assignment; a target that cannot be assigned to is noted. -/
def assignment (target : Node) (op : Token) (value : Node) : Production Node := do
  if !isAssignable target.form then record ⟨.invalidAssignment, op, none⟩
  return .branch .assignment op [target, value]

/-- An expression. Assignments group from the right. -/
def expression (rules : Rules) : Production (Option Node) := do
  match ← logical rules with
  | none => return none
  | some target =>
    if (← current).isOfClass .assignment then
      let op ← advance
      let value ← operand rules.expression
      some <$> assignment target op value
    else return some target

end SableFront.Grammar
