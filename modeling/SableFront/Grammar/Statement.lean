import SableFront.Grammar.Definition
import SableFront.Grammar.Import

/-!
# Grammar: statements

Statements, and lists of statements. A list never fails: an error in a statement is kept, the
statement is given up, and reading goes on behind the token at fault. Each round of a list reads at
least one token or ends the list.

The comments before a statement lead it, and those inside it or after it on its last line trail it.
A comment with no statement to belong to becomes a node of its own.
-/

namespace SableFront.Grammar

/-! ### Control flow -/

/-- A condition, which must be there. -/
def condition (rules : Rules) : Production Node := require (expression rules) .missingCond

/-- A condition and a block, after their keyword. -/
def guarded (rules : Rules) (form : Form) (keyword : Token) : Production Node := do
  let condition ← condition rules
  let body ← body rules
  return .build form keyword [condition, body] [] [body.span]

/-- The branches after `elif`, added to those before. -/
def elifBranches (rules : Rules) (branches : List Node) : Production (List Node) :=
  loop
    (fun branches => do
      match ← eat (.keyword .elifKw) with
      | some keyword => return .inl (branches ++ [← guarded rules .elifBranch keyword])
      | none => return .inr branches)
    rules.rounds branches

/-- A conditional with all its branches, at its keyword. -/
def conditional (rules : Rules) : Production Node := do
  let keyword ← advance
  let first ← guarded rules .ifBranch keyword
  let branches ← elifBranches rules [first]
  match ← eat (.keyword .elseKw) with
  | some word =>
    return .branch .conditional keyword (branches ++ [.branch .elseBranch word [← body rules]])
  | none => return .branch .conditional keyword branches

/-- A loop with its condition before the block, at its keyword. -/
def whileLoop (rules : Rules) : Production Node := do guarded rules .whileLoop (← advance)

/-- A loop with its condition after the block, at its keyword. -/
def doWhile (rules : Rules) : Production Node := do
  let keyword ← advance
  let body ← body rules
  match ← eat (.keyword .whileKw) with
  | some word =>
    let condition ← condition rules
    return .build .doWhile keyword [body, condition] [word] [condition.span]
  | none => fail .missingCond

/-- What comes first in the header of a `for` loop. -/
def forStart (rules : Rules) : Production (Option Node) := do
  if ← isAt (.punctuation .semicolon) then return none
  else if ← isAt .ident then nameStatement rules
  else expression rules

/-- A declaration without a value, right before a colon, goes through the items of something. -/
def bindsItems (s : State) (start : Option Node) : Option Node :=
  start.filter fun n =>
    (match n.form with
      | .identDef _ => true
      | _ => false) && s.isAt (.punctuation .colon)

/-- The header of a `for` loop: its form and its parts. -/
def forHeader (rules : Rules) : Production (Form × List Node) := do
  let start ← forStart rules
  match bindsItems (← get) start with
  | some binding =>
    let _ ← advance
    return (.forEach, [binding, ← require rules.expression .missingValue])
  | none =>
    let _ ← expect (.punctuation .semicolon) .incorrectToken
    let condition ← expression rules
    let _ ← expect (.punctuation .semicolon) .incorrectToken
    let step ← expression rules
    return (.forLoop start.isSome condition.isSome step.isSome,
      start.toList ++ condition.toList ++ step.toList)

/-- The header and the block of a `for` loop; parentheses around the header may be left out. -/
def forRest (rules : Rules) : Production ((Form × List Node) × Node) := do
  let paren ← eat (.punctuation .lParen)
  let header ← forHeader rules
  if paren.isSome then
    let _ ← expect (.punctuation .rParen) .missingRightParen
  return (header, ← body rules)

/-- A `for` loop, at its keyword. The declarations of its header live in a scope around its
block. -/
def forLoop (rules : Rules) : Production Node := do
  let keyword ← advance
  let ((form, parts), body) ← inNewScope (forRest rules)
  return .build form keyword (parts ++ [body]) [] [body.span]

/-- A return, at its keyword. There is no value if the line, the statement or the block ends. -/
def returnStatement (rules : Rules) : Production Node := do
  let keyword ← advance
  let s ← get
  let bare := s.newlineBefore || s.isAt .eof || s.isAt (.punctuation .semicolon) ||
    s.isAt (.punctuation .rBrace)
  let value ← if bare then pure none else expression rules
  return .branch .returns keyword value.toList

/-- A deletion, at its keyword. -/
def delete (rules : Rules) : Production Node := do
  let keyword ← advance
  return .branch .delete keyword [← require (expression rules) .missingValue]

/-! ### Storage and visibility -/

/-- What stands after a storage keyword: a definition or a declaration. -/
def afterStorage (rules : Rules) (storage : Node) : Production Node := do
  match (← current).kind with
  | .keyword .functionKw => functionDef rules none (some storage)
  | .keyword .operatorKw => operatorDef rules none (some storage)
  | _ => require (declaration rules (some storage)) .missingType

/-- The node of a storage keyword. -/
def storageNode : Production Node := return .leaf .storage (← advance)

/-- The node of the storage keyword at the current token, if there is one. -/
def storageHere : Production (Option Node) := do
  match (← current).kind with
  | .keyword k => if k.isStorage then some <$> storageNode else return none
  | _ => return none

/-- What stands after a visibility keyword and perhaps a storage keyword. With nothing that it could
belong to, the visibility keyword is a node of its own. -/
def afterVisibility (rules : Rules) (visibility : Node) (storage : Option Node) :
    Production Node := do
  match (← current).kind, storage with
  | .keyword .classKw, none | .keyword .enumKw, none => classDef rules (some visibility)
  | .keyword .functionKw, storage => functionDef rules (some visibility) storage
  | .keyword .operatorKw, storage => operatorDef rules (some visibility) storage
  | _, none => return visibility
  | _, some storage => return (← afterStorage rules storage).markFirst visibility.token

/-- A section label or a definition or declaration, at its visibility keyword. -/
def visibilityStatement (rules : Rules) : Production Node := do
  let visibility := Node.leaf .visibility (← advance)
  match ← eat (.punctuation .colon) with
  | some _ => return visibility
  | none => afterVisibility rules visibility (← storageHere)

/-! ### Statements -/

/-- A `function` right before a parenthesis is a value and no definition. -/
def lambdaAhead (s : State) : Bool :=
  s.lexer.cursor.significant.token.kind == .punctuation .lParen

/-- The statement that starts with a keyword. -/
def keywordStatement (rules : Rules) (k : Keyword) : Production (Option Node) := do
  match k with
  | .ifKw => some <$> conditional rules
  | .whileKw => some <$> whileLoop rules
  | .doKw => some <$> doWhile rules
  | .forKw => some <$> forLoop rules
  | .returnKw => some <$> returnStatement rules
  | .deleteKw => some <$> delete rules
  | .importKw | .fromKw => some <$> importStatement rules
  | .classKw | .enumKw => some <$> classDef rules none
  | .functionKw =>
    if lambdaAhead (← get) then expression rules else some <$> functionDef rules none none
  | .operatorKw => some <$> operatorDef rules none none
  | .templateKw => some <$> template rules
  | k =>
    if k.isVisibility then some <$> visibilityStatement rules
    else if k.isTypeName then nameStatement rules
    else if k.isStorage then some <$> (storageNode >>= afterStorage rules)
    else expression rules

/-- A statement. -/
def statement (rules : Rules) : Production (Option Node) := do
  match (← current).kind with
  | .keyword k => keywordStatement rules k
  | .punctuation .lBrace => some <$> block rules SymbolTable.push .block
  | .ident => nameStatement rules
  | _ => expression rules

/-! ### Lists of statements -/

/-- Semicolons are passed over. -/
def skipSemicolons : Nat → State → State
  | 0, s => s
  | n + 1, s =>
    if s.isAt (.punctuation .semicolon) then skipSemicolons n s.advance else s

/-- The list ends here. -/
def endsItems (context : Context) (s : State) : Bool :=
  s.isAt .eof || (context != .file && s.isAt (.punctuation .rBrace))

/-- The waiting comments that lead the next statement, and those that become nodes. -/
def leadingComments (s : State) : List Token × List Node :=
  if s.config.attachComments then (s.comments, []) else ([], s.comments.map .ofComment)

/-- The comment lies in a node, or after it on its last line. -/
def trails (n : Node) (comment : Token) : Bool :=
  comment.span.start < n.span.stop || comment.span.start.line == n.span.stop.line

/-- The waiting comments that trail a node, and those that do not. -/
def trailingComments (s : State) (n : Node) : List Token × List Token :=
  if s.config.attachComments then s.comments.partition (trails n) else ([], s.comments)

/-- A statement that was read without reading a token is an error, and the token is passed over. -/
def stepOver (start : Nat) (s : State) : State :=
  if s.current.offset ≠ start || s.isAt .eof then s
  else (s.record (s.error .unreachableState (some .noInputConsumed))).advance

/-- After a statement: a semicolon is read, and comments are attached to the node. -/
def finishItem (start : Nat) (leading : List Token) (n : Node) (s : State) : Node × State :=
  let s := stepOver start s
  let s := if s.isAt (.punctuation .semicolon) then s.advance else s
  let (trailing, waiting) := trailingComments s n
  (n.modify fun d => { d with leading, trailing }, { s with comments := waiting })

/-- After an error: it is kept, what the statement left behind is cleared away, and the token at
fault is passed over, unless it closes a block or a name waits in the lookaside. The name becomes a
node. -/
def recover (e : SyntaxError) (scope : ScopeId) (s : State) : List Node × State :=
  let s := s.record e
  let s := { s with symbols := s.symbols.enter scope, templateScope := none }
  match s.lookaside with
  | some name => ([name], { s with lookaside := none })
  | none =>
    if s.isAt .eof || s.isAt (.punctuation .rBrace) then ([], s) else ([], s.advance)

/-- What an item is read by: a statement or, in an enum, an enumerator. -/
def itemProduction (rules : Rules) (context : Context) (s : State) : Production (Option Node) :=
  if context == .enumBody && atEnumerator s then enumerator rules else statement rules

/-- One item of a list, with the comments before it. -/
def item (rules : Rules) (context : Context) (s : State) : List Node × State :=
  let (leading, nodes) := leadingComments s
  let standalone := nodes ++ leading.map .ofComment
  match (itemProduction rules context s).run { s with comments := [] } with
  | (.ok (some n), after) =>
    let (n, after) := finishItem s.current.offset leading n after
    (nodes ++ [n], after)
  | (.ok none, after) => (standalone, (after.record (after.error .incorrectToken none)).advance)
  | (.error e, after) =>
    let (rest, after) := recover e s.symbols.current after
    (standalone ++ rest, after)

/-- The items of a list, after those in `nodes`, with comments left over at the end. -/
def itemsAfter (rules : Rules) (context : Context) : Nat → List Node → State → List Node × State
  | 0, nodes, s => (nodes, s)
  | n + 1, nodes, s =>
    let s := skipSemicolons rules.rounds s
    if endsItems context s then
      (nodes ++ s.comments.map .ofComment, { s with comments := [] })
    else
      let (found, s) := item rules context s
      itemsAfter rules context n (nodes ++ found) s

/-- The items of a list of statements. -/
def items (rules : Rules) (context : Context) : StateM State (List Node) :=
  itemsAfter rules context rules.rounds []

end SableFront.Grammar
