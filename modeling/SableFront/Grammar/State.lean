import SableFront.Token.Significant
import SableFront.Tree.Basic
import SableFront.Diagnostic
import SableFront.Config

/-!
# Grammar: the state of reading

Everything that reading a program knows at one moment: the current significant token and the cursor
after it, the symbols declared so far, the errors found, the comments that wait for a statement to
belong to, and two notes from one production to a later one. An earlier state can be gone back to;
what is not restored then is listed at `rewind`.
-/

namespace SableFront.Grammar

/-- The state of reading. -/
structure State where
  /-- The current significant token and the cursor after it. -/
  lexer : Lexer
  /-- A newline lies right before the current token. -/
  newlineBefore : Bool
  symbols : SymbolTable
  errors : List SyntaxError
  /-- A name that a statement has read already; the next value is this name. -/
  lookaside : Option Node
  /-- The comments passed over since a statement list last collected them. -/
  comments : List Token
  /-- Where the item of a template header is to be declared, while that item is awaited. -/
  templateScope : Option ScopeId
  config : ParseConfig

namespace State

/-- The current significant token. -/
def current (s : State) : Token := s.lexer.token

/-- The current token is of a kind. -/
def isAt (s : State) (k : Kind) : Bool := s.current.kind == k

/-- Go to the next significant token. -/
def bump (s : State) : State :=
  let found := s.lexer.cursor.significant
  { s with
    lexer := ⟨found.cursor, found.token⟩
    newlineBefore := found.newline
    comments := s.comments ++ found.comments }

/-- Go past the current token, unless it is the end of the text. -/
def advance (s : State) : State := if s.current.isEof then s else s.bump

/-- The state before the first significant token of a text. -/
def unread (source : String) (config : ParseConfig) : State :=
  ⟨.start source.toList, false, .initial, [], none, [], none, config⟩

/-- The state at the first significant token of a text. -/
def start (source : String) (config : ParseConfig) : State := (unread source config).bump

/-! ### Errors -/

/-- An error at the current token. -/
def error (s : State) (kind : ErrorKind) (reason : Option Reason) : SyntaxError :=
  ⟨kind, s.current, reason⟩

/-- Keep an error, unless as many are kept as wanted. -/
def record (s : State) (e : SyntaxError) : State :=
  if s.config.maxErrors.any (· ≤ s.errors.length) then s
  else { s with errors := s.errors ++ [e] }

/-- The empty node for an operand that is missing at the current token. -/
def placeholder (s : State) : Node :=
  .leaf .invalid (.placeholder s.current.span.start s.current.offset)

/-! ### Going back -/

/-- Go back from `s` to an earlier state: to its token, its number of errors and of waiting
comments, its lookaside and its current scope. Symbols and scopes made since stay in the table, and
comments that were collected since stay collected. -/
def rewind (s earlier : State) : State :=
  { s with
    lexer := earlier.lexer
    newlineBefore := earlier.newlineBefore
    errors := s.errors.take earlier.errors.length
    comments := s.comments.take earlier.comments.length
    lookaside := earlier.lookaside
    symbols := s.symbols.enter earlier.symbols.current }

/-! ### Names -/

/-- The role of an occurrence of a symbol. -/
def roleOf (s : State) (id : SymbolId) : Role :=
  if (s.symbols.symbol? id).any (·.origin == .parameter) then .parameter
  else if s.symbols.isMember id then .property
  else .plain

/-- The symbol that the current token names. -/
def currentSymbol? (s : State) : Option SymbolId := s.current.name?.bind s.symbols.find

/-- The current token names a type. -/
def atTypeName (s : State) : Bool :=
  ((s.currentSymbol?).bind s.symbols.symbol?).any (·.type.isType)

/-- The node of a name, bound to what the name means here. -/
def bindName (s : State) (t : Token) : Node :=
  let text := t.name?.getD ""
  let node := Node.name text t
  match s.symbols.find text with
  | some id =>
    match s.symbols.symbol? id with
    | some symbol => node.attach id symbol (s.roleOf id)
    | none => node
  | none => node

/-- The members of a node's symbol: of the name itself, or of the last part of a dotted name. -/
def membersOf (s : State) (n : Node) : Option ScopeId :=
  let ident? :=
    match n.form with
    | .dotted => (n.children.getLast?).bind Node.ident?
    | _ => n.ident?
  ((ident?.bind (·.symbol)).bind s.symbols.symbol?).bind (·.members)

/-- The role of a name that is declared directly in a scope. -/
def memberRole (s : State) (scope : ScopeId) : Role :=
  if ((s.symbols.scope? scope).bind (·.owner)).isSome then .property else .plain

end State

end SableFront.Grammar
