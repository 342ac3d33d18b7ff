import SableFront.Token.Basic
import SableFront.Symbol.Table

/-!
# Trees: nodes

A syntax tree has one shape of node: a form, the token it is anchored at, the span of text it
covers, and its children in the order of the text. The form says which children there are: a
child that may be missing is announced by a flag, and a group of children by its size. Whatever
concerns all nodes alike, such as walking, validity and spans, needs no case for each form.

Besides its anchor a node keeps the further keywords and operators it was read from, its marks, and
the comments attached to it.
-/

namespace SableFront

/-- What an identifier refers to, beyond its type. -/
inductive Role
  | plain | parameter
  /-- A member of a class or enum. -/
  | property
  /-- The name of an enum, where it is declared. -/
  | enumeration
  /-- A segment of an import path, or a name that an import binds. -/
  | path
  deriving DecidableEq

/-- An occurrence of a name. -/
structure Ident where
  name : String
  /-- The symbol the name is bound to, if it is bound. -/
  symbol : Option SymbolId
  /-- The type of the symbol when the name was bound. -/
  type : SymbolType
  role : Role
  /-- The occurrence introduces the name. -/
  declaration : Bool
  /-- The symbol is one of the builtin types. -/
  builtin : Bool
  deriving DecidableEq

/-- The syntactic forms. Children are listed in each comment; those in parentheses may be missing
and those with a star may be any number. -/
inductive Form
  | ident (i : Ident)
  /-- Children: part* -/
  | dotted
  | int (n : Nat)
  | float (bits : UInt64) (single : Bool)
  | str (s : String)
  | char (c : Char)
  | bool (b : Bool)
  | null
  /-- Children: item* -/
  | list
  /-- Children: (key value)* -/
  | dict
  /-- Children: target (start) (stop) -/
  | slice (start stop : Bool)
  /-- Children: target index -/
  | index
  /-- Children: callee generic* argument* -/
  | call (generics : Nat)
  /-- Children: parameters (return type) body -/
  | lambda (returns : Bool)
  /-- Children: operand -/
  | deref
  /-- Children: operand -/
  | invert
  /-- Children: operand -/
  | stepBefore
  /-- Children: operand -/
  | stepAfter
  /-- Children: left right -/
  | binary
  /-- Children: lower value upper -/
  | between
  /-- Children: target value -/
  | assignment
  /-- Children: operand -/
  | delete
  /-- Children: type argument*. The flag tells an empty argument list from none. -/
  | new (call : Bool)
  /-- Children: module (alias) item* -/
  | imports (named : Bool)
  /-- Children: name (alias) -/
  | importItem (named : Bool)
  /-- Children: (value) -/
  | returns
  /-- Children: condition body -/
  | ifBranch
  /-- Children: condition body -/
  | elifBranch
  /-- Children: body -/
  | elseBranch
  /-- Children: branch* -/
  | conditional
  /-- Children: (start) (condition) (step) body -/
  | forLoop (start condition step : Bool)
  /-- Children: binding iterable body -/
  | forEach
  /-- Children: condition body -/
  | whileLoop
  /-- Children: body condition -/
  | doWhile
  /-- Children: (visibility) name base* body -/
  | classDef (isEnum visibility : Bool) (bases : Nat)
  | storage
  /-- Children: (storage) name generic* -/
  | typeRef (storage : Bool) (generics : Nat) (type : SymbolType)
  /-- Children: type name (default) -/
  | identDef (default : Bool)
  /-- Children: parameter* -/
  | params
  /-- Children: type -/
  | returnType
  /-- Children: parameter* item -/
  | template
  /-- Children: (visibility) (storage) name parameters (return type) body -/
  | function (visibility storage returns : Bool)
  /-- Children: (visibility) (storage) parameters (return type) body. The first mark is the
  operator. -/
  | operatorDef (visibility storage returns : Bool)
  /-- A visibility keyword; a section label if it stands alone. -/
  | visibility
  /-- Children: statement*. The flag tells whether the closing brace was there. -/
  | block (closed : Bool)
  /-- A comment that stands alone. -/
  | comment
  /-- What could not be read, or stands for a missing operand. -/
  | invalid
  deriving DecidableEq

/-- All of a node but its children. -/
structure NodeData where
  form : Form
  /-- The anchor: the keyword, operator, name or literal the node was built from. -/
  token : Token
  span : Span
  marks : List Token
  /-- Comments on the lines before. -/
  leading : List Token
  /-- Comments inside, or after it on its last line. -/
  trailing : List Token

/-- A syntax tree. -/
inductive Node
  | mk (data : NodeData) (children : List Node)

namespace Node

def data : Node → NodeData
  | mk data _ => data

def children : Node → List Node
  | mk _ children => children

def form (n : Node) : Form := n.data.form
def token (n : Node) : Token := n.data.token
def span (n : Node) : Span := n.data.span
def marks (n : Node) : List Token := n.data.marks
def leading (n : Node) : List Token := n.data.leading
def trailing (n : Node) : List Token := n.data.trailing

/-- The node with its own data changed. -/
def modify (n : Node) (f : NodeData → NodeData) : Node := mk (f n.data) n.children

/-- The node with its form changed. -/
def modifyForm (n : Node) (f : Form → Form) : Node := n.modify fun d => { d with form := f d.form }

/-! ### Building -/

/-- The least span around a span and others. -/
def hull (s : Span) (others : List Span) : Span := others.foldl Span.merge s

/-- A node that covers its anchor, its marks and the spans given. These may be those of some of its
children only, and of tokens that it does not keep. -/
def build (form : Form) (anchor : Token) (children : List Node) (marks : List Token)
    (spans : List Span) : Node :=
  mk ⟨form, anchor, hull anchor.span (spans ++ marks.map Token.span), marks, [], []⟩ children

/-- A node without children. -/
def leaf (form : Form) (anchor : Token) : Node := build form anchor [] [] []

/-- A node that covers its anchor and all its children. -/
def branch (form : Form) (anchor : Token) (children : List Node) : Node :=
  build form anchor children [] (children.map span)

/-- The node with a span around a further stretch of text. -/
def cover (n : Node) (s : Span) : Node := n.modify fun d => { d with span := d.span.merge s }

/-- The node with one more mark. -/
def mark (n : Node) (t : Token) : Node :=
  (n.cover t.span).modify fun d => { d with marks := d.marks ++ [t] }

/-- The node with a mark before all others. -/
def markFirst (n : Node) (t : Token) : Node :=
  (n.cover t.span).modify fun d => { d with marks := t :: d.marks }

/-- A name that is not bound yet. -/
def name (s : String) (anchor : Token) : Node :=
  leaf (.ident ⟨s, none, .unknown, .plain, false, false⟩) anchor

/-- A comment as a node of its own. -/
def ofComment (t : Token) : Node := leaf .comment t

/-- The node of a literal token. -/
def ofLiteral (t : Token) : Node :=
  leaf
    (match t.kind, t.value with
      | .int, .int n => .int n
      | .float, .float bits single => .float bits single
      | .str, .str s => .str s
      | .char, .char c => .char c
      | .bool, .bool b => .bool b
      | .null, _ => .null
      | _, _ => .invalid)
    t

/-! ### Names -/

/-- The identifier of a node, if it is one. -/
def ident? (n : Node) : Option Ident :=
  match n.form with
  | .ident i => some i
  | _ => none

/-- Change the identifier of a node; other nodes stay as they are. -/
def modifyIdent (n : Node) (f : Ident → Ident) : Node :=
  n.modifyForm fun form =>
    match form with
    | .ident i => .ident (f i)
    | other => other

/-- Bind a name to a symbol. -/
def attach (n : Node) (id : SymbolId) (s : Symbol) (role : Role) : Node :=
  n.modifyIdent fun i =>
    { i with symbol := some id, type := s.type, builtin := s.origin == .builtin, role }

/-- Say that a name is introduced here. -/
def declared (n : Node) : Node := n.modifyIdent fun i => { i with declaration := true }

/-- Give a name a role. -/
def withRole (n : Node) (role : Role) : Node := n.modifyIdent fun i => { i with role }

/-- The type that a type reference stands for. -/
def referredType? (n : Node) : Option SymbolType :=
  match n.form with
  | .typeRef _ _ type => some type
  | _ => none

/-! ### All nodes -/

mutual

/-- The node and all nodes below it, each before its children. -/
def walk : Node → List Node
  | mk data children => mk data children :: walkAll children

/-- The nodes of several trees. -/
def walkAll : List Node → List Node
  | [] => []
  | n :: ns => walk n ++ walkAll ns

end

mutual

/-- A node is valid if its anchor and all its children are, if it is not itself a stand-in, and if
it is not a block without its closing brace. -/
def isValid : Node → Bool
  | mk data children =>
    (match data.form with
      | .invalid => false
      | .block closed => closed
      | _ => true) && data.token.isValid && allValid children

/-- All of several trees are valid. -/
def allValid : List Node → Bool
  | [] => true
  | n :: ns => isValid n && allValid ns

end

/-- The name of a syntactic form. Binary operators are named by their class. -/
def tag (n : Node) : String :=
  match n.form with
  | .ident _ => "ident" | .dotted => "dotted" | .int _ => "int" | .float .. => "float"
  | .str _ => "string" | .char _ => "char" | .bool _ => "bool" | .null => "null"
  | .list => "list" | .dict => "dict" | .slice .. => "slice" | .index => "index"
  | .call _ => "call" | .lambda _ => "lambda" | .deref => "deref" | .invert => "invert"
  | .stepBefore => "pre-incdec" | .stepAfter => "post-incdec"
  | .binary =>
    match n.token.kind.opClass? with
    | some .multiplicative => "mul"
    | some .additive => "add"
    | some .shift => "shift"
    | some .bitwise => "bit"
    | some .relational => "rel"
    | some .logical => "logic"
    | _ => "invalid"
  | .between => "between" | .assignment => "assign" | .delete => "delete" | .new _ => "new"
  | .imports _ => "import" | .importItem _ => "import-ident" | .returns => "return"
  | .ifBranch => "if" | .elifBranch => "elif" | .elseBranch => "else"
  | .conditional => "if-statement" | .forLoop .. => "for" | .forEach => "for"
  | .whileLoop => "while" | .doWhile => "while" | .classDef .. => "class"
  | .storage => "storage" | .typeRef .. => "type" | .identDef _ => "ident-def"
  | .params => "params" | .returnType => "return-type" | .template => "template"
  | .function .. => "function" | .operatorDef .. => "operator" | .visibility => "visibility"
  | .block _ => "block" | .comment => "comment" | .invalid => "invalid"

end Node

end SableFront
