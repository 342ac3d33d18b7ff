import SableFront.Tree.Basic
import SableFront.Config

/-!
# Highlighting

Which stretch of which line is shown as what. Every node classifies its anchor, unless that is the
first token of a child, which then does so; marks and attached comments are classified by their
kind. A token over several lines gives a record for each line that it covers. The records are in
the order of the text, and of several for one place the first found is kept.
-/

namespace SableFront

namespace Highlight

/-- What a stretch of text is shown as. -/
inductive Category
  | namespaceName | typeName | className | enumName | parameter | plainName | property
  | functionName | keyword | modifier | comment | string | number | operator
  deriving DecidableEq

namespace Category

/-- All categories, in the order of the legend. -/
def all : List Category :=
  [namespaceName, typeName, className, enumName, parameter, plainName, property,
   functionName, keyword, modifier, comment, string, number, operator]

/-- The name of a category in the legend. -/
def label : Category → String
  | namespaceName => "namespace" | typeName => "type" | className => "class" | enumName => "enum"
  | parameter => "parameter" | plainName => "variable" | property => "property"
  | functionName => "function" | keyword => "keyword" | modifier => "modifier"
  | comment => "comment" | string => "string" | number => "number" | operator => "operator"

end Category

/-- What is added to a category. -/
inductive Modifier
  | declaration | readonly | static | defaultLibrary
  deriving DecidableEq

namespace Modifier

/-- All modifiers, in the order of the legend. -/
def all : List Modifier := [declaration, readonly, static, defaultLibrary]

/-- The name of a modifier in the legend. -/
def label : Modifier → String
  | declaration => "declaration" | readonly => "readonly" | static => "static"
  | defaultLibrary => "defaultLibrary"

/-- The modifiers in either of two lists, in the order of the legend. -/
def union (ms ns : List Modifier) : List Modifier :=
  all.filter fun m => ms.contains m || ns.contains m

end Modifier

/-- A stretch of one line, in UTF-16 units, and what it is shown as. -/
structure Record where
  start : Position
  length : Nat
  category : Category
  modifiers : List Modifier
  deriving DecidableEq

/-! ### Tokens -/

/-- The category of a token by itself. -/
def categoryOfKind : Kind → Option Category
  | .keyword k => some (if k.isStorage || k.isVisibility then .modifier else .keyword)
  | .bool | .null => some .keyword
  | .operator _ => some .operator
  | .int | .float => some .number
  | .str | .char => some .string
  | .lineComment | .blockComment => some .comment
  | .ident => some .plainName
  | .invalid | .eof | .whitespace | .newline | .punctuation _ => none

/-- The lines of a text. -/
def lines : List Char → List (List Char)
  | [] => [[]]
  | c :: cs =>
    if c = '\n' then [] :: lines cs
    else
      match lines cs with
      | line :: rest => (c :: line) :: rest
      | [] => [[c]]

/-- A line without the carriage return at its end. -/
def withoutReturn (line : List Char) : List Char :=
  if line.getLast? = some '\r' then line.dropLast else line

/-- The records of lines from a position on; lines with nothing to show have none. -/
def lineRecords (category : Category) (modifiers : List Modifier) :
    Position → List (List Char) → List Record
  | _, [] => []
  | p, line :: rest =>
    let length := unitSize (withoutReturn line)
    let others := lineRecords category modifiers ⟨p.line + 1, 0⟩ rest
    if length = 0 then others else ⟨p, length, category, modifiers⟩ :: others

/-- The records of a token. -/
def tokenRecords (t : Token) (category : Category) (modifiers : List Modifier) : List Record :=
  if t.width = 0 then []
  else if t.span.stop.line = t.span.start.line then
    [⟨t.span.start, t.width, category, modifiers⟩]
  else
    match t.text? with
    | some text => lineRecords category modifiers t.span.start (lines text.toList)
    | none => []

/-- The records of a token that is classified by its kind. -/
def markRecords (t : Token) : List Record :=
  match categoryOfKind t.kind with
  | some category => tokenRecords t category []
  | none => []

/-- The record of a comment. -/
def commentRecords (t : Token) : List Record := tokenRecords t .comment []

/-! ### Nodes -/

/-- The category of a name, by its role and type. -/
def categoryOfName (i : Ident) : Category :=
  if i.role = .enumeration then .enumName
  else if i.type.isType then if i.type.has .struct then .className else .typeName
  else if i.type.isFunction then .functionName
  else
    match i.role with
    | .parameter => .parameter
    | .property => .property
    | .path => .namespaceName
    | .plain | .enumeration => .plainName

/-- The category of a node's anchor, if the node itself classifies it. -/
def categoryOf (data : NodeData) : Option Category :=
  match data.form with
  | .ident i => some (categoryOfName i)
  | .dotted | .call _ | .index | .slice .. | .typeRef .. | .identDef _ | .conditional | .params
  | .block _ | .importItem _ | .list | .dict | .returnType | .invalid => none
  | _ => categoryOfKind data.token.kind

/-- The modifiers of a node's anchor. -/
def modifiersOf (data : NodeData) : List Modifier :=
  match data.form with
  | .ident i =>
    (if i.declaration then [.declaration] else []) ++
      (if i.builtin then [.defaultLibrary] else [])
  | _ => []

/-- What a storage keyword adds to the name that is declared with it. -/
def storageModifiers (storage : Option Node) : List Modifier :=
  match storage with
  | some n =>
    if n.token.isKeyword .constKw then [.readonly]
    else if n.token.isKeyword .staticKw then [.static]
    else []
  | none => []

/-- The storage keyword in a type reference. -/
def storageOfType (type : Node) : Option Node :=
  match type.form with
  | .typeRef true .. => type.children.head?
  | _ => none

/-- The modifiers that a node passes to its children, in order; children beyond get none. -/
def passedOn (data : NodeData) (children : List Node) : List (List Modifier) :=
  match data.form with
  | .identDef _ => [[], storageModifiers (children.head?.bind storageOfType)]
  | .function visibility storage _ =>
    let before := if visibility then 1 else 0
    if storage then List.replicate (before + 1) [] ++ [storageModifiers children[before]?]
    else []
  | _ => []

mutual

/-- The records of a node and all below it, with modifiers for its anchor passed to it. -/
def nodeRecords (passed : List Modifier) : Node → List Record
  | .mk data children =>
    data.leading.flatMap commentRecords ++
      (match categoryOf data with
        | some category =>
          tokenRecords data.token category (Modifier.union (modifiersOf data) passed)
        | none => []) ++
      data.marks.flatMap markRecords ++
      childRecords (passedOn data children) children ++
      data.trailing.flatMap commentRecords

/-- The records of children, with the modifiers passed to each. -/
def childRecords : List (List Modifier) → List Node → List Record
  | _, [] => []
  | [], n :: ns => nodeRecords [] n ++ childRecords [] ns
  | passed :: rest, n :: ns => nodeRecords passed n ++ childRecords rest ns

end

/-! ### All records in order -/

/-- The category is shown. -/
def shows (config : HighlightConfig) : Category → Bool
  | .comment => config.comments
  | .operator => config.operators
  | .keyword | .modifier => config.keywords
  | _ => true

/-- Records in order, without those that start where the one kept before starts. -/
def firstsAfter (last : Record) : List Record → List Record
  | [] => []
  | r :: rs => if r.start = last.start then firstsAfter last rs else r :: firstsAfter r rs

/-- Records in order, the first of each place. -/
def firsts : List Record → List Record
  | [] => []
  | r :: rs => r :: firstsAfter r rs

/-- Records put in order; of several for one place the first is kept. -/
def inOrder (rs : List Record) : List Record :=
  firsts (rs.mergeSort fun a b => decide (a.start ≤ b.start))

end Highlight

/-- The highlighting of several trees. -/
def highlight (config : HighlightConfig) (nodes : List Node) : List Highlight.Record :=
  Highlight.inOrder <|
    (nodes.flatMap (Highlight.nodeRecords [])).filter fun r => Highlight.shows config r.category

end SableFront
