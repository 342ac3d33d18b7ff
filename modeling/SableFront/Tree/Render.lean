import SableFront.Tree.Basic

/-!
# Trees: the text of a tree

A tree is shown on one line, as nested parentheses that each start with a word for the form.
Operators stand between or beside their operands, an absent part of a fixed place is shown as `_`,
and groups such as arguments or base classes have parentheses of their own.
-/

namespace SableFront.Node

/-- A word and the parts after it, in parentheses. -/
def group (head : String) (parts : List String) : String :=
  "(" ++ " ".intercalate (head :: parts) ++ ")"

/-- Parts in fixed places, of which some are absent; further parts follow. -/
def slots : List Bool → List String → List String
  | [], parts => parts
  | true :: rest, part :: parts => part :: slots rest parts
  | _ :: rest, parts => "_" :: slots rest parts

/-- The entries of a dictionary, from keys and values in turn. -/
def entries : List String → List String
  | key :: value :: rest => group "entry" [key, value] :: entries rest
  | rest => rest

/-- The group that names an alias, if there is one, and the parts after it. -/
def aliased (named : Bool) : List String → List String
  | part :: parts => if named then group "as" [part] :: parts else part :: parts
  | [] => []

/-- The number of prefixes present. -/
def present (flags : List Bool) : Nat := flags.count true

/-- The word at the head of a node's text. -/
def head (n : Node) : String :=
  match n.form with
  | .forEach => "for-each"
  | .doWhile => "do-while"
  | .classDef true _ _ => "enum"
  | .block false => "block!"
  | _ => n.tag

/-- The parts of a node's text, from the texts of its children. -/
def parts (data : NodeData) (children : List String) : List String :=
  let op := data.token.describe
  match data.form with
  | .ident i => [i.name ++ if i.type.has .pack then "..." else ""]
  | .int n => [toString n]
  | .float bits single => [String.ofList (Decimal.inTree bits) ++ if single then "f" else ""]
  | .str s => [String.ofList (Text.quoted '"' s.toList)]
  | .char c => [String.ofList (Text.quoted '\'' [c])]
  | .bool b => [if b then "true" else "false"]
  | .null => []
  | .dict => entries children
  | .slice start stop => slots [true, start, stop] children
  | .call generics =>
    children.take 1 ++
      (if generics = 0 then [] else [group "generics" ((children.drop 1).take generics)]) ++
      [group "args" (children.drop (generics + 1))]
  | .invert => op :: children
  | .stepBefore => op :: children
  | .stepAfter => children ++ [op]
  | .binary => children.take 1 ++ op :: children.drop 1
  | .assignment => children.take 1 ++ op :: children.drop 1
  | .between =>
    let second := (data.marks.head?.map Token.describe).getD "?"
    children.take 1 ++ op :: (children.drop 1).take 1 ++ second :: children.drop 2
  | .new call => if call then children.take 1 ++ [group "args" (children.drop 1)] else children
  | .imports named => children.take 1 ++ aliased named (children.drop 1)
  | .importItem named => children.take 1 ++ aliased named (children.drop 1)
  | .forLoop start condition step => slots [start, condition, step] children
  | .classDef _ visibility bases =>
    let lead := present [visibility] + 1
    children.take lead ++
      (if bases = 0 then [] else [group "bases" ((children.drop lead).take bases)]) ++
      children.drop (lead + bases)
  | .storage => [op]
  | .visibility => [op]
  | .comment => [op]
  | .typeRef storage generics _ =>
    let lead := present [storage] + 1
    children.take lead ++ (if generics = 0 then [] else [group "generics" (children.drop lead)]) ++
      data.marks.map Token.describe
  | .template => group "params" children.dropLast :: children.getLast?.toList
  | .operatorDef visibility storage _ =>
    let lead := present [visibility, storage]
    children.take lead ++ (data.marks.head?.map Token.describe).toList ++ children.drop lead
  | .invalid => []
  | _ => children

mutual

/-- The text of a tree. -/
def render : Node → String
  | mk data children => group (head (mk data children)) (parts data (renderAll children))

/-- The texts of several trees. -/
def renderAll : List Node → List String
  | [] => []
  | n :: ns => render n :: renderAll ns

end

end SableFront.Node
