/-!
# Vocabulary: reserved words

The reserved words of Sable, with their spellings, the family each belongs to, and the reading of a
word back into the keyword it spells. Word operators (`and`, `or`, `not`) are operators and not
keywords. The literal words (`true`, `false`, `nullptr`) are reserved here and become literals when
text is cut into tokens.
-/

namespace SableFront

/-- A reserved word. -/
inductive Keyword
  | returnKw | ifKw | elifKw | elseKw | forKw | whileKw | doKw
  | staticKw | constKw | externKw | localKw | globalKw
  | newKw | deleteKw
  | fromKw | importKw | asKw
  | noneKw | classKw | enumKw | functionKw | operatorKw | templateKw
  | publicKw | privateKw | protectedKw
  | trueKw | falseKw | nullptrKw
  deriving DecidableEq

namespace Keyword

/-- The family of a reserved word. -/
inductive Category
  | controlFlow | storage | memory | imports | definition | visibility | typeName | literal
  deriving DecidableEq

/-- The spelling by which a keyword is shown. -/
def spelling : Keyword → String
  | returnKw => "return" | ifKw => "if" | elifKw => "elif" | elseKw => "else" | forKw => "for"
  | whileKw => "while" | doKw => "do"
  | staticKw => "static" | constKw => "const" | externKw => "extern" | localKw => "local"
  | globalKw => "global"
  | newKw => "new" | deleteKw => "delete"
  | fromKw => "from" | importKw => "import" | asKw => "as"
  | noneKw => "none" | classKw => "class" | enumKw => "enum" | functionKw => "function"
  | operatorKw => "operator" | templateKw => "template"
  | publicKw => "public" | privateKw => "private" | protectedKw => "protected"
  | trueKw => "true" | falseKw => "false" | nullptrKw => "nullptr"

/-- Other spellings that are read as the same keyword. -/
def aliases : Keyword → List String
  | functionKw => ["fn"]
  | _ => []

/-- Every spelling that is read as the keyword, the shown one first. -/
def spellings (k : Keyword) : List String := k.spelling :: k.aliases

/-- The name of a keyword in token listings. -/
def label : Keyword → String
  | returnKw => "Return" | ifKw => "If" | elifKw => "Elif" | elseKw => "Else" | forKw => "For"
  | whileKw => "While" | doKw => "Do"
  | staticKw => "Static" | constKw => "Const" | externKw => "Extern" | localKw => "Local"
  | globalKw => "Global"
  | newKw => "New" | deleteKw => "Delete"
  | fromKw => "From" | importKw => "Import" | asKw => "As"
  | noneKw => "None" | classKw => "Class" | enumKw => "Enum" | functionKw => "Function"
  | operatorKw => "Operator" | templateKw => "Template"
  | publicKw => "Public" | privateKw => "Private" | protectedKw => "Protected"
  | trueKw => "True" | falseKw => "False" | nullptrKw => "Nullptr"

/-- The family a keyword belongs to. -/
def category : Keyword → Category
  | returnKw | ifKw | elifKw | elseKw | forKw | whileKw | doKw => .controlFlow
  | staticKw | constKw | externKw | localKw | globalKw => .storage
  | newKw | deleteKw => .memory
  | fromKw | importKw | asKw => .imports
  | noneKw => .typeName
  | classKw | enumKw | functionKw | operatorKw | templateKw => .definition
  | publicKw | privateKw | protectedKw => .visibility
  | trueKw | falseKw | nullptrKw => .literal

/-- All keywords, in the order in which the vocabulary lists them. -/
def all : List Keyword :=
  [returnKw, ifKw, elifKw, elseKw, forKw, whileKw, doKw,
   staticKw, constKw, externKw, localKw, globalKw,
   newKw, deleteKw, fromKw, importKw, asKw,
   noneKw, classKw, enumKw, functionKw, operatorKw, templateKw,
   publicKw, privateKw, protectedKw, trueKw, falseKw, nullptrKw]

/-- The keyword that a word spells; case matters. -/
def ofSpelling? (word : String) : Option Keyword :=
  all.find? fun k => k.spellings.contains word

/-- The keyword says how a binding is stored (`static`, `const`, …). -/
def isStorage (k : Keyword) : Bool := k.category == .storage

/-- The keyword says who may see a definition. -/
def isVisibility (k : Keyword) : Bool := k.category == .visibility

/-- The keyword names a builtin type, so it may stand where a type name does. -/
def isTypeName (k : Keyword) : Bool := k.category == .typeName

theorem mem_all (k : Keyword) : k ∈ all := by cases k <;> decide

end Keyword

end SableFront
