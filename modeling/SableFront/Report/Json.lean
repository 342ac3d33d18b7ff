/-!
# Reports: JSON documents

The JSON values that reports need, and their text with one item or member to a line. An object
lists its members in the order in which they are written.
-/

namespace SableFront.Report

/-- A JSON value. -/
inductive Json
  | number (n : Nat)
  | string (s : String)
  | array (items : List Json)
  | object (members : List (String × Json))

namespace Json

/-- A character as it stands within a JSON string. -/
def escaped (c : Char) : List Char :=
  if c = '"' ∨ c = '\\' then ['\\', c]
  else if c = '\n' then ['\\', 'n']
  else if c = '\r' then ['\\', 'r']
  else if c = '\t' then ['\\', 't']
  else if c = '\x08' then ['\\', 'b']
  else if c = '\x0c' then ['\\', 'f']
  else if c.toNat < 0x20 then
    '\\' :: 'u' :: '0' :: '0' :: Nat.digitChar (c.toNat / 16) :: [Nat.digitChar (c.toNat % 16)]
  else [c]

/-- A text as a JSON string. -/
def quoted (s : String) : String := String.ofList ('"' :: s.toList.flatMap escaped ++ ['"'])

/-- A line break and the indentation of a depth. -/
def newline (depth : Nat) : String := String.ofList ('\n' :: List.replicate (2 * depth) ' ')

/-- The parts of an array or object at a depth, between its brackets. -/
def enclosed (opener closer : String) (depth : Nat) (parts : List String) : String :=
  if parts.isEmpty then opener ++ closer
  else
    opener ++ newline (depth + 1) ++ ("," ++ newline (depth + 1)).intercalate parts ++
      newline depth ++ closer

mutual

/-- The text of a value that starts at a depth. -/
def textAt (depth : Nat) : Json → String
  | number n => toString n
  | string s => quoted s
  | array items => enclosed "[" "]" depth (itemTexts (depth + 1) items)
  | object members => enclosed "\x7b" "\x7d" depth (memberTexts (depth + 1) members)

/-- The texts of several values. -/
def itemTexts (depth : Nat) : List Json → List String
  | [] => []
  | v :: vs => textAt depth v :: itemTexts depth vs

/-- The texts of several members. -/
def memberTexts (depth : Nat) : List (String × Json) → List String
  | [] => []
  | (name, v) :: rest => (quoted name ++ ": " ++ textAt depth v) :: memberTexts depth rest

end

/-- The text of a value. -/
def text (v : Json) : String := textAt 0 v

end Json

end SableFront.Report
