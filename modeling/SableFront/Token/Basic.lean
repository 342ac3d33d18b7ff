import SableFront.Token.Kind
import SableFront.Source.Position
import SableFront.Decimal.Notation
import SableFront.Text.Quoted

/-!
# Tokens: values and places

A token has a kind, the value it denotes, and its place in the text, given both by positions and in
bytes. A token is a plain value: nothing about it depends on where reading has gone since.
-/

namespace SableFront

/-- What a token denotes. Identifiers, comments and invalid text carry their own text. -/
inductive Value
  | none
  | int (n : Nat)
  /-- The bits of a double, and whether the literal asks for single precision. -/
  | float (bits : UInt64) (single : Bool)
  | str (s : String)
  | char (c : Char)
  | bool (b : Bool)
  | text (s : String)
  deriving DecidableEq

/-- A token in its place. -/
structure Token where
  kind : Kind
  value : Value
  span : Span
  /-- The byte offset of the first character. -/
  offset : Nat
  /-- The length in bytes. -/
  size : Nat
  /-- The length in UTF-16 units. -/
  width : Nat
  deriving DecidableEq

namespace Token

/-- The empty token at the end of the text. -/
def eof (p : Position) (offset : Nat) : Token := ⟨.eof, .none, .point p, offset, 0, 0⟩

/-- The empty token that stands where an operand is missing. -/
def placeholder (p : Position) (offset : Nat) : Token := ⟨.invalid, .none, .point p, offset, 0, 0⟩

/-- The byte offset of the first character after the token. -/
def stop (t : Token) : Nat := t.offset + t.size

/-- The token is anything but invalid text. -/
def isValid (t : Token) : Bool := t.kind != .invalid

/-- The token is the end of the text. -/
def isEof (t : Token) : Bool := t.kind == .eof

/-- The token is the given keyword. -/
def isKeyword (t : Token) (k : Keyword) : Bool := t.kind == .keyword k

/-- The token is an operator of the given class. -/
def isOfClass (t : Token) (c : Operator.Class) : Bool := t.kind.opClass? == some c

/-- The token's own text, for those that carry it. -/
def text? (t : Token) : Option String :=
  match t.value with
  | .text s => some s
  | _ => none

/-- The name a token refers to: an identifier, or a keyword that names a type. -/
def name? (t : Token) : Option String :=
  match t.kind with
  | .ident => t.text?
  | .keyword k => if k.isTypeName then some k.spelling else none
  | _ => none

/-- The token as messages and listings show it. -/
def describe (t : Token) : String :=
  match t.kind, t.value with
  | .keyword k, _ => k.spelling
  | .operator o, _ => o.spelling
  | .punctuation p, _ => p.spelling
  | .eof, _ => "end of file"
  | _, .text s => s
  | _, .int n => toString n
  | _, .float bits single =>
    String.ofList (Decimal.plain bits) ++ (if single then "f" else "")
  | _, .str s => String.ofList (Text.quoted '"' s.toList)
  | _, .char c => String.ofList (Text.quoted '\'' [c])
  | _, .bool b => if b then "true" else "false"
  | .null, .none => "nullptr"
  | kind, .none => kind.label

end Token

end SableFront
