import SableFront.Token.Literal

/-!
# Tokens: reading one lexeme

The first character of a text decides what kind of lexeme stands there. Operators and punctuation
are read from the vocabulary: the longest spelling that the text starts with wins. Comments come
before them, since both start with an operator's spelling.
-/

namespace SableFront.Lexeme

/-- Blanks within a line. -/
def isBlank (c : Char) : Bool := c = ' ' || c = '\t' || c = '\r'

/-- The first character of a word: an ASCII letter or an underscore. -/
def isWordStart (c : Char) : Bool := c.isAlpha || c = '_'

/-- A further character of a word: an ASCII letter or digit or an underscore. -/
def isWordChar (c : Char) : Bool := c.isAlphanum || c = '_'

/-- The spellings of everything in the vocabulary that is written in symbols. -/
def symbols : List (List Char × Kind) :=
  (Operator.all.filter fun o => !o.isWord).map (fun o => (o.spelling.toList, .operator o)) ++
    Punctuation.all.map fun p => (p.spelling.toList, .punctuation p)

/-- The entry with the longer spelling, the first of two equally long ones. -/
def longer (best : Option (List Char × Kind)) (entry : List Char × Kind) :
    Option (List Char × Kind) :=
  match best with
  | none => some entry
  | some b => if b.1.length < entry.1.length then some entry else some b

/-- The entry with the longest spelling that a text starts with. -/
def longestSymbol? (cs : List Char) : Option (List Char × Kind) :=
  (symbols.filter fun entry => entry.1.isPrefixOf cs).foldl longer none

/-- The kind and value of a word. -/
def ofWord (word : String) : Kind × Value :=
  match Keyword.ofSpelling? word with
  | some .trueKw => (.bool, .bool true)
  | some .falseKw => (.bool, .bool false)
  | some .nullptrKw => (.null, .none)
  | some k => (.keyword k, .none)
  | none =>
    match Operator.ofWord? word with
    | some o => (.operator o, .none)
    | none => (.ident, .text word)

/-- The word at `c` before `cs`. -/
def scanWord (c : Char) (cs : List Char) : Lexeme :=
  let tail := cs.takeWhile isWordChar
  let (kind, value) := ofWord (String.ofList (c :: tail))
  ⟨kind, value, tail.length⟩

/-- The length of a text up to and including the first end of a block comment. -/
def commentEnd? : List Char → Option Nat
  | [] => none
  | '*' :: '/' :: _ => some 2
  | _ :: cs => (commentEnd? cs).map (· + 1)

/-- The operator or punctuation mark at `c` before `cs`, else invalid text of one character. -/
def scanSymbol (c : Char) (cs : List Char) : Lexeme :=
  match longestSymbol? (c :: cs) with
  | some (spelling, kind) => .bare kind (spelling.length - 1)
  | none => .invalid c cs 0

/-- What starts with a slash: a comment, or an operator. A block comment without an end is invalid
text up to the end. -/
def scanSlash (c : Char) (cs : List Char) : Lexeme :=
  match cs with
  | '/' :: _ => .ofText .lineComment c cs (cs.takeWhile (· ≠ '\n')).length
  | '*' :: body =>
    match commentEnd? body with
    | some n => .ofText .blockComment c cs (n + 1)
    | none => .invalid c cs cs.length
  | _ => scanSymbol c cs

/-- The lexeme at `c` before `cs`. -/
def scan (c : Char) (cs : List Char) : Lexeme :=
  if isBlank c then .bare .whitespace (cs.takeWhile isBlank).length
  else if c = '\n' then .bare .newline 0
  else if c = '/' then scanSlash c cs
  else if c = '"' then Literal.scanString c cs
  else if c = '\'' then Literal.scanChar c cs
  else if Number.isDigit 10 c then Number.scan c cs
  else if isWordStart c then scanWord c cs
  else scanSymbol c cs

end SableFront.Lexeme
