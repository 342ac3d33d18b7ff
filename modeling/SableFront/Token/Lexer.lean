import SableFront.Token.Scan

/-!
# Tokens: cutting a text

A cursor stands at a place of a text and knows what follows. Reading takes one lexeme, gives it its
place, and moves the cursor behind it, so the tokens of a text join without gaps and their texts
together are the whole text. At the end every reading finds the end-of-file token.

A lexer is a cursor with the token just read. A token of several `>` can be split: only its first
`>` is kept and the others are read again, which is how nested generic arguments close.
-/

namespace SableFront

/-- A place in a text, with the text that follows. -/
structure Cursor where
  rest : List Char
  offset : Nat
  position : Position
  deriving DecidableEq

namespace Cursor

/-- The start of a text. -/
def start (source : List Char) : Cursor := ⟨source, 0, .origin⟩

/-- The cursor after the next `count` characters. -/
def skip (c : Cursor) (count : Nat) : Cursor :=
  let passed := c.rest.take count
  ⟨c.rest.drop count, c.offset + byteSize passed, c.position.steps passed⟩

/-- The token at a cursor, from the lexeme of `size` characters found there. -/
def place (c : Cursor) (kind : Kind) (value : Value) (size : Nat) : Token :=
  let text := c.rest.take size
  ⟨kind, value, ⟨c.position, c.position.steps text⟩, c.offset, byteSize text, unitSize text⟩

/-- The token at a cursor, and the cursor after it. -/
def next (c : Cursor) : Token × Cursor :=
  match c.rest with
  | [] => (.eof c.position c.offset, c)
  | d :: ds =>
    let found := Lexeme.scan d ds
    (c.place found.kind found.value (found.more + 1), c.skip (found.more + 1))

theorem length_next_lt {c : Cursor} (h : c.rest ≠ []) :
    c.next.2.rest.length < c.rest.length := by
  unfold next
  split
  · exact absurd (by assumption) h
  · rename_i d ds hrest
    simp only [skip, hrest, List.drop_succ_cons, List.length_drop, List.length_cons]
    omega

/-- The tokens from a cursor to the end of the text, the end-of-file token last. -/
def tokens (c : Cursor) : List Token :=
  if _h : c.rest = [] then [.eof c.position c.offset]
  else c.next.1 :: tokens c.next.2
termination_by c.rest.length
decreasing_by exact length_next_lt _h

end Cursor

/-- The tokens of a text, blanks and comments included. -/
def tokenize (source : String) : List Token := (Cursor.start source.toList).tokens

/-- A cursor with the token read last. -/
structure Lexer where
  cursor : Cursor
  token : Token
  deriving DecidableEq

namespace Lexer

/-- A lexer before the first token. -/
def start (source : List Char) : Lexer := ⟨.start source, .placeholder .origin 0⟩

/-- The lexer after the next token. -/
def next (l : Lexer) : Lexer :=
  let (token, cursor) := l.cursor.next
  ⟨cursor, token⟩

/-- What follows the first `>` in the spellings that can be split. -/
def afterAngle? : Kind → Option (List Char)
  | .operator .shr => some ['>']
  | .operator .shrEq => some ['>', '=']
  | .operator .gtEq => some ['=']
  | _ => none

/-- The lexer with only the first `>` of its token read, if the token is one that can be split. -/
def splitAngle? (l : Lexer) : Option Lexer :=
  (afterAngle? l.token.kind).map fun tail =>
    let start : Cursor := ⟨'>' :: tail ++ l.cursor.rest, l.token.offset, l.token.span.start⟩
    ⟨start.skip 1, start.place (.operator .gt) .none 1⟩

end Lexer

end SableFront
