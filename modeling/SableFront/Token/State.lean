import SableFront.Source.Text
import SableFront.Token.Lexer

/-!
# Tokens: the state of a lexer

A lexer that runs along its text keeps at hand what it needs at every step: where it stands, as an
offset and as a position, the character that stands there, whether the text is over, and the token read
last. The text itself is never cut; characters are looked up in it by their offset.

Whatever kind of token is scanned, the lexer moves on by single characters, each of which brings all
these parts up to date (`advance`). Splitting a token is the one exception: it sets each part anew.
-/

namespace SableFront

/-- Everything a lexer knows besides its text. -/
structure LexerState where
  offset : Nat
  position : Position
  /-- The character at the offset. -/
  current : Option Char
  /-- The text is over. -/
  eof : Bool
  token : Token
  deriving DecidableEq

namespace LexerState

/-- The first character from an offset on. -/
def charAt? (source : List Char) (offset : Nat) : Option Char := (Text.dropBytes source offset).head?

/-- Before the first token. -/
def start (source : List Char) : LexerState :=
  ⟨0, .origin, source.head?, source.isEmpty, .placeholder .origin 0⟩

/-- The current character and what stands behind it. -/
def ahead (source : List Char) (s : LexerState) : List Char :=
  match s.current with
  | some c => c :: Text.dropBytes source (s.offset + c.utf8Size)
  | none => []

/-- Behind the current character. -/
def advance (source : List Char) (s : LexerState) : LexerState :=
  match s.current with
  | some c =>
    let offset := s.offset + c.utf8Size
    let current := charAt? source offset
    ⟨offset, s.position.step c, current, current.isNone, s.token⟩
  | none => s

/-- Behind the next `count` characters. -/
def advanceBy (source : List Char) : (count : Nat) → LexerState → LexerState
  | 0, s => s
  | count + 1, s => advanceBy source count (s.advance source)

/-- The token that starts where the lexer stood `first` and ends where it stands. -/
def make (source : List Char) (first s : LexerState) (kind : Kind) (value : Value) : Token :=
  let text := Text.takeBytes (Text.dropBytes source first.offset) (s.offset - first.offset)
  ⟨kind, value, ⟨first.position, s.position⟩, first.offset, byteSize text, unitSize text⟩

/-- The next token, and the lexer behind it. -/
def scanToken (source : List Char) (s : LexerState) : Token × LexerState :=
  if s.eof then (.eof s.position s.offset, s)
  else
    match s.current with
    | none => (.eof s.position s.offset, s)
    | some c =>
      let behind := s.advance source
      let found := Lexeme.scan c (behind.ahead source)
      let stop := behind.advanceBy source found.more
      (make source s stop found.kind found.value, stop)

/-- The lexer with the next token. -/
def next (source : List Char) (s : LexerState) : LexerState :=
  let (token, s) := s.scanToken source
  { s with token }

/-- The kind of a token that can be split. -/
def canSplit : Kind → Bool
  | .operator .shr | .operator .shrEq | .operator .gtEq => true
  | _ => false

/-- Whether the token can be split, and the lexer behind the first `>` of it. -/
def splitAngle (source : List Char) (s : LexerState) : Bool × LexerState :=
  if canSplit s.token.kind then
    let start := s.token.span.start
    let offset := s.token.offset + 1
    let position : Position := ⟨start.line, start.character + 1⟩
    let current := charAt? source offset
    (true, ⟨offset, position, current, current.isNone,
      ⟨.operator .gt, .none, ⟨start, position⟩, offset - 1, 1, 1⟩⟩)
  else (false, s)

end LexerState

end SableFront
