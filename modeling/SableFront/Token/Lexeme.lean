import SableFront.Token.Basic

/-!
# Tokens: lexemes

A lexeme is what one step of reading finds at the start of a text: a kind, a value, and how many
characters it takes. The first character always belongs to it, so only the characters after the
first are counted; reading therefore never stands still.
-/

namespace SableFront

/-- What stands at the start of a text, before it is given a place. -/
structure Lexeme where
  kind : Kind
  value : Value
  /-- The number of characters taken after the first one. -/
  more : Nat
  deriving DecidableEq

namespace Lexeme

/-- A lexeme that denotes nothing beyond its kind. -/
def bare (kind : Kind) (more : Nat) : Lexeme := ⟨kind, .none, more⟩

/-- A lexeme that carries its own text. -/
def ofText (kind : Kind) (c : Char) (cs : List Char) (more : Nat) : Lexeme :=
  ⟨kind, .text (String.ofList (c :: cs.take more)), more⟩

/-- Text that is no token. -/
def invalid (c : Char) (cs : List Char) (more : Nat) : Lexeme := ofText .invalid c cs more

end Lexeme

end SableFront
