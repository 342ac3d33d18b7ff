import SableFront.Token.Lexer

/-!
# Tokens: the next significant token

A program is read token by token with blanks and comments left out. What was passed over is not
forgotten: a newline may end a statement, and comments belong to the tree.
-/

namespace SableFront

/-- A significant token, the cursor after it, and what lay before it. -/
structure Significant where
  token : Token
  cursor : Cursor
  /-- A newline lay before the token. -/
  newline : Bool
  /-- The comments before the token. -/
  comments : List Token
  deriving DecidableEq

namespace Cursor

/-- The next significant token from a cursor. -/
def significant (c : Cursor) : Significant :=
  if _h : c.rest ≠ [] ∧ c.next.1.kind.isTrivia then
    let passed := c.next.1
    let found := significant c.next.2
    { found with
      newline := passed.kind == .newline || found.newline
      comments := if passed.kind.isComment then passed :: found.comments else found.comments }
  else ⟨c.next.1, c.next.2, false, []⟩
termination_by c.rest.length
decreasing_by exact length_next_lt _h.1

end Cursor

end SableFront
