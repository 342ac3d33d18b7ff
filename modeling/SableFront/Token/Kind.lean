import SableFront.Vocabulary.Keyword
import SableFront.Vocabulary.Operator
import SableFront.Vocabulary.Punctuation

/-!
# Tokens: kinds

The kinds of token. Words, operators and punctuation carry the entry of the vocabulary that they
are; text that is nothing else is of kind `invalid`. Blanks and comments are tokens too, the
*trivia*, so that the tokens of a text cover all of it.
-/

namespace SableFront

/-- The kind of a token. -/
inductive Kind
  | invalid | eof
  | whitespace | newline | lineComment | blockComment
  | ident | int | float | str | char | bool | null
  | keyword (k : Keyword)
  | operator (o : Operator)
  | punctuation (p : Punctuation)
  deriving DecidableEq

namespace Kind

/-- A comment of either form. -/
def isComment : Kind → Bool
  | lineComment | blockComment => true
  | _ => false

/-- Blanks, line ends and comments. -/
def isTrivia : Kind → Bool
  | whitespace | newline | lineComment | blockComment => true
  | _ => false

/-- The kinds that denote a value by themselves. -/
def isLiteral : Kind → Bool
  | int | float | str | char | bool | null => true
  | _ => false

/-- The operator class, for an operator. -/
def opClass? : Kind → Option Operator.Class
  | operator o => some o.opClass
  | _ => none

/-- The name of a kind in token listings. -/
def label : Kind → String
  | invalid => "Invalid" | eof => "Eof"
  | whitespace => "Whitespace" | newline => "Newline"
  | lineComment => "LineComment" | blockComment => "BlockComment"
  | ident => "Ident" | int => "Int" | float => "Float" | str => "Str" | char => "Char"
  | bool => "Bool" | null => "Null"
  | keyword k => "Keyword(" ++ k.label ++ ")"
  | operator o => "Operator(" ++ o.label ++ ")"
  | punctuation p => "Punctuation(" ++ p.label ++ ")"

end Kind

end SableFront
