/-!
# Vocabulary: operators

The operators of Sable, in symbols and in words, with the class that decides how tightly each one
binds. A spelling that plays two roles (`-` subtracts and negates, `*` multiplies and dereferences)
is listed with its binary role.
-/

namespace SableFront

/-- An operator. -/
inductive Operator
  | plus | minus | star | slash | percent
  | plusPlus | minusMinus
  | shl | shr
  | amp | pipe | caret
  | eqEq | notEq | lt | ltEq | gt | gtEq
  | ampAmp | pipePipe
  | bang | tilde
  | eq | plusEq | minusEq | starEq | slashEq | percentEq | ampEq | pipeEq | caretEq | shlEq | shrEq
  | andWord | orWord | notWord
  deriving DecidableEq

namespace Operator

/-- Operators of one class bind equally tightly. -/
inductive Class
  | multiplicative | additive | shift | bitwise | relational | logical | assignment | incDec | invert
  deriving DecidableEq

/-- Where an operator stands relative to its operands. -/
inductive Fixity
  | between | before | beforeOrAfter
  deriving DecidableEq

/-- How tightly a class binds; a greater number binds tighter. -/
def Class.precedence : Class → Nat
  | .assignment => 5
  | .logical => 10
  | .relational => 30
  | .bitwise => 40
  | .shift => 50
  | .additive => 60
  | .multiplicative => 70
  | .incDec => 80
  | .invert => 90

/-- The text of an operator. -/
def spelling : Operator → String
  | plus => "+" | minus => "-" | star => "*" | slash => "/" | percent => "%"
  | plusPlus => "++" | minusMinus => "--"
  | shl => "<<" | shr => ">>"
  | amp => "&" | pipe => "|" | caret => "^"
  | eqEq => "==" | notEq => "!=" | lt => "<" | ltEq => "<=" | gt => ">" | gtEq => ">="
  | ampAmp => "&&" | pipePipe => "||"
  | bang => "!" | tilde => "~"
  | eq => "=" | plusEq => "+=" | minusEq => "-=" | starEq => "*=" | slashEq => "/="
  | percentEq => "%=" | ampEq => "&=" | pipeEq => "|=" | caretEq => "^=" | shlEq => "<<="
  | shrEq => ">>="
  | andWord => "and" | orWord => "or" | notWord => "not"

/-- The name of an operator in token listings. -/
def label : Operator → String
  | plus => "Plus" | minus => "Minus" | star => "Star" | slash => "Slash" | percent => "Percent"
  | plusPlus => "PlusPlus" | minusMinus => "MinusMinus"
  | shl => "Shl" | shr => "Shr"
  | amp => "Amp" | pipe => "Pipe" | caret => "Caret"
  | eqEq => "EqEq" | notEq => "NotEq" | lt => "Lt" | ltEq => "LtEq" | gt => "Gt" | gtEq => "GtEq"
  | ampAmp => "AmpAmp" | pipePipe => "PipePipe"
  | bang => "Bang" | tilde => "Tilde"
  | eq => "Eq" | plusEq => "PlusEq" | minusEq => "MinusEq" | starEq => "StarEq"
  | slashEq => "SlashEq" | percentEq => "PercentEq" | ampEq => "AmpEq" | pipeEq => "PipeEq"
  | caretEq => "CaretEq" | shlEq => "ShlEq" | shrEq => "ShrEq"
  | andWord => "And" | orWord => "Or" | notWord => "Not"

/-- The class of an operator, in its binary role if it has one. -/
def opClass : Operator → Class
  | star | slash | percent => .multiplicative
  | plus | minus => .additive
  | plusPlus | minusMinus => .incDec
  | shl | shr => .shift
  | amp | pipe | caret => .bitwise
  | eqEq | notEq | lt | ltEq | gt | gtEq => .relational
  | ampAmp | pipePipe | andWord | orWord => .logical
  | bang | tilde | notWord => .invert
  | eq | plusEq | minusEq | starEq | slashEq | percentEq | ampEq | pipeEq | caretEq | shlEq
  | shrEq => .assignment

/-- How tightly an operator binds. -/
def precedence (o : Operator) : Nat := o.opClass.precedence

/-- Where an operator stands: inversions before their operand, steps on either side of it, and all
others between two operands. -/
def fixity (o : Operator) : Fixity :=
  match o.opClass with
  | .invert => .before
  | .incDec => .beforeOrAfter
  | _ => .between

/-- The operator is spelled as a word. -/
def isWord : Operator → Bool
  | andWord | orWord | notWord => true
  | _ => false

/-- The comparisons that may chain into a range test. -/
def isOrdering : Operator → Bool
  | lt | ltEq | gt | gtEq => true
  | _ => false

/-- All operators, in the order in which the vocabulary lists them. -/
def all : List Operator :=
  [star, slash, percent, plus, minus, plusPlus, minusMinus, shl, shr, amp, pipe, caret,
   eqEq, notEq, lt, ltEq, gt, gtEq, ampAmp, pipePipe, bang, tilde,
   eq, plusEq, minusEq, starEq, slashEq, percentEq, ampEq, pipeEq, caretEq, shlEq, shrEq,
   andWord, orWord, notWord]

/-- The operator with a given text; case matters. -/
def ofSpelling? (text : String) : Option Operator := all.find? fun o => o.spelling == text

/-- The operator that a word spells. -/
def ofWord? (word : String) : Option Operator :=
  all.find? fun o => o.isWord && o.spelling == word

theorem mem_all (o : Operator) : o ∈ all := by cases o <;> decide

end Operator

end SableFront
