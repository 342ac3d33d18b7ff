/-!
# Vocabulary: punctuation

The punctuation of Sable: separators, brackets, member access, and the markers `->` and `...`.
-/

namespace SableFront

/-- A punctuation mark. -/
inductive Punctuation
  | comma | colon | semicolon | dot | arrow | ellipsis
  | lParen | rParen | lBracket | rBracket | lBrace | rBrace
  deriving DecidableEq

namespace Punctuation

/-- The family of a punctuation mark. -/
inductive Category
  | delimiter | separator | access | arrow | marker
  deriving DecidableEq

/-- The text of a punctuation mark. -/
def spelling : Punctuation → String
  | comma => "," | colon => ":" | semicolon => ";" | dot => "." | arrow => "->" | ellipsis => "..."
  | lParen => "(" | rParen => ")" | lBracket => "[" | rBracket => "]"
  | lBrace => "\x7b" | rBrace => "\x7d"

/-- The name of a punctuation mark in token listings. -/
def label : Punctuation → String
  | comma => "Comma" | colon => "Colon" | semicolon => "Semicolon" | dot => "Dot"
  | arrow => "Arrow" | ellipsis => "Ellipsis"
  | lParen => "LParen" | rParen => "RParen" | lBracket => "LBracket" | rBracket => "RBracket"
  | lBrace => "LBrace" | rBrace => "RBrace"

/-- The family a punctuation mark belongs to. -/
def category : Punctuation → Category
  | comma | colon | semicolon => .separator
  | dot => .access
  | arrow => .arrow
  | ellipsis => .marker
  | lParen | rParen | lBracket | rBracket | lBrace | rBrace => .delimiter

/-- All punctuation marks, in the order in which the vocabulary lists them. -/
def all : List Punctuation :=
  [comma, colon, semicolon, dot, arrow, ellipsis,
   lParen, rParen, lBracket, rBracket, lBrace, rBrace]

/-- The punctuation mark with a given text. -/
def ofSpelling? (text : String) : Option Punctuation := all.find? fun p => p.spelling == text

/-- The bracket that closes an opening one. -/
def closing? : Punctuation → Option Punctuation
  | lParen => some rParen
  | lBracket => some rBracket
  | lBrace => some rBrace
  | _ => none

theorem mem_all (p : Punctuation) : p ∈ all := by cases p <;> decide

end Punctuation

end SableFront
