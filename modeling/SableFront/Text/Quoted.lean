import SableFront.Text.Unprintable
import SableFront.Text.Extender

/-!
# Text: quoted characters and strings

Text within quotes, on one line: the quote in use, the backslash and the common controls have short
escapes, and every other character that has no form of its own is written by its code point.
-/

namespace SableFront.Text

/-- A code point as an escape, in hexadecimal without padding. -/
def codePointEscape (c : Char) : List Char :=
  '\\' :: 'u' :: '\x7b' :: Nat.toDigits 16 c.toNat ++ ['\x7d']

/-- A character as it stands between two `quote`s. -/
def escaped (quote c : Char) : List Char :=
  if c = '\x00' then ['\\', '0']
  else if c = '\t' then ['\\', 't']
  else if c = '\r' then ['\\', 'r']
  else if c = '\n' then ['\\', 'n']
  else if c = '\\' ∨ c = quote then ['\\', c]
  else if c.toNat < 0x7f ∧ 0x20 ≤ c.toNat then [c]
  else if isExtender c || isUnprintable c then codePointEscape c
  else [c]

/-- A text between two `quote`s. -/
def quoted (quote : Char) (cs : List Char) : List Char :=
  quote :: cs.flatMap (escaped quote) ++ [quote]

end SableFront.Text
