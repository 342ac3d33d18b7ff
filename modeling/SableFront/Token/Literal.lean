import SableFront.Token.Number

/-!
# Tokens: string and character literals

A literal is read one written character after the other: a character as it is, or an escape, which
may take the digits of a code point. A string goes on up to a quote that stands where the next
written character would start; a newline or the end of the text cuts it short. A malformed escape
spoils the literal, but it is read on to its end.
-/

namespace SableFront.Literal

/-- The characters denoted by a backslash and a letter. -/
def namedEscape? : Char → Option Char
  | '\\' => some '\\'
  | 'b' => some '\x08'
  | 'r' => some '\r'
  | 'n' => some '\n'
  | 't' => some '\t'
  | 'v' => some '\x0b'
  | 'f' => some '\x0c'
  | 'a' => some '\x07'
  | '\'' => some '\''
  | '"' => some '"'
  | '0' => some '\x00'
  | _ => none

/-- What one written character of a literal denotes. -/
inductive Piece
  | char (c : Char)
  /-- A backslash before a character that needs none; both stand for themselves. -/
  | verbatim (c : Char)
  | malformed
  deriving DecidableEq

/-- The code point written as at most `digits` hexadecimal digits, and the number of digits. -/
def codePoint (digits : Nat) (cs : List Char) : Piece × Nat :=
  let run := Number.readDigits 16 digits (some 0) cs
  match run.value with
  | some v =>
    (if run.count ≠ 0 ∧ v.toNat.isValidChar then .char (Char.ofNat v.toNat) else .malformed,
      run.count)
  | none => (.malformed, run.count)

/-- What a backslash, the character `c` and some of the text `cs` after it denote, and how many
characters of `cs` they take. -/
def escape (c : Char) (cs : List Char) : Piece × Nat :=
  if c = 'u' then codePoint 4 cs
  else if c = 'U' then codePoint 8 cs
  else
    match namedEscape? c with
    | some d => (.char d, 0)
    | none => (.verbatim c, 0)

/-- The next written character of a literal, and how many characters of the text it takes; nothing
if the line or the text breaks off after so many characters. -/
def written : List Char → Except Nat (Piece × Nat)
  | [] => .error 0
  | '\\' :: [] => .error 1
  | '\\' :: c :: cs =>
    if c = '\n' then .error 1
    else
      let (piece, taken) := escape c cs
      .ok (piece, taken + 2)
  | c :: _ => if c = '\n' then .error 0 else .ok (.char c, 1)

/-- A written character takes at least one character of the text. -/
theorem length_drop_lt_of_written {cs : List Char} {piece : Piece} {taken : Nat}
    (h : written cs = .ok (piece, taken)) : (cs.drop taken).length < cs.length := by
  unfold written at h
  split at h
  · cases h
  · cases h
  · split at h
    · cases h
    · cases h
      simp only [List.drop_succ_cons, List.length_drop, List.length_cons]
      omega
  · split at h
    · cases h
    · cases h
      simp

/-- The text starts with the quote. -/
def startsWith (quote : Char) (cs : List Char) : Bool := cs.head? == some quote

/-- Reads a string behind its opening quote, when it denotes `value` so far, is `valid` so far and
has taken so many characters: what it denotes in the end, nothing if it is no string, and how many
characters it takes. -/
def readString (value : String) (valid : Bool) (taken : Nat) (cs : List Char) : Option String × Nat :=
  if startsWith '"' cs then (if valid then some value else none, taken + 1)
  else
    match _h : written cs with
    | .error more => (none, taken + more)
    | .ok (.char d, more) => readString (value.push d) valid (taken + more) (cs.drop more)
    | .ok (.verbatim d, more) =>
      readString ((value.push '\\').push d) valid (taken + more) (cs.drop more)
    | .ok (.malformed, more) => readString value false (taken + more) (cs.drop more)
termination_by cs.length
decreasing_by all_goals exact length_drop_lt_of_written _h

/-- The string literal at the quote `c` before `cs`. -/
def scanString (c : Char) (cs : List Char) : Lexeme :=
  match readString "" true 0 cs with
  | (some s, more) => ⟨.str, .str s, more⟩
  | (none, more) => .invalid c cs more

/-- The character literal at the quote `c` before `cs`: exactly one written character between two
quotes. -/
def scanChar (c : Char) (cs : List Char) : Lexeme :=
  if startsWith '\'' cs then .invalid c cs 1
  else
    match written cs with
    | .error taken => .invalid c cs taken
    | .ok (piece, taken) =>
      if startsWith '\'' (cs.drop taken) then
        match piece with
        | .char d => ⟨.char, .char d, taken + 1⟩
        | _ => .invalid c cs (taken + 1)
      else .invalid c cs taken

end SableFront.Literal
