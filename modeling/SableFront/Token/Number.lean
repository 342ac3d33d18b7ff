import SableFront.Token.Lexeme

/-!
# Tokens: number literals

Integers are written in base ten, after `0b` in base two, after `0x` in base sixteen, or after a
further `0` in base eight. A base-ten integer before a single point starts a float.

The value of an integer is computed in 64 bits while its digits are read. A digit that leads out of
them leaves no value, and the literal is then invalid; the digits behind it still belong to it.
-/

namespace SableFront.Number

/-- The value of a digit in a base, letters in either case standing for ten and above. -/
def digit? (base : Nat) (c : Char) : Option Nat :=
  let d :=
    if '0' ≤ c ∧ c ≤ '9' then c.toNat - '0'.toNat
    else if 'a' ≤ c ∧ c ≤ 'z' then c.toNat - 'a'.toNat + 10
    else if 'A' ≤ c ∧ c ≤ 'Z' then c.toNat - 'A'.toNat + 10
    else base
  if d < base then some d else none

/-- The character is a digit in a base. -/
def isDigit (base : Nat) (c : Char) : Bool := (digit? base c).isSome

/-- The longest run of digits at the start of a text. -/
def digitRun (base : Nat) (cs : List Char) : List Char := cs.takeWhile (isDigit base)

/-- The number that a run of digits denotes. -/
def valueOf (base : Nat) (digits : List Char) : Nat :=
  digits.foldl (fun n c => n * base + (digit? base c).getD 0) 0

/-- The bound below which a number fits 64 bits. -/
def limit : Nat := Nat.pow 2 64

/-- A number in 64 bits; nothing if it does not fit. -/
def checked (n : Nat) : Option UInt64 := if n < limit then some (UInt64.ofNat n) else none

/-- A value with one more digit behind it. The product has to fit 64 bits, and then the sum. -/
def push (base : Nat) (value : UInt64) (d : Nat) : Option UInt64 :=
  (checked (value.toNat * base)).bind fun product => checked (product.toNat + d)

/-- What was read of a run of digits. -/
structure DigitRun where
  /-- What the digits come to; nothing from the first one on that led out of 64 bits. -/
  value : Option UInt64
  /-- The number of digits, those included that were too many. -/
  count : Nat
  deriving DecidableEq

/-- Reads at most `max` digits, one after the other, and folds them onto a value. -/
def readDigits (base : Nat) : (max : Nat) → Option UInt64 → List Char → DigitRun
  | max + 1, value, c :: cs =>
    match digit? base c with
    | some d =>
      let run := readDigits base max (value.bind (push base · d)) cs
      ⟨run.value, run.count + 1⟩
    | none => ⟨value, 0⟩
  | _, value, _ => ⟨value, 0⟩

/-- The base of a literal that starts with a zero, and the number of characters between the zero and
the digits; nothing for a base-ten literal. -/
def radix? (c : Char) (cs : List Char) : Option (Nat × Nat) :=
  match cs with
  | d :: _ =>
    if c ≠ '0' then none
    else if d = 'b' ∨ d = 'B' then some (2, 1)
    else if d = 'x' ∨ d = 'X' then some (16, 1)
    else if isDigit 8 d then some (8, 0)
    else none
  | [] => none

/-- An integer literal, `more` characters long after the first one; invalid if it has no value. -/
def integer (value : Option UInt64) (c : Char) (cs : List Char) (more : Nat) : Lexeme :=
  match value with
  | some v => ⟨.int, .int v.toNat, more⟩
  | none => .invalid c cs more

/-- A point that starts a fraction: a second point would make it the first of a run of points. -/
def startsFraction : List Char → Bool
  | '.' :: '.' :: _ => false
  | '.' :: _ => true
  | _ => false

/-- The bits of the double nearest to the decimal with these digits before and after the point. -/
def floatBits (whole fraction : List Char) : UInt64 :=
  (Float.ofScientific (valueOf 10 (whole ++ fraction)) true fraction.length).toBits

/-- The letter that asks for single precision. -/
def isSingleMark (c : Char) : Bool := c = 'f' || c = 'F'

/-- A float literal with the digits `whole` before its point, `cs` being the text after the
point. -/
def float (whole cs : List Char) : Lexeme :=
  let fraction := digitRun 10 cs
  let single := ((cs.drop fraction.length).head?).any isSingleMark
  ⟨.float, .float (floatBits whole fraction) single,
    whole.length + fraction.length + if single then 1 else 0⟩

/-- The number literal at the digit `c` before `cs`. -/
def scan (c : Char) (cs : List Char) : Lexeme :=
  match radix? c cs with
  | some (base, lead) =>
    let run := readDigits base cs.length (some 0) (cs.drop lead)
    integer (if run.count = 0 then none else run.value) c cs (lead + run.count)
  | none =>
    let first := UInt64.ofNat ((digit? 10 c).getD 0)
    let run := readDigits 10 cs.length (some first) cs
    let rest := cs.drop run.count
    if startsFraction rest then float (c :: cs.take run.count) (rest.drop 1)
    else integer run.value c cs run.count

end SableFront.Number
