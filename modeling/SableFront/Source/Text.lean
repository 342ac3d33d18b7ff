import SableFront.Source.Position

/-!
# Source: offsets and positions of a text

The two ways to name a place in a text, by its byte offset and by its position, and the conversion
of each into the other. Only the boundaries between characters have names, so an offset inside a
character stands for the boundary before it, and a position between boundaries stands for nothing.
-/

namespace SableFront.Text

/-- The whole characters within the first `bytes` bytes. -/
def takeBytes : List Char → Nat → List Char
  | [], _ => []
  | c :: cs, bytes => if c.utf8Size ≤ bytes then c :: takeBytes cs (bytes - c.utf8Size) else []

/-- What follows the whole characters within the first `bytes` bytes. -/
def dropBytes : List Char → Nat → List Char
  | [], _ => []
  | c :: cs, bytes => if c.utf8Size ≤ bytes then dropBytes cs (bytes - c.utf8Size) else c :: cs

theorem takeBytes_append_dropBytes (cs : List Char) (n : Nat) :
    takeBytes cs n ++ dropBytes cs n = cs := by
  induction cs generalizing n with
  | nil => rfl
  | cons c cs ih => unfold takeBytes dropBytes; split <;> simp [ih]

theorem takeBytes_byteSize (cs ds : List Char) : takeBytes (cs ++ ds) (byteSize cs) = cs := by
  induction cs with
  | nil =>
    cases ds with
    | nil => rfl
    | cons d ds =>
      have := d.utf8Size_pos
      simp only [List.nil_append, byteSize_nil, takeBytes]
      rw [if_neg (by omega)]
  | cons c cs ih => simp [takeBytes, ih]

/-- The number of lines; the empty text has one. -/
def lineCount (cs : List Char) : Nat := cs.count '\n' + 1

/-- The position of a byte offset. An offset past the end stands for the end. -/
def positionAt (cs : List Char) (offset : Nat) : Position :=
  Position.origin.steps (takeBytes cs offset)

/-- The offset, counted from `offset`, of the first boundary at `target`, when the text starts at
position `p`. -/
def offsetFrom (p : Position) (offset : Nat) (cs : List Char) (target : Position) : Option Nat :=
  if p = target then some offset
  else
    match cs with
    | [] => none
    | c :: cs => offsetFrom (p.step c) (offset + c.utf8Size) cs target

/-- The byte offset of a position, if a boundary between characters lies there. -/
def offsetAt? (cs : List Char) (target : Position) : Option Nat :=
  offsetFrom Position.origin 0 cs target

/-- The text that a span covers, if both its ends are boundaries in this order. -/
def slice? (cs : List Char) (span : Span) : Option (List Char) := do
  let start ← offsetAt? cs span.start
  let stop ← offsetAt? cs span.stop
  if start ≤ stop then some (takeBytes (dropBytes cs start) (stop - start)) else none

end SableFront.Text
