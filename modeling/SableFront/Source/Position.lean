/-!
# Source: positions and spans

A position is a line and a character within the line, both counted from zero, as editors count
them: a character of the line is one UTF-16 unit. Positions are ordered by line, then by character.
A span is the half-open stretch between two positions.
-/

namespace SableFront

/-- The UTF-16 units of a character: two outside the basic plane. -/
def units16 (c : Char) : Nat := if c.toNat < 0x10000 then 1 else 2

theorem units16_pos (c : Char) : 0 < units16 c := by unfold units16; split <;> omega

/-- The UTF-8 bytes of a text. -/
def byteSize : List Char → Nat
  | [] => 0
  | c :: cs => c.utf8Size + byteSize cs

/-- The UTF-16 units of a text. -/
def unitSize : List Char → Nat
  | [] => 0
  | c :: cs => units16 c + unitSize cs

@[simp] theorem byteSize_nil : byteSize [] = 0 := rfl

@[simp] theorem byteSize_cons (c : Char) (cs : List Char) :
    byteSize (c :: cs) = c.utf8Size + byteSize cs := rfl

@[simp] theorem byteSize_append (cs ds : List Char) :
    byteSize (cs ++ ds) = byteSize cs + byteSize ds := by
  induction cs with
  | nil => simp
  | cons c cs ih => simp [ih, Nat.add_assoc]

@[simp] theorem unitSize_nil : unitSize [] = 0 := rfl

@[simp] theorem unitSize_cons (c : Char) (cs : List Char) :
    unitSize (c :: cs) = units16 c + unitSize cs := rfl

@[simp] theorem unitSize_append (cs ds : List Char) :
    unitSize (cs ++ ds) = unitSize cs + unitSize ds := by
  induction cs with
  | nil => simp
  | cons c cs ih => simp [ih, Nat.add_assoc]

/-- A line and a UTF-16 character within it, both from zero. -/
structure Position where
  line : Nat
  character : Nat
  deriving DecidableEq

namespace Position

/-- The first position of a text. -/
def origin : Position := ⟨0, 0⟩

instance : LE Position where
  le p q := p.line < q.line ∨ p.line = q.line ∧ p.character ≤ q.character

instance : LT Position where
  lt p q := p.line < q.line ∨ p.line = q.line ∧ p.character < q.character

instance (p q : Position) : Decidable (p ≤ q) :=
  inferInstanceAs (Decidable (p.line < q.line ∨ p.line = q.line ∧ p.character ≤ q.character))

instance (p q : Position) : Decidable (p < q) :=
  inferInstanceAs (Decidable (p.line < q.line ∨ p.line = q.line ∧ p.character < q.character))

/-- The position after a character: a newline starts the next line. -/
def step (p : Position) (c : Char) : Position :=
  if c = '\n' then ⟨p.line + 1, 0⟩ else ⟨p.line, p.character + units16 c⟩

/-- The position after a text. -/
def steps (p : Position) (cs : List Char) : Position := cs.foldl step p

@[simp] theorem steps_nil (p : Position) : p.steps [] = p := rfl

@[simp] theorem steps_cons (p : Position) (c : Char) (cs : List Char) :
    p.steps (c :: cs) = (p.step c).steps cs := rfl

@[simp] theorem steps_append (p : Position) (cs ds : List Char) :
    p.steps (cs ++ ds) = (p.steps cs).steps ds := by simp [steps]

/-- A position as people read it, from one. -/
def render (p : Position) : String := toString (p.line + 1) ++ ":" ++ toString (p.character + 1)

/-- The earlier of two positions. -/
def earlier (p q : Position) : Position := if p ≤ q then p else q

/-- The later of two positions. -/
def later (p q : Position) : Position := if p ≤ q then q else p

theorem le_def {p q : Position} :
    p ≤ q ↔ p.line < q.line ∨ p.line = q.line ∧ p.character ≤ q.character := Iff.rfl

theorem lt_def {p q : Position} :
    p < q ↔ p.line < q.line ∨ p.line = q.line ∧ p.character < q.character := Iff.rfl

/-- Each character moves the position forward. -/
theorem lt_step (p : Position) (c : Char) : p < p.step c := by
  have := units16_pos c
  unfold step
  split
  · exact Or.inl (Nat.lt_succ_self _)
  · exact Or.inr ⟨rfl, by simp only; omega⟩

end Position

/-- The half-open stretch of text from `start` to `stop`. -/
structure Span where
  start : Position
  stop : Position
  deriving DecidableEq

namespace Span

/-- The empty span at a position. -/
def point (p : Position) : Span := ⟨p, p⟩

/-- The least span around two spans. -/
def merge (s t : Span) : Span := ⟨s.start.earlier t.start, s.stop.later t.stop⟩

/-- The position lies in the span; its end does not. -/
def contains (s : Span) (p : Position) : Bool := s.start ≤ p && p < s.stop

/-- The span covers nothing. -/
def isEmpty (s : Span) : Bool := s.start == s.stop

end Span

end SableFront
