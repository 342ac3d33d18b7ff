import SableFront.Grammar.Statement

/-!
# Programs

Reading a text as a program: its statements, the syntax errors, and the symbols it declares. Every
text can be read; what is wrong with it is among the errors.

The circles of the grammar are closed here. Each leads through a token of at least one byte, so for
a text of `n` bytes `n + 1` of them are enough.
-/

namespace SableFront

namespace Grammar

/-- The productions with no circle left. -/
def exhausted : Rules where
  rounds := 0
  expression := fail .unreachableState
  shift := fail .unreachableState
  steps := fail .unreachableState
  deref := fail .unreachableState
  invert := fail .unreachableState
  typeRef := fail .unreachableState
  statement := fail .unreachableState
  items := fun _ => pure []

/-- The productions with some circles left. -/
def rules : Nat → Rules
  | 0 => exhausted
  | n + 1 =>
    { rounds := n + 1
      expression := fun s => expression (rules n) s
      shift := fun s => shift (rules n) s
      steps := fun s => steps (rules n) s
      deref := fun s => deref (rules n) s
      invert := fun s => invert (rules n) s
      typeRef := fun s => typeRef (rules n) none s
      statement := fun s => statement (rules n) s
      items := fun context s => items (rules n) context s }

end Grammar

/-- A program that has been read. -/
structure Program where
  /-- The top-level nodes in the order of the text. -/
  nodes : List Node
  /-- The syntax errors in the order in which they were met. -/
  errors : List SyntaxError
  /-- All symbols declared, and the builtin types. -/
  symbols : SymbolTable

namespace Program

/-- Nothing was wrong with the program. -/
def isOk (p : Program) : Bool := p.errors.isEmpty

/-- The circles that reading a text may need. -/
def circles (source : String) : Nat := source.utf8ByteSize + 2

/-- Read a text as a program. -/
def parse (source : String) (config : ParseConfig) : Program :=
  let start := Grammar.State.start source config
  let (nodes, after) := (Grammar.rules (circles source)).items .file start
  ⟨nodes, after.errors, after.symbols⟩

end Program

end SableFront
