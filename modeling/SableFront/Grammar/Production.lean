import SableFront.Grammar.State

/-!
# Grammar: productions

A production reads one construct from the state. It gives the construct, or nothing if none starts
at the current token, or it fails with a syntax error; the state it has reached remains in any case.
The productions below are the ones that others are put together from.

Productions refer to each other in circles. A circle is closed only behind a token that has been
read, so a program of so many bytes needs circles no deeper, and loops no longer, than that: `Rules`
are the productions with a number of circles left.
-/

namespace SableFront.Grammar

/-- Reads something from the state, or fails with a syntax error. -/
abbrev Production := ExceptT SyntaxError (StateM State)

/-- Where a list of statements stands: it ends with the text, or at a closing brace; in an enum,
bare names are enumerators. -/
inductive Context
  | file | block | enumBody
  deriving DecidableEq

/-- The productions that circles lead through. -/
structure Rules where
  /-- The most rounds of a loop. -/
  rounds : Nat
  expression : Production (Option Node)
  shift : Production (Option Node)
  steps : Production (Option Node)
  deref : Production (Option Node)
  invert : Production (Option Node)
  typeRef : Production (Option Node)
  statement : Production (Option Node)
  items : Context → StateM State (List Node)

/-! ### Tokens -/

/-- The current token. -/
def current : Production Token := return (← get).current

/-- The current token is of a kind. -/
def isAt (k : Kind) : Production Bool := return (← get).isAt k

/-- The current token, which is read. -/
def advance : Production Token := do
  let s ← get
  set s.advance
  return s.current

/-- The current token, which is read if it is of a kind. -/
def eat (k : Kind) : Production (Option Token) := do
  if ← isAt k then return some (← advance) else return none

/-! ### Errors -/

/-- Fail at the current token for a reason. -/
def failFor {α : Type} (kind : ErrorKind) (reason : Reason) : Production α := do
  throw ((← get).error kind (some reason))

/-- Fail at the current token. -/
def fail {α : Type} (kind : ErrorKind) : Production α := do throw ((← get).error kind none)

/-- Keep an error and go on. -/
def record (e : SyntaxError) : Production Unit := modify (·.record e)

/-- The current token, which must be of a kind and is read. -/
def expect (k : Kind) (missing : ErrorKind) : Production Token := do
  match ← eat k with
  | some t => return t
  | none => fail missing

/-- The text and token of the current identifier, which is read. -/
def expectIdent : Production (String × Token) := do
  if ← isAt .ident then
    let t ← advance
    return (t.text?.getD "", t)
  else fail .missingIdent

/-- A construct that must be there. -/
def require {α : Type} (p : Production (Option α)) (missing : ErrorKind) : Production α := do
  match ← p with
  | some a => return a
  | none => fail missing

/-- An operand that must be there. If it is not, that is noted and an empty node stands for it. -/
def operand (p : Production (Option Node)) : Production Node := do
  match ← p with
  | some n => return n
  | none =>
    let s ← get
    record (s.error .operatorWithNoRhs none)
    return s.placeholder

/-! ### Loops -/

/-- Do rounds until one gives a result. The rounds that are left never run out. -/
def loop {α β : Type} (round : α → Production (α ⊕ β)) : Nat → α → Production β
  | 0, _ => fail .unreachableState
  | n + 1, a => do
    match ← round a with
    | .inl a => loop round n a
    | .inr b => return b

/-- What ends a list: how to read it, and whether it comes next. -/
structure Closer where
  close : Production (Option Token)
  isNext : State → Bool

/-- A closing punctuation mark. -/
def Closer.mark (p : Punctuation) : Closer := ⟨eat (.punctuation p), (·.isAt (.punctuation p))⟩

/-- One more item of a list and the comma after it, or the closer. If neither a comma nor the closer
follows the item, the error is the one that `missing` gives. -/
def commaRound {α : Type} (closer : Closer) (missing : State → ErrorKind) (item : Production α)
    (items : List α) : Production (List α ⊕ List α × Token) := do
  match ← closer.close with
  | some t => return .inr (items, t)
  | none =>
    let a ← item
    let comma ← eat (.punctuation .comma)
    let s ← get
    if comma.isNone && !closer.isNext s then fail (missing s)
    else return .inl (items ++ [a])

/-- Items with commas between them up to a closer; a comma may stand after the last one. -/
def commaList {α : Type} (rounds : Nat) (closer : Closer) (missing : State → ErrorKind)
    (item : Production α) : Production (List α × Token) :=
  loop (commaRound closer missing item) rounds []

/-- At least one item, with commas between them. -/
def commaItems {α : Type} (rounds : Nat) (item : Production α) : Production (List α) :=
  loop
    (fun items => do
      let a ← item
      match ← eat (.punctuation .comma) with
      | some _ => return .inl (items ++ [a])
      | none => return .inr (items ++ [a]))
    rounds []

/-! ### Scopes and attempts -/

/-- Read something and change the state afterwards, also after an error. -/
def ensuring {α : Type} (change : State → State) (p : Production α) : Production α := fun s =>
  let (result, after) := p.run s
  (result, change after)

/-- Read something with another scope current, and go back to the current scope afterwards. -/
def inScope {α : Type} (enter : SymbolTable → SymbolTable) (p : Production α) : Production α := do
  let scope := (← get).symbols.current
  modify fun s => { s with symbols := enter s.symbols }
  ensuring (fun s => { s with symbols := s.symbols.enter scope }) p

/-- Read something in a scope of its own. -/
def inNewScope {α : Type} (p : Production α) : Production α := inScope SymbolTable.push p

/-- Read something, and go back to where it started if it is not there. -/
def orRewind {α : Type} (p : Production (Option α)) : Production (Option α) := do
  let before ← get
  match ← p with
  | some a => return some a
  | none =>
    modify (·.rewind before)
    return none

/-- Read something; an error means that it is not there. -/
def orNone {α : Type} (p : Production α) : Production (Option α) := fun s =>
  match p.run s with
  | (.ok a, after) => (.ok (some a), after)
  | (.error _, after) => (.ok none, after)

end SableFront.Grammar
