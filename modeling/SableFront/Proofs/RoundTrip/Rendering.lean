import SableFront.Proofs.Spaced.Operand

/-!
# Round trip: expressions and how they are written

`IsExpression` says which outlines are expressions: literals and names, and the forms with operators,
calls, subscripts, members, lists, dictionaries and assignments, to any depth. `render` writes an
outline down. Every operand that is not a literal or a name stands in parentheses, and so does an
integer before a dot.
-/

namespace SableFront

namespace Shape

/-- Literals and names. -/
def isLeaf : Shape → Bool
  | int _ | bool _ | null | name _ => true
  | _ => false

/-- What an assignment can have as its target. -/
def isTarget : Shape → Bool
  | name _ | member | index | deref => true
  | _ => false

/-- An operand of this shape is written without parentheses. -/
def isBare (parent operand : Shape) : Bool :=
  match parent, operand with
  | member, int _ => false
  | _, operand => operand.isLeaf

end Shape

namespace Outline

/-! ### Expressions -/

/-- The outline is that of an expression. -/
inductive IsExpression : Outline → Prop
  | int {n : Nat} (hn : n < Number.limit) : IsExpression (.mk (.int n) [])
  | bool (b : Bool) : IsExpression (.mk (.bool b) [])
  | null : IsExpression (.mk .null [])
  | name {s : String} (hs : IsName s) (hunbound : IsUnbound s) : IsExpression (.mk (.name s) [])
  | binary {op : Operator} {left right : Outline} (hop : op.isInfix) (hleft : IsExpression left)
    (hright : IsExpression right) : IsExpression (.mk (.binary (.operator op)) [left, right])
  | between {first second : Operator} {lower value upper : Outline}
    (hops : Grammar.chains (.operator first) (.operator second)) (hlower : IsExpression lower)
    (hvalue : IsExpression value) (hupper : IsExpression upper) :
    IsExpression (.mk (.between (.operator first) [.operator second]) [lower, value, upper])
  | invert {op : Operator} {operand : Outline} (hop : Grammar.inverts (.operator op))
    (h : IsExpression operand) : IsExpression (.mk (.invert (.operator op)) [operand])
  | deref {operand : Outline} (h : IsExpression operand) : IsExpression (.mk .deref [operand])
  | stepBefore {op : Operator} {operand : Outline} (hop : op.opClass = .incDec)
    (h : IsExpression operand) : IsExpression (.mk (.stepBefore (.operator op)) [operand])
  | stepAfter {op : Operator} {operand : Outline} (hop : op.opClass = .incDec)
    (h : IsExpression operand) : IsExpression (.mk (.stepAfter (.operator op)) [operand])
  | call {callee : Outline} {args : List Outline} (hcallee : IsExpression callee)
    (hargs : ∀ e ∈ args, IsExpression e) : IsExpression (.mk (.call 0) (callee :: args))
  | index {target index : Outline} (htarget : IsExpression target) (hindex : IsExpression index) :
    IsExpression (.mk .index [target, index])
  | slice {target : Outline} {start stop : Option Outline} (htarget : IsExpression target)
    (hstart : ∀ e ∈ start, IsExpression e) (hstop : ∀ e ∈ stop, IsExpression e) :
    IsExpression (.mk (.slice start.isSome stop.isSome) (target :: start.toList ++ stop.toList))
  | member {base : Outline} {names : List String} (hbase : IsExpression base)
    (hshape : base.shape ≠ .member) (hne : names ≠ []) (hnames : ∀ s ∈ names, IsName s) :
    IsExpression (.mk .member (base :: names.map .name))
  | list {items : List Outline} (hitems : ∀ e ∈ items, IsExpression e) :
    IsExpression (.mk .list items)
  | dict {entries : List (Outline × Outline)} (hkeys : ∀ e ∈ entries, IsExpression e.1)
    (hvalues : ∀ e ∈ entries, IsExpression e.2) :
    IsExpression (.mk .dict (entries.flatMap fun e => [e.1, e.2]))
  | assignment {op : Operator} {target value : Outline} (hop : op.opClass = .assignment)
    (hshape : target.shape.isTarget) (htarget : IsExpression target)
    (hvalue : IsExpression value) :
    IsExpression (.mk (.assignment (.operator op)) [target, value])

end Outline

/-! ### Rendering -/

/-- Groups of words with commas between them. -/
def commas : List (List Word) → List Word
  | [] => []
  | [ws] => ws
  | ws :: more => ws ++ .mark .comma :: commas more

theorem commas_cons_cons (ws vs : List Word) (more : List (List Word)) :
    commas (ws :: vs :: more) = ws ++ .mark .comma :: commas (vs :: more) := rfl

/-- Groups of words two by two, with a colon between. -/
def pairs : List (List Word) → List (List Word)
  | key :: value :: more => (key ++ .mark .colon :: value) :: pairs more
  | _ => []

def inParens (ws : List Word) : List Word := .mark .lParen :: ws ++ [.mark .rParen]

def inBrackets (ws : List Word) : List Word := .mark .lBracket :: ws ++ [.mark .rBracket]

def inBraces (ws : List Word) : List Word := .mark .lBrace :: ws ++ [.mark .rBrace]

/-- An outline of some shape, from its operands as they are written. -/
def Shape.layout : Shape → List (List Word) → List Word
  | .int n, _ => [.int n]
  | .bool b, _ => [.bool b]
  | .null, _ => [.null]
  | .name s, _ => [.name s]
  | .binary (.operator op), [left, right] => left ++ .operator op :: right
  | .between (.operator first) [.operator second], [lower, value, upper] =>
    lower ++ .operator first :: (value ++ .operator second :: upper)
  | .invert (.operator op), [operand] => .operator op :: operand
  | .deref, [operand] => .operator .star :: operand
  | .stepBefore (.operator op), [operand] => .operator op :: operand
  | .stepAfter (.operator op), [operand] => operand ++ [.operator op]
  | .call 0, callee :: args => callee ++ inParens (commas args)
  | .index, [target, place] => target ++ inBrackets place
  | .slice true true, [target, start, stop] =>
    target ++ inBrackets (start ++ .mark .colon :: stop)
  | .slice true false, [target, start] => target ++ inBrackets (start ++ [.mark .colon])
  | .slice false true, [target, stop] => target ++ inBrackets (.mark .colon :: stop)
  | .slice false false, [target] => target ++ inBrackets [.mark .colon]
  | .member, base :: names => base ++ names.flatMap fun ws => .mark .dot :: ws
  | .list, items => inBrackets (commas items)
  | .dict, parts => inBraces (commas (pairs parts))
  | .assignment (.operator op), [target, value] => target ++ .operator op :: value
  | _, _ => []

namespace Outline

mutual

/-- The words of an outline. -/
def render : Outline → List Word
  | mk shape children => shape.layout (renderAll shape children)

/-- The words of the operands of an outline of some shape. -/
def renderAll (parent : Shape) : List Outline → List (List Word)
  | [] => []
  | e :: es => (if parent.isBare e.shape then render e else inParens (render e)) ::
    renderAll parent es

end

/-- The words of an operand of an outline of some shape. -/
def renderIn (parent : Shape) (e : Outline) : List Word :=
  if parent.isBare e.shape then e.render else inParens e.render

theorem renderAll_eq_map (parent : Shape) (es : List Outline) :
    renderAll parent es = es.map (renderIn parent) := by
  induction es with
  | nil => rfl
  | cons e es ih => rw [renderAll, ih, List.map_cons, renderIn]

theorem render_mk (shape : Shape) (children : List Outline) :
    (mk shape children).render = shape.layout (children.map (renderIn shape)) := by
  rw [render, renderAll_eq_map]

end Outline

end SableFront
