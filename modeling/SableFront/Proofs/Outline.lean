import SableFront.Tree.Basic

/-!
# Outlines: what a tree says, without where it says it

The outline of a tree keeps the forms of expressions with their operators, their names and the
values of their literals. It forgets spans and tokens, comments, and what names are bound to. All
other forms are outlined alike.
-/

namespace SableFront

/-- What the outline of a node keeps besides its children. -/
inductive Shape
  | int (n : Nat)
  | bool (b : Bool)
  | null
  | name (s : String)
  | list
  | dict
  | slice (start stop : Bool)
  | index
  | call (generics : Nat)
  | member
  | deref
  | invert (op : Kind)
  | stepBefore (op : Kind)
  | stepAfter (op : Kind)
  | binary (op : Kind)
  /-- A range test with its first operator and the others. -/
  | between (op : Kind) (more : List Kind)
  | assignment (op : Kind)
  | other
  deriving DecidableEq

/-- The outline of a tree. -/
inductive Outline
  | mk (shape : Shape) (children : List Outline)

namespace Outline

def shape : Outline → Shape
  | mk shape _ => shape

def children : Outline → List Outline
  | mk _ children => children

/-! ### Forms with operators -/

@[match_pattern] def int (n : Nat) : Outline := mk (.int n) []

@[match_pattern] def name (s : String) : Outline := mk (.name s) []

@[match_pattern] def binary (op : Operator) (left right : Outline) : Outline :=
  mk (.binary (.operator op)) [left, right]

/-- A range test: two ordering operators, the first between `lower` and `value`. -/
@[match_pattern] def between (first second : Operator) (lower value upper : Outline) : Outline :=
  mk (.between (.operator first) [.operator second]) [lower, value, upper]

end Outline

/-- The shape that the data of a node have. -/
def NodeData.shape (d : NodeData) : Shape :=
  match d.form with
  | .int n => .int n
  | .bool b => .bool b
  | .null => .null
  | .ident i => .name i.name
  | .list => .list
  | .dict => .dict
  | .slice start stop => .slice start stop
  | .index => .index
  | .call generics => .call generics
  | .dotted => .member
  | .deref => .deref
  | .invert => .invert d.token.kind
  | .stepBefore => .stepBefore d.token.kind
  | .stepAfter => .stepAfter d.token.kind
  | .binary => .binary d.token.kind
  | .between => .between d.token.kind (d.marks.map Token.kind)
  | .assignment => .assignment d.token.kind
  | _ => .other

namespace Node

mutual

/-- The outline of a tree. -/
def outline : Node → Outline
  | mk data children => .mk data.shape (outlineAll children)

/-- The outlines of several trees. -/
def outlineAll : List Node → List Outline
  | [] => []
  | n :: ns => outline n :: outlineAll ns

end

theorem outlineAll_eq_map (ns : List Node) : outlineAll ns = ns.map outline := by
  induction ns with
  | nil => rfl
  | cons n ns ih => rw [outlineAll, ih, List.map_cons]

theorem outline_mk (data : NodeData) (children : List Node) :
    (mk data children).outline = .mk data.shape (children.map outline) := by
  rw [outline, outlineAll_eq_map]

theorem outline_build (form : Form) (anchor : Token) (children : List Node) (marks : List Token)
    (further : List Span) : (build form anchor children marks further).outline =
      .mk (NodeData.shape ⟨form, anchor, .point .origin, marks, [], []⟩) (children.map outline) := by
  rw [build, outline_mk]
  cases form <;> rfl

/-- Parentheses around an expression do not show. -/
@[simp] theorem outline_cover (n : Node) (s : Span) : (n.cover s).outline = n.outline := by
  obtain ⟨data, children⟩ := n
  exact (outline_mk _ _).trans (outline_mk _ _).symm

/-- Comments do not show. -/
theorem outline_comments (n : Node) (leading trailing : List Token) :
    (n.modify fun d => { d with leading, trailing }).outline = n.outline := by
  obtain ⟨data, children⟩ := n
  exact (outline_mk _ _).trans (outline_mk _ _).symm

theorem shape_outline (n : Node) : n.outline.shape = n.data.shape := by
  obtain ⟨data, children⟩ := n
  rw [outline_mk]
  rfl

theorem children_outline (n : Node) : n.outline.children = n.children.map outline := by
  obtain ⟨data, children⟩ := n
  rw [outline_mk]
  rfl

end Node

end SableFront
