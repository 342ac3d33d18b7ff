import SableFront.Tree.Basic

/-!
# Round trip: types and how they are written

A type term is what a type reference says if only builtin types are named in it: a name, perhaps
with arguments in angles, which are type terms again, and pointer and reference marks. `render`
writes a type term down, with as many blanks as wanted before each closing angle; `Node.typeTerm?`
finds the type term that a tree says.
-/

namespace SableFront

/-- A mark after a type. -/
inductive TypeMark
  | pointer | reference
  deriving DecidableEq

namespace TypeMark

/-- The operator that a mark is written with. -/
def operator : TypeMark → Operator
  | pointer => .star
  | reference => .amp

/-- The mark that a kind of token is. -/
def ofKind? : Kind → Option TypeMark
  | .operator .star => some pointer
  | .operator .amp => some reference
  | _ => none

theorem ofKind?_operator (m : TypeMark) : ofKind? (.operator m.operator) = some m := by
  cases m <;> rfl

/-- The tokens of marks say the marks. -/
theorem mapM_ofKind? {ts : List Token} {marks : List TypeMark}
    (h : ts.map Token.kind = marks.map fun m => .operator m.operator) :
    (ts.mapM fun t => ofKind? t.kind) = some marks := by
  induction ts generalizing marks with
  | nil =>
    rw [List.map_nil, eq_comm, List.map_eq_nil_iff] at h
    rw [h, List.mapM_nil]
    rfl
  | cons t ts ih =>
    obtain ⟨m, ms, rfl, hm, hms⟩ := List.map_eq_cons_iff.mp h.symm
    rw [List.mapM_cons, ← hm, ofKind?_operator, ih hms.symm]
    rfl

end TypeMark

/-- A type made of builtin types: the name of one, its arguments, if it has any, and the marks after
it. -/
inductive TypeTerm
  | mk (name : BuiltinType) (args : List TypeTerm) (marks : List TypeMark)

namespace TypeTerm

/-! ### Writing -/

/-- The arguments of a type, as they are written, in angles; none without arguments. -/
def angled (blanks : Nat) : List String → String
  | [] => ""
  | arg :: more =>
    "<" ++ ", ".intercalate (arg :: more) ++ String.ofList (List.replicate blanks ' ') ++ ">"

/-- The marks after a type, each behind a blank. -/
def trailed (marks : List TypeMark) : String :=
  String.join (marks.map fun m => " " ++ m.operator.spelling)

mutual

/-- A type as it is written. There are `gap t` blanks before the angle that closes the arguments of a
type `t`; where there are none, closing angles in a row are glued to each other. -/
def render (gap : TypeTerm → Nat) : TypeTerm → String
  | mk name args marks =>
    name.spelling ++ angled (gap (mk name args marks)) (renderAll gap args) ++ trailed marks

/-- Types as they are written. -/
def renderAll (gap : TypeTerm → Nat) : List TypeTerm → List String
  | [] => []
  | t :: ts => render gap t :: renderAll gap ts

end

/-- A declaration of a variable of some type. -/
def declarationOf (gap : TypeTerm → Nat) (t : TypeTerm) (name : String) : String :=
  t.render gap ++ " " ++ name ++ ";"

end TypeTerm

/-! ### Reading off a tree -/

namespace Node

mutual

/-- The type that a tree says, if it is a reference to a type made of builtin types. -/
def typeTerm? : Node → Option TypeTerm
  | mk data (name :: generics) => do
    let .typeRef false count _ := data.form | none
    let builtin ← name.ident?.bind fun i => BuiltinType.ofSpelling? i.name
    let args ← typeTerms? generics
    let marks ← data.marks.mapM fun t => TypeMark.ofKind? t.kind
    if count = args.length then some (.mk builtin args marks) else none
  | mk _ [] => none

/-- The types that several trees say. -/
def typeTerms? : List Node → Option (List TypeTerm)
  | [] => some []
  | n :: ns => do return (← typeTerm? n) :: (← typeTerms? ns)

end

/-- The node declares a variable of some name and type, without a value. -/
def Declares (n : Node) (x : String) (t : TypeTerm) : Prop :=
  n.form = .identDef false ∧ ∃ type name, n.children = [type, name] ∧ type.typeTerm? = some t ∧
    name.ident?.map Ident.name = some x

theorem typeTerms?_of_map {nodes : List Node} {args : List TypeTerm}
    (h : nodes.map typeTerm? = args.map some) : typeTerms? nodes = some args := by
  induction nodes generalizing args with
  | nil =>
    rw [List.map_nil, eq_comm, List.map_eq_nil_iff] at h
    rw [h, typeTerms?]
  | cons n ns ih =>
    obtain ⟨t, ts, rfl, ht, hts⟩ := List.map_eq_cons_iff.mp h.symm
    rw [typeTerms?, ← ht, ih hts.symm]
    rfl

/-- A type reference says the type of its name, its generic arguments and its marks. -/
theorem typeTerm?_build {name : Node} {generics : List Node} {marks : List Token}
    {builtin : BuiltinType} {args : List TypeTerm} {modifiers : List TypeMark} (type : SymbolType)
    (anchor : Token) (further : List Span)
    (hname : name.ident?.map Ident.name = some builtin.spelling)
    (hgenerics : generics.map typeTerm? = args.map some)
    (hmarks : marks.map Token.kind = modifiers.map fun m => .operator m.operator) :
    (build (.typeRef false generics.length type) anchor (name :: generics) marks further).typeTerm? =
      some (.mk builtin args modifiers) := by
  obtain ⟨i, hi, hspelling⟩ := Option.map_eq_some_iff.mp hname
  have hbuiltin : (name.ident?.bind fun i => BuiltinType.ofSpelling? i.name) = some builtin := by
    rw [hi, Option.bind_some, hspelling]
    cases builtin <;> decide
  have hlength : generics.length = args.length := by
    rw [← List.length_map (f := typeTerm?), hgenerics, List.length_map]
  rw [build, typeTerm?]
  simp only [hbuiltin, typeTerms?_of_map hgenerics, TypeMark.mapM_ofKind? hmarks,
    Option.bind_eq_bind, Option.bind_some, if_pos hlength]

end Node

end SableFront
