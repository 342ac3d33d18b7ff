import SableFront.Proofs.Invariant
import SableFront.Proofs.Rollback.Table
import SableFront.Proofs.Survey.Node

/-!
# Disciplines

A discipline says what is asked of the state of reading and of the trees that are read: of those
that stand as values or statements, of those that stand where a type must be, and of definitions. If
every single step and every way to put a tree together hand on what is asked, all productions do,
which is proved once for all disciplines.

What is asked of a state may depend on the scope that is current, and names are declared in scopes
only that are *open*. So a discipline can tell what is bound from what must be left alone, and the
productions that declare something keep to it where the current scope is open. Those that
expressions are made of do so in every scope.
-/

namespace SableFront

/-- A form whose children stand as values and which hands on what is asked of them. -/
def Form.isPlain : Form → Bool
  | .classDef .. | .function .. | .template | .typeRef .. | .identDef _ | .new _ | .returnType =>
    false
  | .call generics => generics == 0
  | _ => true

/-- The first child of the form stands where a type must be, and the others stand as values. -/
def Form.startsWithType : Form → Bool
  | .identDef _ | .new _ | .returnType => true
  | _ => false

namespace Grammar

open Node

/-- Where something is read: the scope that is current, and whether the note of a template header
may wait there. -/
structure Place where
  scope : ScopeId
  noted : Bool

/-- Where a file begins. -/
def Place.file : Place := ⟨SymbolTable.global, false⟩

/-- What is asked of states and of trees. -/
structure Discipline where
  /-- What is asked of a state at a place. -/
  Holds : Place → State → Prop
  /-- Names may be declared in the scope. -/
  Open : ScopeId → Prop
  /-- The symbol may be changed. -/
  Own : SymbolId → Prop
  Value : Node → Prop
  Typing : Node → Prop
  /-- What is asked of a definition behind a header that has left a note, or without one. -/
  Definition : Option ScopeId → Node → Prop

namespace Discipline

variable (D : Discipline)

/-- Every single step of reading hands on what is asked of states. -/
class Reads : Prop where
  invariant (w : Place) : Invariant (D.Holds w)
  waiting {w : Place} {s : State} : D.Holds w s → ∀ n ∈ s.lookaside, D.Value n
  idle {w : Place} {s : State} : D.Holds w s → D.Holds w { s with lookaside := none }
  stash {w : Place} {s : State} {n : Node} : D.Holds w s → D.Value n →
    D.Holds w { s with lookaside := some n }
  comments {w : Place} {s : State} (comments : List Token) : D.Holds w s →
    D.Holds w { s with comments }
  withoutNote {w : Place} {s : State} : D.Holds w s → D.Holds w { s with templateScope := none }

/-- So does whatever is done to the symbol table. -/
class Binds : Prop where
  here {w : Place} {s : State} : D.Holds w s → D.Open w.scope → D.Open s.symbols.current
  note {w : Place} {s : State} : D.Holds w s → ∀ outer ∈ s.templateScope, D.Open outer
  push {w : Place} {s : State} : D.Holds w s →
    D.Holds { w with scope := s.symbols.push.current } { s with symbols := s.symbols.push } ∧
      D.Open s.symbols.push.current
  enter {w : Place} {s : State} {scope : ScopeId} : D.Holds w s →
    D.Holds { w with scope } { s with symbols := s.symbols.enter scope }
  back {w : Place} {s t : State} {scope : ScopeId} : D.Holds w s → D.Holds { w with scope } t →
    D.Holds w { t with symbols := t.symbols.enter s.symbols.current }
  /-- A name is declared where that is open, -/
  addIn {w : Place} {s : State} {scope : ScopeId} {symbol : Symbol} {id : SymbolId}
    {symbols : SymbolTable} : D.Holds w s → D.Open scope →
      s.symbols.addIn scope symbol = .ok (id, symbols) → D.Holds w { s with symbols } ∧ D.Own id
  /-- or in the place of the symbol that has the name. -/
  insert {w : Place} {s : State} (symbol : Symbol) : D.Holds w s → D.Open w.scope →
    D.Holds w { s with symbols := (s.symbols.insert symbol).2 } ∧
      D.Own (s.symbols.insert symbol).1
  change {w : Place} {s : State} {id : SymbolId} (f : Symbol → Symbol) : D.Holds w s → D.Own id →
    D.Holds w { s with symbols := s.symbols.modifySymbol id f }
  /-- A symbol without members gets a scope for them. -/
  members {w : Place} {s : State} {id : SymbolId} : D.Holds w s → D.Own id →
    (s.symbols.symbol? id).bind (·.members) = none →
      D.Holds w { s with symbols := (s.symbols.allocateStruct id).2 } ∧
        D.Open (s.symbols.allocateStruct id).1

/-- And so does every way to put a tree together. -/
class Builds : Prop where
  /-- Only the form and the children of a node matter, -/
  congr {m n : Node} : D.Value m → n.form = m.form → n.children = m.children → D.Value n
  /-- and what a name is bound to does not. -/
  bind {n : Node} (f : Ident → Ident) : D.Value n → D.Value (n.modifyIdent f)
  part {n : Node} : D.Value n → n.form = .dotted → ∀ c ∈ n.children, D.Value c
  plain {n : Node} : n.form.isPlain → (∀ c ∈ n.children, D.Value c) → D.Value n
  typed {n type : Node} {others : List Node} : n.form.startsWithType →
    n.children = type :: others → D.Typing type → (∀ c ∈ others, D.Value c) → D.Value n
  typing {n : Node} {storage : Bool} {count : Nat} {type : SymbolType}
    {names generics : List Node} : n.form = .typeRef storage count type →
    n.children = names ++ generics → names.length = storage.toNat + 1 →
    (∀ c ∈ names, D.Value c) → (∀ c ∈ generics, D.Typing c) → D.Typing n
  /-- A value may be given where a type must be. -/
  value {n : Node} : D.Value n → D.Typing n
  /-- Where generic arguments are tried after values, types may stand as values, -/
  guess {w : Place} {s : State} {n : Node} : D.Holds w s → s.config.speculateGenerics →
    D.Typing n → D.Value n
  /-- and calls may have generic arguments. -/
  call {w : Place} {s : State} {n : Node} {count : Nat} : D.Holds w s →
    s.config.speculateGenerics → n.form = .call count → (∀ c ∈ n.children, D.Value c) → D.Value n
  /-- The name of a function is introduced with a type that tells whether a header is before it. -/
  function {note : Option ScopeId} {n name : Node} {visibility storage returns : Bool}
    {before behind : List Node} : n.form = .function visibility storage returns →
    n.children = before ++ name :: behind → before.length = visibility.toNat + storage.toNat →
    (∀ c ∈ n.children, D.Value c) →
    (∀ i ∈ name.ident?, i.declaration → i.type = templated note .function) → D.Definition note n
  operator {note : Option ScopeId} {n : Node} {visibility storage returns : Bool} :
    n.form = .operatorDef visibility storage returns → (∀ c ∈ n.children, D.Value c) →
    D.Definition note n
  classes {note : Option ScopeId} {n name body : Node} {isEnum visibility : Bool}
    {before types : List Node} : n.form = .classDef isEnum visibility types.length →
    n.children = before ++ name :: types ++ [body] → before.length = visibility.toNat →
    (∀ c ∈ before, D.Value c) → D.Value name → (∀ c ∈ types, D.Typing c) → D.Value body →
    (∀ i ∈ name.ident?, i.declaration → i.type = templated note SymbolType.struct.asType) →
    D.Definition note n
  /-- A definition stands as a statement like any other. -/
  defined {w : Place} {s : State} {n : Node} : D.Holds w s → D.Definition s.templateScope n →
    D.Value n

/-- All that reading does hands on what is asked. -/
class Lawful : Prop extends Reads D, Binds D, Builds D

/-- Where symbols and scopes do not matter, whatever is done to the table hands on what is asked. -/
theorem Binds.of_free {D : Discipline} (hopen : ∀ scope, D.Open scope) (hown : ∀ id, D.Own id)
    (h : ∀ {w w' : Place} {s : State} (symbols : SymbolTable), D.Holds w s →
      D.Holds w' { s with symbols }) : D.Binds where
  here _ _ := hopen _
  note _ _ _ := hopen _
  push hs := ⟨h _ hs, hopen _⟩
  enter hs := h _ hs
  back _ ht := h _ ht
  addIn hs _ _ := ⟨h _ hs, hown _⟩
  insert _ hs _ := ⟨h _ hs, hown _⟩
  change _ hs _ := h _ hs
  members hs _ _ := ⟨h _ hs, hopen _⟩

/-- The tree that was found, if there is one, is as it is asked of values. -/
def Found (found : Option Node) : Prop := ∀ n ∈ found, D.Value n

/-- What is done to the symbol table leads to a scope that is open. -/
def Enters (w : Place) (enter : SymbolTable → SymbolTable) : Prop :=
  ∀ ⦃s⦄, D.Holds w s →
    D.Holds { w with scope := (enter s.symbols).current } { s with symbols := enter s.symbols } ∧
      D.Open (enter s.symbols).current

/-- The rules keep to the discipline. -/
structure Governs (r : Rules) : Prop where
  expression (w : Place) : Preserves (D.Holds w) r.expression D.Found
  shift (w : Place) : Preserves (D.Holds w) r.shift D.Found
  steps (w : Place) : Preserves (D.Holds w) r.steps D.Found
  deref (w : Place) : Preserves (D.Holds w) r.deref D.Found
  invert (w : Place) : Preserves (D.Holds w) r.invert D.Found
  typeRef (w : Place) : Preserves (D.Holds w) r.typeRef fun found => ∀ n ∈ found, D.Typing n
  statement {w : Place} : D.Open w.scope → Preserves (D.Holds w) r.statement D.Found
  items {w : Place} (context : Context) : D.Open w.scope → ∀ ⦃s : State⦄, D.Holds w s →
    D.Holds w (r.items context s).2 ∧ ∀ n ∈ (r.items context s).1, D.Value n

end Discipline

variable {D : Discipline} {w : Place} {m n : Node} {ns : List Node}

@[simp] theorem found_some : D.Found (some n) ↔ D.Value n :=
  ⟨fun h => h n rfl, fun h _ hm => Option.some.inj hm ▸ h⟩

@[simp] theorem found_none : D.Found none := fun n hn => by cases hn

@[simp] theorem forall_mem_toList {found : Option Node} :
    (∀ n ∈ found.toList, D.Value n) ↔ D.Found found := by
  cases found <;> simp

theorem forall_mem_pair (hm : D.Value m) (hn : D.Value n) : ∀ c ∈ [m, n], D.Value c :=
  List.forall_mem_cons.mpr ⟨hm, List.forall_mem_singleton.mpr hn⟩

theorem forall_mem_concat (hns : ∀ c ∈ ns, D.Value c) (hn : D.Value n) :
    ∀ c ∈ ns ++ [n], D.Value c :=
  List.forall_mem_append.mpr ⟨hns, List.forall_mem_singleton.mpr hn⟩

/-- The nodes of the signature are as it is asked of values. -/
def Signature.Obeys (sig : Signature) (D : Discipline) : Prop :=
  D.Value sig.params ∧ D.Found sig.returns

theorem Signature.Obeys.forall_mem {sig : Signature} (h : sig.Obeys D) :
    ∀ n ∈ sig.params :: sig.returns.toList, D.Value n :=
  List.forall_mem_cons.mpr ⟨h.1, forall_mem_toList.mpr h.2⟩

variable [D.Lawful]

instance (w : Place) : Invariant (D.Holds w) := Discipline.Reads.invariant w

/-! ### Single nodes -/

namespace Discipline

theorem leaf {form : Form} (hform : form.isPlain) (t : Token) : D.Value (leaf form t) :=
  Builds.plain hform (List.forall_mem_nil _)

theorem attach (h : D.Value n) (id : SymbolId) (symbol : Symbol) (role : Role) :
    D.Value (n.attach id symbol role) := Builds.bind _ h

theorem declared (h : D.Value n) : D.Value n.declared := Builds.bind _ h

theorem withRole (h : D.Value n) (role : Role) : D.Value (n.withRole role) := Builds.bind _ h

theorem cover (h : D.Value n) (s : Span) : D.Value (n.cover s) := Builds.congr h rfl rfl

theorem mark (h : D.Value n) (t : Token) : D.Value (n.mark t) := Builds.congr h rfl rfl

theorem markFirst (h : D.Value n) (t : Token) : D.Value (n.markFirst t) := Builds.congr h rfl rfl

theorem name (text : String) (t : Token) : D.Value (name text t) := leaf rfl t

theorem ofComment (t : Token) : D.Value (ofComment t) := leaf rfl t

theorem ofLiteral (t : Token) : D.Value (ofLiteral t) := by
  unfold Node.ofLiteral
  split <;> exact leaf rfl t

theorem placeholder (s : State) : D.Value s.placeholder := leaf rfl _

theorem bindName (s : State) (t : Token) : D.Value (s.bindName t) := by
  unfold State.bindName
  dsimp only
  split
  · split
    · exact attach (name _ _) _ _ _
    · exact name _ _
  · exact name _ _

theorem dotted (hm : D.Value m) (hn : D.Value n) : D.Value (dotted m n) := by
  unfold Grammar.dotted
  split
  · rename_i hform
    have hplain : m.form.isPlain := by rw [hform]; rfl
    exact Builds.plain hplain (forall_mem_concat (Builds.part hm hform) hn)
  · exact Builds.plain rfl (forall_mem_pair hm hn)

/-- An operand that is missing is as it is asked of values. -/
theorem operand {p : Production (Option Node)} (h : Preserves (D.Holds w) p D.Found) :
    Preserves (D.Holds w) (operand p) D.Value := h.operand placeholder

end Discipline

/-! ### Scopes and names -/

open Discipline (Reads Binds)

theorem Discipline.enters_push : D.Enters w SymbolTable.push := fun _ hs => Binds.push hs

/-- What keeps to the discipline in the scope that is entered does so around it. -/
theorem obeys_inScope {α : Type} {p : Production α} {Q : α → Prop}
    {enter : SymbolTable → SymbolTable} (henter : D.Enters w enter)
    (hp : ∀ scope, D.Open scope → Preserves (D.Holds { w with scope }) p Q) :
    Preserves (D.Holds w) (inScope enter p) Q := by
  intro s hs
  obtain ⟨hinner, hopen⟩ := henter hs
  exact .inScope ((hp _ hopen hinner).mono (fun _ _ ht => ⟨Binds.back hs ht.1, ht.2⟩)
    fun _ _ ht => Binds.back hs ht)

theorem obeys_inNewScope {α : Type} {p : Production α} {Q : α → Prop}
    (hp : ∀ scope, D.Open scope → Preserves (D.Holds { w with scope }) p Q) :
    Preserves (D.Holds w) (inNewScope p) Q := obeys_inScope Discipline.enters_push hp

/-- What has been declared: a name, and a symbol if it is a new one. -/
structure Discipline.Declares (D : Discipline) (n : Node) (symbol : Symbol)
    (found : Node × Option SymbolId) (table : SymbolTable) : Prop where
  value : D.Value found.1
  /-- A name that is introduced here has the type of the symbol. -/
  introduced : (∀ i ∈ n.ident?, i.declaration = false) →
    ∀ i ∈ found.1.ident?, i.declaration → i.type = symbol.type
  own : ∀ id ∈ found.2, D.Own id
  /-- The new symbol is as it was asked for. -/
  bound : ∀ id ∈ found.2, id < table.size ∧
    (table.symbol? id).bind (·.members) = symbol.members

/-- A name may be declared in any scope that is open. Nothing is read for it. -/
theorem meets_declare {s : State} (hs : D.Holds w s) (hn : D.Value n) (symbol : Symbol)
    {scope : ScopeId} (hscope : D.Open scope) (role : Role) :
    Meets s (declare n symbol scope role) (declare n symbol scope role)
      (fun found t => (D.Holds w t ∧ t.lexer = s.lexer ∧ t.templateScope = s.templateScope) ∧
        D.Declares n symbol found t.symbols)
      fun _ t => D.Holds w t := by
  unfold declare
  rw [meets_get]
  cases hadd : s.symbols.addIn scope symbol with
  | ok added =>
    obtain ⟨id, symbols⟩ := added
    obtain ⟨hholds, hown⟩ := Binds.addIn hs hscope hadd
    obtain ⟨hlt, hsymbol⟩ := SymbolTable.symbol?_of_addIn hadd
    dsimp only
    rw [meets_set]
    refine .pure ⟨⟨hholds, rfl, rfl⟩, Discipline.declared (Discipline.attach hn _ _ _),
      fun _ i hi _ => ?_, fun i hi => ?_, fun i hi => ?_⟩
    · unfold Node.declared Node.attach at hi
      rw [ident?_modifyIdent, ident?_modifyIdent] at hi
      obtain ⟨_, hattached, rfl⟩ := Option.map_eq_some_iff.mp hi
      obtain ⟨_, -, rfl⟩ := Option.map_eq_some_iff.mp hattached
      rfl
    · cases hi
      exact hown
    · cases hi
      exact ⟨hlt, by rw [hsymbol]; rfl⟩
  | error e =>
    have hnone {Q : SymbolId → Prop} : ∀ id ∈ (none : Option SymbolId), Q id :=
      fun _ hid => absurd hid (Option.not_mem_none _)
    dsimp only
    rw [meets_record]
    have hkept (e : SyntaxError) : D.Holds w (s.record e) ∧ (s.record e).lexer = s.lexer ∧
        (s.record e).templateScope = s.templateScope :=
      ⟨Invariant.record e hs, s.lexer_record e, s.templateScope_record e⟩
    split
    · refine .pure ⟨hkept _, Discipline.attach hn _ _ _, fun hfresh i hi hintro => ?_, hnone, hnone⟩
      unfold Node.attach at hi
      rw [ident?_modifyIdent] at hi
      obtain ⟨j, hj, rfl⟩ := Option.map_eq_some_iff.mp hi
      exact absurd hintro (Bool.eq_false_iff.mp (hfresh j hj))
    · exact .pure ⟨hkept _, hn, fun hfresh i hi hintro =>
        absurd hintro (Bool.eq_false_iff.mp (hfresh i hi)), hnone, hnone⟩

theorem obeys_declare (hn : D.Value n) (symbol : Symbol) {scope : ScopeId} (hscope : D.Open scope)
    (role : Role) : Preserves (D.Holds w) (declare n symbol scope role) fun found =>
      D.Value found.1 ∧ ∀ id ∈ found.2, D.Own id :=
  fun _ hs => (meets_declare hs hn symbol hscope role).weaken fun _ _ ht =>
    ⟨ht.1.1, ht.2.value, ht.2.own⟩

end Grammar

end SableFront
