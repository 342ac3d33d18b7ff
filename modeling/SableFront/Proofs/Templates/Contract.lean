import SableFront.Proofs.Discipline.Statement
import SableFront.Proofs.Templates.Heading

/-!
# Templates: trees in order

A class or function introduces a name, and the type of the name says whether a template introduces
it. A tree is *in order* if that is so for the items of its templates and for nothing else, and if
all items are definitions.

The note of a header is left in the state of reading until a definition takes it. A state is in
order if no note is left, and in a well-headed text the definition behind a header always takes it
at once. So to be in order is a discipline (`ordered`), which asks of a definition that it says
whether a header is before it; and all productions keep to it but those that read a header.
-/

namespace SableFront

namespace Node

/-! ### Trees -/

/-- Which child is the name of a class or function. -/
def nameIndex? (n : Node) : Option Nat :=
  match n.form with
  | .classDef _ visibility _ => some visibility.toNat
  | .function visibility storage _ => some (visibility.toNat + storage.toNat)
  | _ => none

/-- The name that a class or function introduces. It introduces none if the name was taken. -/
def introduced? (n : Node) : Option Ident :=
  ((n.nameIndex?.bind (n.children[·]?)).bind ident?).filter (·.declaration)

/-- The type of what the node introduces says whether a template introduces it. -/
def SaysTemplate (n : Node) (template : Bool) : Prop :=
  ∀ i ∈ n.introduced?, i.type.has .template = template

/-- The node defines something. -/
def isDefinition (n : Node) : Bool :=
  match n.form with
  | .classDef .. | .function .. | .operatorDef .. => true
  | _ => false

/-- The node is no class, function or template. -/
def isSimple (n : Node) : Bool :=
  match n.form with
  | .classDef .. | .function .. | .template => false
  | _ => true

/-- The item of a template is its last child. -/
def isItem (n : Node) (index : Nat) : Bool := n.form == .template && index + 1 == n.children.length

/-- The item of a template is a definition, and of the children of a node only the item of a
template says that a template introduces it. -/
structure KeepsTemplates (n : Node) : Prop where
  item : n.form = .template → n.children.getLast?.any isDefinition
  child : ∀ (i : Nat) (c : Node), n.children[i]? = some c → c.SaysTemplate (n.isItem i)

/-- The tree is in order, and stands behind no header. -/
structure InOrder (n : Node) : Prop where
  everywhere : n.Everywhere KeepsTemplates
  plain : n.SaysTemplate false

/-- The tree is a definition in order, with a header before it or without. -/
structure Defines (n : Node) (template : Bool) : Prop where
  definition : n.isDefinition
  children : ∀ c ∈ n.children, c.InOrder
  marked : n.SaysTemplate template

instance (n : Node) (template : Bool) : Decidable (n.SaysTemplate template) :=
  inferInstanceAs (Decidable (∀ i ∈ n.introduced?, i.type.has .template = template))

variable {m n : Node} {ns : List Node} {template : Bool}

/-- It is enough to look at the children there are. -/
theorem keepsTemplates_iff :
    n.KeepsTemplates ↔ (n.form = .template → n.children.getLast?.any isDefinition) ∧
      ∀ i : Fin n.children.length, n.children[i].SaysTemplate (n.isItem i) := by
  refine ⟨fun h => ⟨h.item, fun i => h.child i _ (List.getElem?_eq_getElem i.isLt)⟩, fun h => ?_⟩
  refine ⟨h.1, fun i c hc => ?_⟩
  obtain ⟨hlt, rfl⟩ := List.getElem?_eq_some_iff.mp hc
  exact h.2 ⟨i, hlt⟩

instance (n : Node) : Decidable n.KeepsTemplates := decidable_of_iff' _ keepsTemplates_iff

theorem isSimple_of_form (h : n.form.isPlain ∨ n.form.startsWithType) : n.isSimple := by
  unfold isSimple
  cases hform : n.form
  case classDef | function | template =>
    rw [hform] at h
    rcases h with h | h <;> cases h
  all_goals rfl

theorem ne_template_of_isSimple (h : n.isSimple) : n.form ≠ .template := by
  intro hform
  rw [isSimple, hform] at h
  cases h

theorem ne_template_of_isDefinition (h : n.isDefinition) : n.form ≠ .template := by
  intro hform
  rw [isDefinition, hform] at h
  cases h

theorem saysTemplate_of_isSimple (h : n.isSimple) : n.SaysTemplate template := by
  have hname : n.introduced? = none := by
    unfold introduced? nameIndex?
    unfold isSimple at h
    cases hform : n.form
    case classDef | function =>
      rw [hform] at h
      cases h
    all_goals rfl
  intro i hi
  rw [hname] at hi
  cases hi

/-- Below anything but a template no child stands behind a header. -/
theorem keepsTemplates_of_children (hform : n.form ≠ .template) (h : ∀ c ∈ n.children, c.InOrder) :
    n.Everywhere KeepsTemplates := by
  refine everywhere_iff.mpr ⟨⟨fun heq => absurd heq hform, fun i c hc => ?_⟩,
    fun c hc => (h c hc).everywhere⟩
  rw [isItem, beq_eq_false_iff_ne.mpr hform, Bool.false_and]
  exact (h c (List.mem_of_getElem? hc)).plain

theorem inOrder_of_isSimple (hsimple : n.isSimple) (h : ∀ c ∈ n.children, c.InOrder) : n.InOrder :=
  ⟨keepsTemplates_of_children (ne_template_of_isSimple hsimple) h, saysTemplate_of_isSimple hsimple⟩

theorem Defines.everywhere (h : n.Defines template) : n.Everywhere KeepsTemplates :=
  keepsTemplates_of_children (ne_template_of_isDefinition h.definition) h.children

theorem Defines.inOrder (h : n.Defines false) : n.InOrder := ⟨h.everywhere, h.marked⟩

/-- A header with its item. -/
theorem inOrder_template {params : List Node} (hparams : ∀ p ∈ params, p.InOrder)
    (hn : n.Defines true) (keyword : Token) (spans : List Span) :
    (build .template keyword (params ++ [n]) [] spans).InOrder := by
  refine ⟨everywhere_iff.mpr ⟨⟨fun _ => ?_, fun i c hc => ?_⟩, fun c hc => ?_⟩,
    fun i hi => by cases hi⟩
  · change (params ++ [n]).getLast?.any isDefinition
    rw [List.getLast?_concat]
    exact hn.definition
  · change (params ++ [n])[i]? = some c at hc
    have hitem : (build .template keyword (params ++ [n]) [] spans).isItem i = (i == params.length) := by
      change (true && i + 1 == (params ++ [n]).length) = _
      rw [List.length_append, List.length_singleton, Bool.true_and]
      exact decide_eq_decide.mpr (Nat.add_right_cancel_iff)
    rw [hitem]
    rcases Nat.lt_trichotomy i params.length with hlt | rfl | hgt
    · rw [List.getElem?_append_left hlt] at hc
      rw [beq_eq_false_iff_ne.mpr (Nat.ne_of_lt hlt)]
      exact (hparams c (List.mem_of_getElem? hc)).plain
    · rw [List.getElem?_concat_length] at hc
      cases hc
      rw [beq_self_eq_true]
      exact hn.marked
    · have hlength : (params ++ [n]).length ≤ i := by
        rw [List.length_append, List.length_singleton]
        exact hgt
      rw [List.getElem?_eq_none hlength] at hc
      cases hc
  · rcases List.mem_append.mp hc with hc | hc
    · exact (hparams c hc).everywhere
    · rw [List.mem_singleton.mp hc]
      exact hn.everywhere

/-! ### Changes to a node itself -/

theorem saysTemplate_congr (hform : n.form = m.form) (hchildren : n.children = m.children) :
    n.SaysTemplate template ↔ m.SaysTemplate template := by
  unfold SaysTemplate introduced? nameIndex?
  rw [hform, hchildren]

/-- Only the form and the children of a node matter. -/
theorem InOrder.congr (h : m.InOrder) (hform : n.form = m.form)
    (hchildren : n.children = m.children) : n.InOrder := by
  obtain ⟨hself, hbelow⟩ := everywhere_iff.mp h.everywhere
  refine ⟨everywhere_iff.mpr ⟨⟨fun heq => ?_, fun i c hc => ?_⟩, fun c hc => ?_⟩,
    (saysTemplate_congr hform hchildren).mpr h.plain⟩
  · rw [hchildren]
    exact hself.item (hform ▸ heq)
  · unfold isItem
    rw [hform, hchildren]
    exact hself.child i c (hchildren ▸ hc)
  · exact hbelow c (hchildren ▸ hc)

/-- The children of anything but a template are in order themselves. -/
theorem InOrder.children (h : n.InOrder) (hform : n.form ≠ .template) :
    ∀ c ∈ n.children, c.InOrder := by
  obtain ⟨hself, hbelow⟩ := everywhere_iff.mp h.everywhere
  intro c hc
  obtain ⟨i, hi⟩ := List.getElem?_of_mem hc
  have hmarked := hself.child i c hi
  rw [isItem, beq_eq_false_iff_ne.mpr hform, Bool.false_and] at hmarked
  exact ⟨hbelow c hc, hmarked⟩

/-- What a name is bound to does not matter. -/
theorem InOrder.modifyIdent (h : n.InOrder) (f : Ident → Ident) : (n.modifyIdent f).InOrder := by
  obtain ⟨⟨form, token, span, marks, leading, trailing⟩, children⟩ := n
  cases form with
  | ident i => exact inOrder_of_isSimple rfl (h.children Form.noConfusion)
  | _ => exact h.congr rfl rfl

theorem inOrder_leaf {form : Form} (hform : form.isPlain) (t : Token) : (leaf form t).InOrder :=
  inOrder_of_isSimple (isSimple_of_form (.inl hform)) (List.forall_mem_nil _)

end Node

namespace Grammar

open Node

/-! ### States and productions -/

/-- No header's note is left, what waits is in order, and what lies ahead is well headed. -/
structure State.InOrder (s : State) : Prop where
  note : s.templateScope = none
  waiting : ∀ n ∈ s.lookaside, n.InOrder
  placed : s.lexer.Placed
  headed : wellHeaded s.words

variable {s t : State}

namespace State.InOrder

/-- Only the lexer, the name that waits and the note matter. -/
theorem congr (h : s.InOrder) (hlexer : t.lexer = s.lexer) (hwaiting : t.lookaside = s.lookaside)
    (hnote : t.templateScope = s.templateScope) : t.InOrder :=
  ⟨hnote.trans h.note, hwaiting ▸ h.waiting, hlexer ▸ h.placed,
    (words_eq_of_lexer hlexer).symm ▸ h.headed⟩

theorem withoutNote (h : s.InOrder) : State.InOrder { s with templateScope := none } :=
  h.congr rfl rfl h.note.symm

theorem withSymbols (h : s.InOrder) (symbols : SymbolTable) :
    State.InOrder { s with symbols } := h.congr rfl rfl rfl

theorem record (h : s.InOrder) (e : SyntaxError) : (s.record e).InOrder := by
  refine h.congr (s.lexer_record e) (s.lookaside_record e) ?_
  unfold State.record
  split <;> rfl

theorem advance (h : s.InOrder) : s.advance.InOrder := by
  refine ⟨?_, (s.lookaside_advance).symm ▸ h.waiting, ?_, wellHeaded_advance h.headed⟩
  · rw [← h.note, State.advance]
    split <;> rfl
  · unfold State.advance
    split
    · exact h.placed
    · exact Cursor.placed_significant _

theorem split (h : s.InOrder) (hs : isClosingAngle s.current.kind) :
    State.InOrder { s with lexer := s.lexer.splitAngle?.getD s.lexer } := by
  obtain ⟨hplaced, -, hwords⟩ := ahead_splitAngle (P := fun ks => wellHeaded ks) h.placed hs
  exact ⟨h.note, h.waiting, hplaced, hwords persistent_wellHeaded h.headed⟩

theorem rewind (h : s.InOrder) (ht : t.InOrder) : (t.rewind s).InOrder :=
  ⟨ht.note, h.waiting, h.placed, h.headed⟩

end State.InOrder

/-- States and trees are asked to be in order. -/
def ordered : Discipline where
  Holds _ := State.InOrder
  Open _ := True
  Own _ := True
  Value := Node.InOrder
  Typing := Node.InOrder
  Definition note n := n.Defines note.isSome

instance : ordered.Reads where
  invariant _ :=
    { advance := fun h => h.advance
      record := fun e h => h.record e
      split := fun h hs => h.split hs
      rewind := fun h ht => h.rewind ht }
  waiting h := h.waiting
  idle h := ⟨h.note, fun n hn => (Option.not_mem_none n hn).elim, h.placed, h.headed⟩
  stash h hn := ⟨h.note, fun _ hm => Option.some.inj hm ▸ hn, h.placed, h.headed⟩
  comments _ h := h.congr rfl rfl rfl
  withoutNote h := h.withoutNote

instance : ordered.Binds :=
  .of_free (fun _ => trivial) (fun _ => trivial) fun symbols hs => hs.withSymbols symbols

theorem has_templated (note : Option ScopeId) {type : SymbolType}
    (htype : type.has .template = false) :
    (templated note type).has .template = note.isSome := by
  unfold templated
  cases note with
  | none => exact htype
  | some scope =>
    change (type.append .template).has .template = true
    rw [SymbolType.has_append, htype]
    rfl

/-- A class or function introduces its name with the type that it is declared with. -/
theorem saysTemplate_of_name {n name : Node} {note : Option ScopeId} {type : SymbolType}
    {before behind : List Node} (hindex : n.nameIndex? = some before.length)
    (hchildren : n.children = before ++ name :: behind) (htype : type.has .template = false)
    (hname : ∀ i ∈ name.ident?, i.declaration → i.type = templated note type) :
    n.SaysTemplate note.isSome := by
  intro i hi
  unfold introduced? at hi
  rw [hindex, Option.bind_some, hchildren, List.getElem?_append_right (Nat.le_refl _),
    Nat.sub_self, List.getElem?_cons_zero] at hi
  obtain ⟨hident, hdeclaration⟩ := Option.filter_eq_some_iff.mp hi
  rw [hname i hident hdeclaration, has_templated note htype]

instance : ordered.Builds where
  congr h := h.congr
  bind f h := h.modifyIdent f
  part h hform := h.children (by rw [hform]; exact Form.noConfusion)
  plain hform h := inOrder_of_isSimple (isSimple_of_form (.inl hform)) h
  typed hform hchildren htype h := by
    refine inOrder_of_isSimple (isSimple_of_form (.inr hform)) ?_
    rw [hchildren]
    exact List.forall_mem_cons.mpr ⟨htype, h⟩
  typing hform hchildren _ hnames hgenerics := by
    refine inOrder_of_isSimple (by rw [isSimple, hform]) ?_
    rw [hchildren]
    exact List.forall_mem_append.mpr ⟨hnames, hgenerics⟩
  value h := h
  guess _ _ h := h
  call _ _ hform h := inOrder_of_isSimple (by rw [isSimple, hform]) h
  function hform hchildren hlength h hname := by
    refine ⟨by rw [isDefinition, hform], h, saysTemplate_of_name ?_ hchildren (by decide) hname⟩
    rw [nameIndex?, hform, hlength]
  operator hform h :=
    ⟨by rw [isDefinition, hform], h, saysTemplate_of_isSimple (by rw [isSimple, hform])⟩
  classes {note n name body isEnum visibility before types} hform hchildren hlength hbefore hname
      htypes hbody hintroduced := by
    rw [List.append_assoc, List.cons_append] at hchildren
    refine ⟨by rw [isDefinition, hform], ?_,
      saysTemplate_of_name ?_ hchildren (by decide) hintroduced⟩
    · rw [hchildren]
      exact List.forall_mem_append.mpr
        ⟨hbefore, List.forall_mem_cons.mpr ⟨hname, forall_mem_concat (D := ordered) htypes hbody⟩⟩
    · rw [nameIndex?, hform, hlength]
  defined {w s n} hs hn := by
    have hnote : s.templateScope = none := hs.note
    rw [hnote] at hn
    exact Defines.inOrder hn

instance : ordered.Lawful where

/-- The tree that was found, if there is one, is in order. -/
abbrev Found (found : Option Node) : Prop := ordered.Found found

end Grammar

end SableFront
