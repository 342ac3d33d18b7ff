import SableFront.Proofs.Rollback.Frame

/-!
# Generic arguments that are not tried

A configuration can ask that `<` after the name of a type is not tried as the start of generic
arguments. Names that are values heed this, but a type reference never looks at it. So the switch
keeps generic arguments out of calls and of all places where a value stands, and lets them through
where a type must stand: before the name of a variable or parameter, as a return type, as a base,
after `new`, and among the generic arguments of another type.
-/

namespace SableFront

/-- How many generic arguments a node of the form has. -/
def Form.generics : Form → Nat
  | .call count | .typeRef _ count _ => count
  | _ => 0

/-- A type must stand at this place among the children of the form. -/
def Form.holdsType : Form → Nat → Bool
  | .identDef _, i | .new _, i => i == 0
  | .returnType, _ => true
  | .classDef _ shown bases, i => shown.toNat < i && i ≤ shown.toNat + bases
  | .typeRef stored _ _, i => stored.toNat < i
  | _, _ => false

namespace Node

/-! ### Trees -/

/-- The node is no call with generic arguments, and its children have such arguments only where a
type must stand. -/
structure SeatsTypes (n : Node) : Prop where
  call : ∀ count, n.form = .call count → count = 0
  child : ∀ (i : Nat) (c : Node), n.children[i]? = some c → c.form.generics ≠ 0 →
    n.form.holdsType i

/-- The tree may stand as a value: it has no generic arguments itself. -/
structure Ungeneric (n : Node) : Prop where
  everywhere : n.Everywhere SeatsTypes
  plain : n.form.generics = 0

variable {m n : Node}

/-- The children that may have generic arguments stand together. -/
theorem everywhere_seatsTypes (front types back : List Node)
    (hcall : ∀ count, n.form = .call count → count = 0)
    (hchildren : n.children = front ++ types ++ back)
    (hfront : ∀ c ∈ front, c.Ungeneric) (htypes : ∀ c ∈ types, c.Everywhere SeatsTypes)
    (hback : ∀ c ∈ back, c.Ungeneric)
    (hholds : ∀ i < types.length, n.form.holdsType (front.length + i)) :
    n.Everywhere SeatsTypes := by
  refine everywhere_iff.mpr ⟨⟨hcall, fun i c hc hgenerics => ?_⟩, fun c hc => ?_⟩
  · rw [hchildren, List.append_assoc, List.getElem?_append, List.getElem?_append] at hc
    split at hc
    · exact absurd (hfront c (List.mem_of_getElem? hc)).plain hgenerics
    · split at hc
      · rename_i hbehind hlt
        have hplace := hholds _ hlt
        rwa [Nat.add_sub_cancel' (Nat.le_of_not_lt hbehind)] at hplace
      · exact absurd (hback c (List.mem_of_getElem? hc)).plain hgenerics
  · rw [hchildren, List.mem_append, List.mem_append] at hc
    rcases hc with (hc | hc) | hc
    · exact (hfront c hc).everywhere
    · exact htypes c hc
    · exact (hback c hc).everywhere

theorem call_of_generics (h : n.form.generics = 0) : ∀ count, n.form = .call count → count = 0 := by
  intro count hform
  rw [hform] at h
  exact h

/-- Where all children may stand as values, no place is looked at. -/
theorem ungeneric_of_children (hplain : n.form.generics = 0) (h : ∀ c ∈ n.children, c.Ungeneric) :
    n.Ungeneric :=
  ⟨everywhere_seatsTypes n.children [] [] (call_of_generics hplain) (by simp) h
    (List.forall_mem_nil _) (List.forall_mem_nil _) fun _ hi => absurd hi (Nat.not_lt_zero _),
    hplain⟩

theorem Ungeneric.children (h : n.Ungeneric) (hholds : ∀ i, n.form.holdsType i = false) :
    ∀ c ∈ n.children, c.Ungeneric := by
  obtain ⟨hself, hbelow⟩ := everywhere_iff.mp h.everywhere
  intro c hc
  obtain ⟨i, hi⟩ := List.getElem?_of_mem hc
  refine ⟨hbelow c hc, by_contra fun hgenerics => ?_⟩
  exact Bool.eq_false_iff.mp (hholds i) (hself.child i c hi hgenerics)

theorem Ungeneric.congr (h : m.Ungeneric) (hform : n.form = m.form)
    (hchildren : n.children = m.children) : n.Ungeneric := by
  obtain ⟨hself, hbelow⟩ := everywhere_iff.mp h.everywhere
  refine ⟨everywhere_iff.mpr ⟨⟨fun count hcount => ?_, ?_⟩, ?_⟩, hform ▸ h.plain⟩
  · exact hself.call count (hform ▸ hcount)
  · rw [hform, hchildren]
    exact hself.child
  · rw [hchildren]
    exact hbelow

theorem Ungeneric.modifyIdent (h : n.Ungeneric) (f : Ident → Ident) :
    (n.modifyIdent f).Ungeneric := by
  obtain ⟨⟨form, token, span, marks, leading, trailing⟩, children⟩ := n
  cases form with
  | ident i => exact ungeneric_of_children rfl (h.children fun _ => rfl)
  | _ => exact h.congr rfl rfl

theorem generics_of_isPlain {form : Form} (h : form.isPlain) : form.generics = 0 := by
  cases form
  case call count => exact beq_iff_eq.mp h
  case typeRef => cases h
  all_goals rfl

theorem holdsType_of_startsWithType {form : Form} (h : form.startsWithType) :
    form.generics = 0 ∧ form.holdsType 0 := by
  cases form
  case identDef | new | returnType => exact ⟨rfl, rfl⟩
  all_goals cases h

end Node

namespace Grammar

open Node

/-! ### The discipline -/

/-- Generic arguments are not tried after values, and the name that waits has none. -/
structure State.Ungeneric (s : State) : Prop where
  switch : s.config.speculateGenerics = false
  waiting : ∀ n ∈ s.lookaside, n.Ungeneric

/-- Only the configuration and the name that waits matter. -/
theorem State.Ungeneric.congr {s t : State} (h : s.Ungeneric) (hconfig : t.config = s.config)
    (hwaiting : t.lookaside = s.lookaside) : t.Ungeneric :=
  ⟨hconfig ▸ h.switch, hwaiting ▸ h.waiting⟩

/-- Values are asked to have no generic arguments, and types to have them where they may. Symbols and
scopes do not matter. -/
def ungeneric : Discipline where
  Holds _ := State.Ungeneric
  Open _ := True
  Own _ := True
  Value := Node.Ungeneric
  Typing n := n.Everywhere SeatsTypes
  Definition _ := Node.Ungeneric

instance : ungeneric.Reads where
  invariant _ :=
    { advance := fun {s} h => h.congr s.config_advance s.lookaside_advance
      record := fun {s} e h => h.congr (s.config_record e) (s.lookaside_record e)
      split := fun h _ => h.congr rfl rfl
      rewind := fun h ht => ⟨ht.switch, h.waiting⟩ }
  waiting h := h.waiting
  idle h := ⟨h.switch, fun n hn => (Option.not_mem_none n hn).elim⟩
  stash h hn := ⟨h.switch, fun _ hm => Option.some.inj hm ▸ hn⟩
  comments _ h := h.congr rfl rfl
  withoutNote h := h.congr rfl rfl

instance : ungeneric.Binds :=
  .of_free (fun _ => trivial) (fun _ => trivial) fun _ hs => hs.congr rfl rfl

/-- The bases of a class stand where types must be, behind its name. -/
theorem everywhere_classDef {n name body : Node} {isEnum visibility : Bool}
    {before types : List Node} (hform : n.form = .classDef isEnum visibility types.length)
    (hchildren : n.children = before ++ name :: types ++ [body])
    (hlength : before.length = visibility.toNat) (hbefore : ∀ c ∈ before, c.Ungeneric)
    (hname : name.Ungeneric) (htypes : ∀ c ∈ types, c.Everywhere SeatsTypes)
    (hbody : body.Ungeneric) : n.Everywhere SeatsTypes := by
  have hfront : ∀ c ∈ before ++ [name], c.Ungeneric :=
    List.forall_mem_append.mpr ⟨hbefore, List.forall_mem_singleton.mpr hname⟩
  refine everywhere_seatsTypes (before ++ [name]) types [body] (fun count hcount => ?_) ?_ hfront
    htypes (List.forall_mem_singleton.mpr hbody) fun i hi => ?_
  · cases hform.symm.trans hcount
  · rw [hchildren]
    simp
  · rw [hform, List.length_append, hlength]
    refine Bool.and_eq_true_iff.mpr ⟨decide_eq_true ?_, decide_eq_true ?_⟩ <;>
      simp only [List.length_singleton] <;> omega

instance : ungeneric.Builds where
  congr h := h.congr
  bind f h := h.modifyIdent f
  part h hform := h.children fun i => by rw [hform]; rfl
  plain hform h := ungeneric_of_children (generics_of_isPlain hform) h
  typed {n type others} hform hchildren htype h := by
    obtain ⟨hplain, hholds⟩ := holdsType_of_startsWithType hform
    refine ⟨everywhere_seatsTypes [] [type] others (call_of_generics hplain) hchildren
      (List.forall_mem_nil _) (List.forall_mem_singleton.mpr htype) h fun i hi => ?_, hplain⟩
    rwa [Nat.lt_one_iff.mp hi]
  typing {n storage count type names generics} hform hchildren hlength hnames hgenerics := by
    refine everywhere_seatsTypes names generics [] (fun count hcount => ?_)
      (by rw [hchildren, List.append_nil]) hnames hgenerics (List.forall_mem_nil _) fun i _ => ?_
    · cases hform.symm.trans hcount
    · rw [hform, hlength]
      exact decide_eq_true (by omega)
  value h := h.everywhere
  guess h hguess := absurd hguess (Bool.eq_false_iff.mp h.switch)
  call h hguess := absurd hguess (Bool.eq_false_iff.mp h.switch)
  function hform _ _ h _ := ungeneric_of_children (by rw [hform]; rfl) h
  operator hform h := ungeneric_of_children (by rw [hform]; rfl) h
  classes hform hchildren hlength hbefore hname htypes hbody _ :=
    ⟨everywhere_classDef hform hchildren hlength hbefore hname htypes hbody, by rw [hform]; rfl⟩
  defined _ h := h

instance : ungeneric.Lawful where

instance : ungeneric.Notes where
  template hform h := ungeneric_of_children (by rw [hform]; rfl) h
  await h := h
  leave _ h _ := h.congr rfl rfl
  forget h := h.congr rfl rfl

/-- However many circles are left, values have no generic arguments. -/
theorem ungeneric_rules (n : Nat) : ungeneric.Governs (rules n) := by
  induction n with
  | zero => exact Discipline.exhausted
  | succ n ih =>
    exact Discipline.Trains.succ
      { toGoverns := ih
        leaves := (framed_rules n).leaves
        template := fun _ _ hopen hs _ => obeys_template ih hopen hs }

end Grammar

open Grammar

/-- **With the switch off generic arguments stand at types only.** Where a configuration asks that
generic arguments are not tried, no call of a program has any, none of its statements is a type with
some, and a node has a child with generic arguments only where a type must stand. -/
theorem generics_stand_at_types (source : String) (config : ParseConfig)
    (hswitch : config.speculateGenerics = false) :
    let nodes := (Program.parse source config).nodes
    (∀ n ∈ nodes, n.form.generics = 0) ∧ ∀ n ∈ Node.walkAll nodes, n.SeatsTypes := by
  intro nodes
  have hstart : (State.start source config).Ungeneric :=
    ⟨hswitch, fun n hn => (Option.not_mem_none n hn).elim⟩
  have hnodes : ∀ n ∈ nodes, n.Ungeneric :=
    ((ungeneric_rules (Program.circles source)).items (w := .file) .file trivial hstart).2
  refine ⟨fun n hn => (hnodes n hn).plain, fun n hn => ?_⟩
  obtain ⟨top, htop, hbelow⟩ := Node.mem_walkAll_iff.mp hn
  exact (hnodes top htop).everywhere n hbelow

/-- Behind a name that stands as a value `<` compares. -/
theorem generics_stand_at_declarations :
    let config := { ParseConfig.standard with speculateGenerics := false }
    let nodes := (Program.parse "Array<Array<Int32>> x; Array < x; new Array<Int32>" config).nodes
    config.speculateGenerics = false ∧ (Node.walkAll nodes).countP (·.form.generics != 0) = 3 ∧
      (∀ n ∈ nodes, n.form.generics = 0) ∧ ∀ n ∈ Node.walkAll nodes, n.SeatsTypes :=
  ⟨rfl, by decide +kernel, generics_stand_at_types _ _ rfl⟩

/-- The switch does not keep generic arguments out of a program. -/
theorem switch_lets_generics_through :
    let p := Program.parse "Array<Int32> x;"
      { ParseConfig.standard with speculateGenerics := false }
    p.errors = [] ∧ ¬ ∀ n ∈ Node.walkAll p.nodes, n.form.generics = 0 := by
  decide +kernel

end SableFront
