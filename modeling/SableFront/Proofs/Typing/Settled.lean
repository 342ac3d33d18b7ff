import SableFront.Proofs.Typing.WellFormed

/-!
# Typing: settled trees

A name in a tree carries the type that its symbol had when the name was bound, and the table may
give the symbol another type later. Two things do so. An operator or an import replaces what its
name was bound to; the names for which this may happen are called *fluid* here. And a variable that
is declared without a type gets that of its initial value, which is read before: in this value, the
variable is *unset*. `occurrences` lists the nodes of a tree with the variables that are unset where
they stand.

A tree is *settled* in a table if every name in it carries the type that the table has for its
symbol, but for fluid names and unset variables, and if all types in it are well formed. What the
table retains keeps a tree settled (`Settled.mono`), and when a variable is given its type, its
value is settled still, for there the variable is unset (`Settled.set`).
-/

namespace SableFront

namespace Node

/-! ### Occurrences -/

/-- A node where it stands in a tree. -/
structure Occurrence where
  node : Node
  /-- The variables in whose initial values it stands. -/
  unset : List SymbolId

/-- The variable that a declaration introduces. There is none if its name was taken. -/
def introducedVariable? (n : Node) : Option SymbolId :=
  match n.form, n.children with
  | .identDef _, [_, name] => (name.ident?.filter (·.declaration)).bind (·.symbol)
  | _, _ => none

/-- What is unset in the children of a node behind the first one: in the value that is assigned to
a variable where it is declared, the variable is, too. -/
def unsetBehind (unset : List SymbolId) (data : NodeData) (children : List Node) : List SymbolId :=
  if data.form = .assignment then (children.head?.bind introducedVariable?).toList ++ unset
  else unset

mutual

/-- The occurrences of a node and of all nodes below it, each before its children. -/
def occurrences (unset : List SymbolId) : Node → List Occurrence
  | mk data children =>
    ⟨mk data children, unset⟩ ::
      occurrencesAll unset (unsetBehind unset data children) children

/-- The occurrences in several trees, with what is unset in the first one and behind it. -/
def occurrencesAll (unset behind : List SymbolId) : List Node → List Occurrence
  | [] => []
  | n :: ns => occurrences unset n ++ occurrencesAll behind behind ns

end

mutual

/-- The nodes that occur are all nodes. -/
theorem map_node_occurrences (unset : List SymbolId) :
    ∀ n : Node, (n.occurrences unset).map Occurrence.node = n.walk
  | mk _ children => by
    rw [occurrences, walk, List.map_cons, map_node_occurrencesAll]

theorem map_node_occurrencesAll (unset behind : List SymbolId) :
    ∀ ns : List Node, (occurrencesAll unset behind ns).map Occurrence.node = walkAll ns
  | [] => rfl
  | n :: ns => by
    rw [occurrencesAll, walkAll, List.map_append, map_node_occurrences, map_node_occurrencesAll]

end

theorem unsetBehind_append (inner outer : List SymbolId) (data : NodeData) (children : List Node) :
    unsetBehind (inner ++ outer) data children = unsetBehind inner data children ++ outer := by
  unfold unsetBehind
  split
  · rw [List.append_assoc]
  · rfl

mutual

/-- What is unset around a tree is unset all over it, and nothing else depends on it. -/
theorem occurrence_around {outer : List SymbolId} (outer' : List SymbolId) {o : Occurrence} :
    ∀ (n : Node) (inner : List SymbolId), o ∈ n.occurrences (inner ++ outer) →
      ∃ within, o.unset = within ++ outer ∧
        ⟨o.node, within ++ outer'⟩ ∈ n.occurrences (inner ++ outer')
  | mk data children, inner, ho => by
    rw [occurrences, unsetBehind_append] at ho ⊢
    rcases List.mem_cons.mp ho with rfl | ho
    · exact ⟨inner, rfl, List.mem_cons_self⟩
    · obtain ⟨within, hunset, hmem⟩ := occurrence_around_all outer' children inner _ ho
      exact ⟨within, hunset, List.mem_cons_of_mem _ hmem⟩

theorem occurrence_around_all {outer : List SymbolId} (outer' : List SymbolId)
    {o : Occurrence} :
    ∀ (ns : List Node) (inner behind : List SymbolId),
      o ∈ occurrencesAll (inner ++ outer) (behind ++ outer) ns →
      ∃ within, o.unset = within ++ outer ∧
        ⟨o.node, within ++ outer'⟩ ∈ occurrencesAll (inner ++ outer') (behind ++ outer') ns
  | [], _, _, ho => by cases ho
  | n :: ns, inner, behind, ho => by
    rw [occurrencesAll] at ho ⊢
    rcases List.mem_append.mp ho with ho | ho
    · obtain ⟨within, hunset, hmem⟩ := occurrence_around outer' n inner ho
      exact ⟨within, hunset, List.mem_append_left _ hmem⟩
    · obtain ⟨within, hunset, hmem⟩ := occurrence_around_all outer' ns behind behind ho
      exact ⟨within, hunset, List.mem_append_right _ hmem⟩

end

end Node

/-! ### Tables -/

variable {fluid : String → Prop} {t u v : SymbolTable} {unset more : List SymbolId}

/-- The symbols of a table are in a later one, with their names and, unless these are fluid, with
their types. -/
def SymbolTable.Retains (fluid : String → Prop) (t u : SymbolTable) : Prop :=
  ∀ id s, t.symbol? id = some s →
    ∃ s', u.symbol? id = some s' ∧ s'.name = s.name ∧ (fluid s.name ∨ s'.type = s.type)

namespace SymbolTable

theorem Retains.refl (t : SymbolTable) : t.Retains fluid t := fun _ s hs => ⟨s, hs, rfl, .inr rfl⟩

theorem Retains.trans (h : t.Retains fluid u) (h' : u.Retains fluid v) : t.Retains fluid v := by
  intro id s hs
  obtain ⟨s', hs', hname, htype⟩ := h id s hs
  obtain ⟨s'', hs'', hname', htype'⟩ := h' id s' hs'
  refine ⟨s'', hs'', hname'.trans hname, ?_⟩
  rw [hname] at htype'
  rcases htype with hfluid | htype
  · exact .inl hfluid
  · exact htype'.imp_right fun heq => heq.trans htype

theorem Retains.size_le (h : t.Retains fluid u) : t.size ≤ u.size := by
  by_contra hle
  have hlt : u.size < t.symbols.size := Nat.lt_of_not_le hle
  obtain ⟨s', hs', -⟩ := h _ _ (Array.getElem?_eq_getElem hlt)
  exact Nat.lt_irrefl _ (Array.getElem?_eq_some_iff.mp hs').1

theorem retains_bindNew (t : SymbolTable) (scope : ScopeId) (s : Symbol) :
    t.Retains fluid (t.bindNew scope s) := by
  intro id a ha
  have hlt : id < t.size := (Array.getElem?_eq_some_iff.mp ha).1
  exact ⟨a, by rw [symbol?_bindNew, if_neg (Nat.ne_of_lt hlt), ha], rfl, .inr rfl⟩

/-- Symbols may be changed in other ways. -/
theorem retains_modifySymbol {f : Symbol → Symbol}
    (hf : ∀ a, (f a).name = a.name ∧ (f a).type = a.type) (i : SymbolId) :
    t.Retains fluid (t.modifySymbol i f) := by
  intro id a ha
  rw [symbol?_modifySymbol, ha]
  split
  · exact ⟨f a, rfl, (hf a).1, .inr (hf a).2⟩
  · exact ⟨a, rfl, rfl, .inr rfl⟩

theorem retains_setReturns (t : SymbolTable) (i : SymbolId) (type : SymbolType) :
    t.Retains fluid (t.setReturns i type) := by
  refine retains_modifySymbol ?_ i
  exact fun _ => ⟨rfl, rfl⟩

theorem retains_setMembers (t : SymbolTable) (i : SymbolId) (scope : ScopeId) :
    t.Retains fluid (t.setMembers i scope) := by
  refine retains_modifySymbol ?_ i
  exact fun _ => ⟨rfl, rfl⟩

/-- A symbol that is not in the table may be changed in any way. -/
theorem Retains.modifySymbol (h : t.Retains fluid u) {i : SymbolId} (hi : t.size ≤ i)
    (f : Symbol → Symbol) : t.Retains fluid (u.modifySymbol i f) := by
  intro id a ha
  have hlt : id < t.size := (Array.getElem?_eq_some_iff.mp ha).1
  rw [symbol?_modifySymbol, if_neg (Nat.ne_of_gt (Nat.lt_of_lt_of_le hlt hi))]
  exact h id a ha

/-- What takes the place of a symbol has its name, which has to be fluid. -/
theorem Labelled.retains_insert (h : t.Labelled) {s : Symbol} (hs : fluid s.name) :
    t.Retains fluid (t.insert s).2 := by
  unfold SymbolTable.insert
  split
  · rename_i found hfound
    intro id a ha
    by_cases hid : found = id
    · subst hid
      obtain ⟨old, hold, hname⟩ := h _ _ _ hfound
      cases ha.symm.trans hold
      have hlt : found < t.size := (Array.getElem?_eq_some_iff.mp ha).1
      exact ⟨_, Array.getElem?_setIfInBounds_self_of_lt hlt, hname.symm, .inl (hname ▸ hs)⟩
    · exact ⟨a, (Array.getElem?_setIfInBounds_ne hid).trans ha, rfl, .inr rfl⟩
  · exact retains_bindNew t _ s

end SymbolTable

/-! ### Names and forms -/

/-- The type that an occurrence of a name carries is well formed, and is that of its symbol, unless
the name is fluid or the symbol is unset. -/
structure Ident.Agrees (fluid : String → Prop) (t : SymbolTable) (unset : List SymbolId)
    (i : Ident) : Prop where
  wellFormed : i.type.WellFormed
  symbol : ∀ id ∈ i.symbol, ∃ s, t.symbol? id = some s ∧
    (fluid s.name ∨ id ∈ unset ∨ s.type = i.type)

/-- The types in a form are well formed, and a name agrees with its symbol. -/
def Form.Agrees (fluid : String → Prop) (t : SymbolTable) (unset : List SymbolId) : Form → Prop
  | .ident i => i.Agrees fluid t unset
  | .typeRef _ _ type => type.WellFormed
  | _ => True

/-- The form holds no type. -/
def Form.isBare : Form → Bool
  | .ident _ | .typeRef .. => false
  | _ => true

theorem Form.agrees_of_isBare {form : Form} (h : form.isBare) : form.Agrees fluid t unset := by
  cases form
  case ident | typeRef => cases h
  all_goals trivial

/-- What a table says of its symbols stays true in another one, but for what is unset there. -/
def SymbolTable.RetainsBut (fluid : String → Prop) (unset : List SymbolId) (t u : SymbolTable) :
    Prop :=
  ∀ id s, t.symbol? id = some s → ∃ s', u.symbol? id = some s' ∧ s'.name = s.name ∧
    (fluid s.name ∨ id ∈ unset ∨ s'.type = s.type)

theorem Form.Agrees.transfer {form : Form} (h : form.Agrees fluid t unset) (hsub : unset ⊆ more)
    (htable : t.RetainsBut fluid more u) : form.Agrees fluid u more := by
  cases form
  case ident i =>
    refine ⟨h.wellFormed, fun id hid => ?_⟩
    obtain ⟨s, hs, hagrees⟩ := h.symbol id hid
    obtain ⟨s', hs', hname, hkept⟩ := htable id s hs
    refine ⟨s', hs', ?_⟩
    rw [hname]
    rcases hagrees with hfluid | hunset | htype
    · exact .inl hfluid
    · exact .inr (.inl (hsub hunset))
    · exact hkept.imp_right (Or.imp_right fun heq => heq.trans htype)
  case typeRef => exact h
  all_goals trivial

namespace Node

variable {n m : Node} {ns : List Node}

/-! ### Settled trees -/

/-- The types in a tree are well formed, and its names agree with their symbols. -/
def Settled (fluid : String → Prop) (t : SymbolTable) (unset : List SymbolId) (n : Node) : Prop :=
  ∀ o ∈ n.occurrences unset, o.node.form.Agrees fluid t o.unset

namespace Settled

/-- More may be unset, and the table may change in what is unset. -/
theorem transfer (h : n.Settled fluid t unset) (hsub : unset ⊆ more)
    (htable : t.RetainsBut fluid more u) : n.Settled fluid u more := by
  intro o ho
  obtain ⟨within, hunset, hmem⟩ := occurrence_around unset n [] ho
  have hagrees := h _ hmem
  rw [hunset]
  refine hagrees.transfer (List.append_subset.mpr ⟨List.subset_append_left _ _, ?_⟩)
    fun id s hs => ?_
  · exact fun id hid => List.mem_append_right within (hsub hid)
  · obtain ⟨s', hs', hname, hkept⟩ := htable id s hs
    exact ⟨s', hs', hname, hkept.imp_right (Or.imp_left (List.mem_append_right within))⟩

/-- What a table retains keeps a tree settled. -/
theorem mono (h : n.Settled fluid t unset) (htable : t.Retains fluid u) : n.Settled fluid u unset :=
  h.transfer (List.Subset.refl _) fun id s hs =>
    let ⟨s', hs', hname, hkept⟩ := htable id s hs
    ⟨s', hs', hname, hkept.imp_right .inr⟩

theorem grow (h : n.Settled fluid t unset) (hsub : unset ⊆ more) : n.Settled fluid t more :=
  h.transfer hsub fun _ s hs => ⟨s, hs, rfl, .inr (.inr rfl)⟩

/-- **A variable may be given its type** where it is unset. -/
theorem set (h : n.Settled fluid t unset) (id : SymbolId) (type : SymbolType) :
    n.Settled fluid (t.updateType id type) (id :: unset) := by
  refine h.transfer (List.subset_cons_self id unset) fun i s hs => ?_
  unfold SymbolTable.updateType
  rw [SymbolTable.symbol?_modifySymbol, hs]
  split
  · rename_i heq
    exact ⟨_, rfl, rfl, .inr (.inl (heq ▸ List.mem_cons_self))⟩
  · exact ⟨s, rfl, rfl, .inr (.inr rfl)⟩

theorem agrees (h : n.Settled fluid t unset) : n.form.Agrees fluid t unset := by
  cases n
  exact h _ List.mem_cons_self

end Settled

/-- A tree is settled if its root is, and the trees below it where they stand. -/
theorem settled_iff : n.Settled fluid t unset ↔ n.form.Agrees fluid t unset ∧
    ∀ o ∈ occurrencesAll unset (unsetBehind unset n.data n.children) n.children,
      o.node.form.Agrees fluid t o.unset := by
  obtain ⟨data, children⟩ := n
  unfold Settled
  rw [occurrences, List.forall_mem_cons]
  rfl

theorem forall_mem_occurrencesAll {behind : List SymbolId} (hsub : unset ⊆ behind)
    (h : ∀ c ∈ ns, c.Settled fluid t unset) :
    ∀ o ∈ occurrencesAll unset behind ns, o.node.form.Agrees fluid t o.unset := by
  induction ns generalizing unset with
  | nil => exact fun o ho => by cases ho
  | cons c cs ih =>
    rw [occurrencesAll]
    refine List.forall_mem_append.mpr ⟨h c List.mem_cons_self, ih (List.Subset.refl _) ?_⟩
    exact fun d hd => (h d (List.mem_cons_of_mem _ hd)).grow hsub

theorem subset_unsetBehind (unset : List SymbolId) (data : NodeData) (children : List Node) :
    unset ⊆ unsetBehind unset data children := by
  unfold unsetBehind
  split
  · exact List.subset_append_right _ _
  · exact List.Subset.refl _

/-- A node over settled trees. -/
theorem settled_of_children (hform : n.form.Agrees fluid t unset)
    (hchildren : ∀ c ∈ n.children, c.Settled fluid t unset) : n.Settled fluid t unset :=
  settled_iff.mpr ⟨hform, forall_mem_occurrencesAll (subset_unsetBehind _ _ _) hchildren⟩

/-- What is below a settled node is settled, unless the node assigns something. -/
theorem Settled.children (h : n.Settled fluid t unset) (hform : n.form ≠ .assignment) :
    ∀ c ∈ n.children, c.Settled fluid t unset := by
  have hbelow := (settled_iff.mp h).2
  have hsame : unsetBehind unset n.data n.children = unset := if_neg hform
  rw [hsame] at hbelow
  intro c hc o ho
  refine hbelow o ?_
  generalize n.children = cs at hc
  induction cs with
  | nil => cases hc
  | cons d ds ih =>
    rw [occurrencesAll]
    rcases List.mem_cons.mp hc with rfl | hc
    · exact List.mem_append_left _ ho
    · exact List.mem_append_right _ (ih hc)

/-- Only the form and the children of a node matter. -/
theorem Settled.congr (h : m.Settled fluid t unset) (hform : n.form = m.form)
    (hchildren : n.children = m.children) : n.Settled fluid t unset := by
  have hbehind : unsetBehind unset n.data n.children = unsetBehind unset m.data m.children := by
    unfold unsetBehind
    change (if n.form = _ then _ else _) = if m.form = _ then _ else _
    rw [hform, hchildren]
  rw [settled_iff] at h ⊢
  rw [hform, hbehind, hchildren]
  exact h

theorem Settled.cover (h : n.Settled fluid t unset) (s : Span) :
    (n.cover s).Settled fluid t unset := h.congr rfl rfl

theorem Settled.mark (h : n.Settled fluid t unset) (token : Token) :
    (n.mark token).Settled fluid t unset := h.congr rfl rfl

theorem Settled.markFirst (h : n.Settled fluid t unset) (token : Token) :
    (n.markFirst token).Settled fluid t unset := h.congr rfl rfl

theorem settled_leaf {form : Form} (hform : form.Agrees fluid t unset) (token : Token) :
    (leaf form token).Settled fluid t unset := settled_of_children hform (List.forall_mem_nil _)

theorem settled_name (text : String) (token : Token) : (name text token).Settled fluid t unset := by
  have hform : (Form.ident ⟨text, none, .unknown, .plain, false, false⟩).Agrees fluid t unset :=
    ⟨SymbolType.wellFormed_unknown, fun id hid => by cases hid⟩
  exact settled_leaf hform token

theorem settled_ofComment (token : Token) : (ofComment token).Settled fluid t unset := by
  have hform : Form.comment.Agrees fluid t unset := trivial
  exact settled_leaf hform token

theorem settled_ofLiteral (token : Token) : (ofLiteral token).Settled fluid t unset := by
  refine settled_leaf ?_ token
  split <;> trivial

/-- What a name is bound to may be changed. -/
theorem Settled.modifyIdent (h : n.Settled fluid t unset) {f : Ident → Ident}
    (hf : ∀ i, n.ident? = some i → i.Agrees fluid t unset → (f i).Agrees fluid t unset) :
    (n.modifyIdent f).Settled fluid t unset := by
  obtain ⟨⟨form, token, span, marks, leading, trailing⟩, children⟩ := n
  cases form
  case ident i =>
    exact settled_of_children (hf i rfl h.agrees) (h.children Form.noConfusion)
  all_goals exact h.congr rfl rfl

/-- A name is bound to a symbol of the table, with its type. -/
theorem Settled.attach (h : n.Settled fluid t unset) {id : SymbolId} {s stored : Symbol}
    (hstored : t.symbol? id = some stored) (htype : stored.type = s.type) (hs : s.type.WellFormed)
    (role : Role) : (n.attach id s role).Settled fluid t unset := by
  refine h.modifyIdent fun i _ _ => ⟨hs, fun other hother => ?_⟩
  cases hother
  exact ⟨stored, hstored, .inr (.inr htype)⟩

theorem Settled.declared (h : n.Settled fluid t unset) : n.declared.Settled fluid t unset :=
  h.modifyIdent fun _ _ hi => ⟨hi.wellFormed, hi.symbol⟩

theorem Settled.withRole (h : n.Settled fluid t unset) (role : Role) :
    (n.withRole role).Settled fluid t unset :=
  h.modifyIdent fun _ _ hi => ⟨hi.wellFormed, hi.symbol⟩

/-- **A declaration with a value.** In the value the variable is unset. -/
theorem settled_declaration {type name value : Node} (token op : Token) {id : SymbolId}
    {i : Ident} (htype : type.Settled fluid t []) (hname : name.Settled fluid t [])
    (hvalue : value.Settled fluid t [id]) (hi : name.ident? = some i) (hid : i.symbol = some id)
    (hdeclaration : i.declaration) :
    (branch .assignment op [branch (.identDef false) token [type, name], value]).Settled
      fluid t [] := by
  have htarget : (branch (.identDef false) token [type, name]).Settled fluid t [] :=
    settled_of_children trivial
      (List.forall_mem_cons.mpr ⟨htype, List.forall_mem_singleton.mpr hname⟩)
  have hvariable : (branch (.identDef false) token [type, name]).introducedVariable? = some id := by
    change (name.ident?.filter (·.declaration)).bind (·.symbol) = some id
    rw [hi, Option.filter_some, if_pos hdeclaration]
    exact hid
  refine settled_iff.mpr ⟨trivial, ?_⟩
  change ∀ o ∈ occurrencesAll [] (((some (branch (.identDef false) token [type, name])).bind
    introducedVariable?).toList ++ []) [branch (.identDef false) token [type, name], value], _
  rw [Option.bind_some, hvariable, occurrencesAll, occurrencesAll, occurrencesAll]
  refine List.forall_mem_append.mpr ⟨htarget, List.forall_mem_append.mpr ⟨hvalue, ?_⟩⟩
  exact List.forall_mem_nil _

end Node

end SableFront
