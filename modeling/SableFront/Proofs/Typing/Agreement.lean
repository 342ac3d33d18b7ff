import SableFront.Proofs.Symbols.Names
import SableFront.Proofs.Typing.Statement

/-!
# Typing: the types in a program

All types in a program make sense: those that the table stores, those in the tree, and those of all
values (`types_are_well_formed`). For this it does not matter which names get another type.

The type of a name is stored twice: in the tree when the name is bound, and in the table. Without
imports both are the same in the end (`names_carry_final_types`), but for a variable in its own
initial value, and for names such as `operatorand`. Words that are operators can be defined, and
such a definition takes the place of whatever has that name, as is told at the end.
-/

namespace SableFront

theorem importFree_of_forall {ks : List Kind}
    (h : ∀ k ∈ ks, k ≠ .keyword .importKw ∧ k ≠ .keyword .fromKw) : importFree ks := by
  induction ks with
  | nil => rfl
  | cons k ks ih =>
    obtain ⟨⟨himport, hfrom⟩, hks⟩ := List.forall_mem_cons.mp h
    unfold importFree
    split
    · rename_i heq
      exact absurd (List.cons.inj heq).1 himport
    · rename_i heq
      exact absurd (List.cons.inj heq).1 hfrom
    · rename_i heq
      cases heq
      exact ih hks
    · rfl

open Node

/-- **All types make sense.** No symbol, name or type reference of a program, and no value in it, has
a type that is an integer and a float, that is a number without a width or with several widths, that
has a width and is no number, or that is signed and no integer. -/
theorem types_are_well_formed (source : String) (config : ParseConfig) :
    let p := Program.parse source config
    (∀ id s, p.symbols.symbol? id = some s →
      s.type.WellFormed ∧ ∀ r ∈ s.returns, r.WellFormed) ∧
    ∀ n ∈ walkAll p.nodes,
      (∀ i ∈ n.ident?, i.type.WellFormed) ∧ (∀ t ∈ n.referredType?, t.WellFormed) ∧
      (n.valueType p.symbols).WellFormed := by
  intro p
  obtain ⟨htyped, hsettled⟩ := Grammar.Typing.reading_settles (fun _ => True) source config
    (fun _ => trivial) (.inl fun _ => trivial)
  refine ⟨fun id s hs => ⟨(htyped id s hs).type, (htyped id s hs).returns⟩, fun n hn => ?_⟩
  obtain ⟨top, htop, hbelow⟩ := mem_walkAll_iff.mp hn
  have hrefers := (hsettled top htop).everywhere_refersWell.below hbelow
  refine ⟨fun i hi => ?_, hrefers.self, wellFormed_valueType htyped n hrefers⟩
  rw [← map_node_occurrences []] at hbelow
  obtain ⟨o, ho, rfl⟩ := List.mem_map.mp hbelow
  have hagrees := hsettled top htop o ho
  unfold ident? at hi
  split at hi
  · rename_i hform
    cases hi
    rw [hform] at hagrees
    exact hagrees.wellFormed
  · cases hi

/-! ### Names and their symbols -/

/-- If the node is a name that is bound to a symbol, and this is not a variable that is unset here,
the name carries the type that the table has for the symbol, and so has its value. -/
def Node.Occurrence.Agrees (o : Occurrence) (t : SymbolTable) : Prop :=
  ∀ i ∈ o.node.ident?, ∀ id ∈ i.symbol, id ∉ o.unset →
    (t.symbol? id).map (·.type) = some i.type ∧ o.node.valueType t = i.type

instance (o : Occurrence) (t : SymbolTable) : Decidable (o.Agrees t) :=
  inferInstanceAs (Decidable (∀ i ∈ o.node.ident?, ∀ id ∈ i.symbol, id ∉ o.unset →
    (t.symbol? id).map (·.type) = some i.type ∧ o.node.valueType t = i.type))

/-- A name is looked up by the symbol that it is bound to. -/
theorem Node.valueType_of_ident {n : Node} {t : SymbolTable} {i : Ident} {id : SymbolId}
    {s : Symbol} (hi : n.ident? = some i) (hid : i.symbol = some id) (hs : t.symbol? id = some s) :
    n.valueType t = s.type := by
  obtain ⟨⟨form, token, span, marks, leading, trailing⟩, children⟩ := n
  cases form
  case ident =>
    cases hi
    change ((i.symbol.bind t.symbol?).map (·.type)).getD .unknown = s.type
    rw [hid, Option.bind_some, hs]
    rfl
  all_goals cases hi

/-- Names agree with their symbols where no name is fluid but those of operators. -/
theorem Form.Agrees.agrees {o : Occurrence} {t : SymbolTable}
    (h : o.node.form.Agrees (fun name => ∃ op, name = Grammar.operatorName op) t o.unset)
    (hresolved : o.node.Resolved t)
    (hname : ∀ i ∈ o.node.ident?, ∀ op, i.name ≠ Grammar.operatorName op) : o.Agrees t := by
  intro i hi id hid hset
  have hagrees := h
  unfold ident? at hi
  split at hi
  · rename_i hform
    have hident : o.node.ident? = some i := by
      unfold ident?
      rw [hform]
      exact hi
    cases hi
    rw [hform] at hagrees
    obtain ⟨s, hs, hmeans⟩ := hagrees.symbol id hid
    obtain ⟨s', hs', hsame⟩ := (hresolved i hident).symbol id hid
    cases hs.symm.trans hs'
    have htype : s.type = i.type := by
      rcases hmeans with ⟨op, hop⟩ | hunset | htype
      · exact absurd (hsame.symm.trans hop) (hname i hident op)
      · exact absurd hunset hset
      · exact htype
    rw [hs, ← htype]
    exact ⟨rfl, valueType_of_ident hident hid hs⟩
  · cases hi

/-- **Names carry the types that their symbols have in the end**, in a text without imports. The
occurrences are all nodes of the tree, and all of them agree with the final table but for names of
operators. -/
theorem names_carry_final_types (source : String) (config : ParseConfig)
    (hfree : ∀ t ∈ tokenize source, t.kind ≠ .keyword .importKw ∧ t.kind ≠ .keyword .fromKw) :
    let p := Program.parse source config
    (occurrencesAll [] [] p.nodes).map Occurrence.node = walkAll p.nodes ∧
    ∀ o ∈ occurrencesAll [] [] p.nodes,
      (∀ i ∈ o.node.ident?, ∀ op, i.name ≠ Grammar.operatorName op) → o.Agrees p.symbols := by
  intro p
  have hwords : importFree (words (tokenize source)) := importFree_of_forall fun k hk => by
    obtain ⟨t, ht, rfl⟩ := List.mem_map.mp hk
    exact hfree t (List.mem_filter.mp ht).1
  obtain ⟨-, hsettled⟩ := Grammar.Typing.reading_settles
    (fun name => ∃ op, name = Grammar.operatorName op) source config
    (fun op => ⟨op, rfl⟩) (.inr hwords)
  have hstart : Grammar.Naming [] (Grammar.State.start source config) := Piece.AllNodes.nil
  obtain ⟨s, hholds, -, hsymbols, -⟩ :=
    Grammar.Survey.reading_keeps (Grammar.loose_naming.whole _) hstart
  have hall : Piece.AllNodes (Resolved p.symbols) (p.nodes.map .node) := hsymbols ▸ hholds
  have hnodes := map_node_occurrencesAll [] [] p.nodes
  refine ⟨hnodes, fun o ho hname => ?_⟩
  have hwalk : o.node ∈ walkAll p.nodes := hnodes ▸ List.mem_map_of_mem ho
  exact (forall_mem_occurrencesAll (List.Subset.refl _) hsettled o ho).agrees
    (hall.walkAll hwalk).self hname

/-- Inferred types, a name for a type, a class, parameters, and a variable in its own value. -/
theorem names_carry_inferred_types :
    let source :=
      "auto n = 1; type T = Int32; class A { T x; function f(T y) { return n + y; } } " ++
        "auto a = A(); auto loop = function() { loop; };"
    let p := Program.parse source .standard
    (p.errors = [] ∧ (occurrencesAll [] [] p.nodes).countP (·.unset ≠ []) = 8) ∧
    (occurrencesAll [] [] p.nodes).map Occurrence.node = walkAll p.nodes ∧
    ∀ o ∈ occurrencesAll [] [] p.nodes,
      (∀ i ∈ o.node.ident?, ∀ op, i.name ≠ Grammar.operatorName op) → o.Agrees p.symbols :=
  ⟨by decide +kernel, names_carry_final_types _ .standard (by decide +kernel)⟩

/-- The definition of an operator may take the place of a variable, without an error. -/
theorem operator_replaces_variable :
    let source := "Int32 operatorand; operator and() { }"
    let p := Program.parse source .standard
    (∀ t ∈ tokenize source, t.kind ≠ .keyword .importKw ∧ t.kind ≠ .keyword .fromKw) ∧
    p.errors = [] ∧ ¬ ∀ o ∈ occurrencesAll [] [] p.nodes, o.Agrees p.symbols := by
  decide +kernel

end SableFront
