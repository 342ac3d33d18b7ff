import SableFront.Proofs.Rollback.Frame
import SableFront.Proofs.Templates.Definition

/-!
# Templates: statements and whole texts

Most statements do not look at the note of a header. The statements that can stand behind a header
are walked through once more, with the note still there: in a well-headed text they come to a
definition at once. Then lists of statements are in order, and so is every tree
(`templates_mark_definitions`). What may go wrong in other texts is told at the end.
-/

namespace SableFront

namespace Grammar

open Node

variable {r : Rules} {form : Form} {visibility node : Node} {storage : Option Node}
  {context : Context} {k : Kind} {ks : List Kind} {s : State}

/-- Templates are in order, and so are all statements. -/
theorem Rules.Orderly.trains (h : r.Orderly) : ordered.Trains r where
  toGoverns := h.governs
  leaves := h.leaves
  template _ _ _ hs hat := meets_template h hs hat

/-- Behind a header or not, a definition is in order. -/
theorem meets_defining {p : Production Node} (hp : ordered.Defining .file p)
    (note : Option ScopeId) (hs : s.InOrder) :
    Meets { s with templateScope := note } p p (fun n t => t.InOrder ∧ n.Defines note.isSome)
      fun _ t => t.InOrder := hp note hs fun _ _ => trivial

/-! ### Statements behind a header -/

theorem outcome_storageHere {k : Keyword} (hk : s.current.kind = .keyword k) :
    outcome storageHere s = if k.isStorage then (.ok (some (.leaf .storage s.current)), s.advance)
      else (.ok none, s) := by
  have hcurrent : outcome current s = (.ok s.current, s) := rfl
  unfold storageHere
  rw [outcome_bind, hcurrent]
  dsimp only
  rw [hk]
  dsimp only
  split <;> rfl

/-- Behind a visibility keyword, and perhaps a storage keyword, a definition starts with this. -/
def startsDefinition (stored : Bool) : Keyword → Bool
  | .functionKw | .operatorKw => true
  | .classKw | .enumKw => !stored
  | _ => false

/-- The way from a visibility keyword to the definition that it belongs to. -/
theorem exists_of_definesVisibly (h : definesVisibly s.words) :
    ∃ k, s.current.kind = .keyword k ∧ (k.isStorage = false ∧ startsDefinition false k ∨
      k.isStorage ∧ ∃ j, s.advance.current.kind = .keyword j ∧ startsDefinition true j) := by
  unfold definesVisibly at h
  split at h
  · exact ⟨_, kind_of_words ‹_›, .inl ⟨by decide, rfl⟩⟩
  · exact ⟨_, kind_of_words ‹_›, .inl ⟨by decide, rfl⟩⟩
  · exact ⟨_, kind_of_words ‹_›, .inl ⟨by decide, rfl⟩⟩
  · exact ⟨_, kind_of_words ‹_›, .inl ⟨by decide, rfl⟩⟩
  · rename_i hwords
    have hnext := kind_of_words (words_advance_of_words hwords Kind.noConfusion)
    exact ⟨_, kind_of_words hwords, .inr ⟨h, _, hnext, rfl⟩⟩
  · rename_i hwords
    have hnext := kind_of_words (words_advance_of_words hwords Kind.noConfusion)
    exact ⟨_, kind_of_words hwords, .inr ⟨h, _, hnext, rfl⟩⟩
  · cases h

/-- The definition that a visibility keyword belongs to, behind a header or not. -/
theorem meets_afterVisibility (h : r.Orderly) (hnode : visibility.InOrder)
    (hstorage : Found storage) (note : Option ScopeId) (hs : s.InOrder) {k : Keyword}
    (hk : s.current.kind = .keyword k) (hstarts : startsDefinition storage.isSome k) :
    Meets { s with templateScope := note } (afterVisibility r visibility storage)
      (afterVisibility r visibility storage) (fun n t => t.InOrder ∧ n.Defines note.isSome)
      fun _ t => t.InOrder := by
  have hvisibility : Found (some visibility) := found_some.mpr hnode
  have hcurrent : (State.current { s with templateScope := note }).kind = .keyword k := hk
  unfold afterVisibility
  rw [meets_current, hcurrent]
  unfold startsDefinition at hstarts
  split at hstarts
  · exact meets_defining (defining_functionDef h.governs trivial hvisibility hstorage) note hs
  · exact meets_defining (defining_operatorDef h.governs trivial hvisibility hstorage) note hs
  · cases storage with
    | none => exact meets_defining (defining_classDef h.governs h.leaves trivial hvisibility) note hs
    | some storage => cases hstarts
  · cases storage with
    | none => exact meets_defining (defining_classDef h.governs h.leaves trivial hvisibility) note hs
    | some storage => cases hstarts
  · cases hstarts

theorem meets_visibleItem (h : r.Orderly) (note : Option ScopeId) (hs : s.InOrder)
    (hdefines : definesVisibly s.advance.words) :
    Meets { s with templateScope := note } (visibilityStatement r) (visibilityStatement r)
      (fun n t => t.InOrder ∧ n.Defines note.isSome) fun _ t => t.InOrder := by
  have hnode : (leaf .visibility s.current).InOrder := inOrder_leaf rfl _
  have ht := hs.advance
  obtain ⟨k, hk, hway⟩ := exists_of_definesVisibly hdefines
  unfold visibilityStatement
  rw [meets_advance, s.advance_withNote]
  generalize s.advance = t at hk hway ht
  have hcolon : outcome (eat (.punctuation .colon)) { t with templateScope := note } =
      (.ok none, { t with templateScope := note }) := by
    rw [outcome_eat, if_neg]
    change ¬ (t.current.kind == .punctuation .colon) = true
    rw [hk]
    exact Bool.false_ne_true
  have hhere := outcome_storageHere (s := { t with templateScope := note }) hk
  rw [meets_step hcolon hcolon]
  dsimp only
  rcases hway with ⟨hstorage, hstarts⟩ | ⟨hstorage, j, hj, hstarts⟩
  · rw [hstorage, if_neg Bool.false_ne_true] at hhere
    rw [meets_step hhere hhere]
    exact meets_afterVisibility h hnode found_none note ht hk hstarts
  · rw [if_pos hstorage, t.advance_withNote] at hhere
    rw [meets_step hhere hhere]
    have hstored : Found (some (leaf .storage t.current)) := found_some.mpr (inOrder_leaf rfl _)
    exact meets_afterVisibility h hnode hstored note ht.advance hj hstarts

/-- **The statement behind a header** is a definition in order. -/
theorem meets_item (h : r.Orderly) (outer : ScopeId) (hs : s.InOrder)
    (hkind : isTemplatable s.current.kind) (hopens : opensDefinition s.words) :
    Meets { s with templateScope := some outer } (statement r) (statement r)
      (fun found t => t.InOrder ∧ ∀ n ∈ found, n.Defines true)
      fun _ t => State.InOrder { t with templateScope := none } := by
  have hsome {p : Production Node} (hp : Meets { s with templateScope := some outer } p p
      (fun n t => t.InOrder ∧ n.Defines true) fun _ t => t.InOrder) :
      Meets { s with templateScope := some outer } (some <$> p) (some <$> p)
        (fun found t => t.InOrder ∧ ∀ n ∈ found, n.Defines true)
        fun _ t => State.InOrder { t with templateScope := none } :=
    .map (hp.mono (fun n t ht => ⟨ht.1, fun m hm => Option.some.inj hm ▸ ht.2⟩)
      fun _ _ ht => ht.withoutNote)
  have hcurrent : State.current { s with templateScope := some outer } = s.current := rfl
  unfold statement
  rw [meets_current, hcurrent]
  unfold isTemplatable at hkind
  split at hkind
  · rename_i k hk
    have hwords := words_advance_of_isAt (beq_iff_eq.mpr hk) Kind.noConfusion
    rw [hwords] at hopens
    rw [hk]
    split at hkind
    · exact hsome (meets_defining (defining_classDef h.governs h.leaves trivial found_none) _ hs)
    · exact hsome (meets_defining (defining_classDef h.governs h.leaves trivial found_none) _ hs)
    · have hlambda : lambdaAhead { s with templateScope := some outer } = false := by
        refine Bool.eq_false_iff.mpr fun hahead => ?_
        have hnext : s.advance.current.kind = .punctuation .lParen := by
          have heof : ¬ s.current.isEof := by
            unfold Token.isEof
            rw [hk]
            exact Bool.false_ne_true
          rw [State.advance, if_neg heof]
          exact beq_iff_eq.mp hahead
        unfold State.words at hopens
        rw [hnext] at hopens
        cases hopens
      change Meets _ (keywordStatement r .functionKw) (keywordStatement r .functionKw) _ _
      unfold keywordStatement
      dsimp only
      rw [meets_get, hlambda, if_neg Bool.false_ne_true]
      exact hsome (meets_defining
        (defining_functionDef h.governs trivial found_none found_none) _ hs)
    · exact hsome (meets_defining
        (defining_operatorDef h.governs trivial found_none found_none) _ hs)
    · change Meets _ (keywordStatement r k) (keywordStatement r k) _ _
      unfold keywordStatement
      split
      case h_14 =>
        rw [if_pos hkind]
        exact hsome (meets_visibleItem h (some outer) hs
          (definesVisibly_of_opensDefinition hkind hopens))
      all_goals exact absurd hkind (by decide)
  · cases hkind

/-! ### Circles -/

/-- **However many circles are left, what is read is in order.** -/
theorem orderly_rules (n : Nat) : (rules n).Orderly := by
  induction n with
  | zero =>
    exact
      { governs := Discipline.exhausted
        leaves := (framed_rules 0).leaves
        item := fun _ _ hs _ _ => .fail hs.withoutNote }
  | succ n ih =>
    exact
      { governs := ih.trains.succ
        leaves := (framed_rules (n + 1)).leaves
        item := fun _ outer hs hkind hopens => meets_item ih outer hs hkind hopens }

/-- At the start of a well-headed text the state is in order. -/
theorem State.inOrder_start {source : String} (config : ParseConfig)
    (hheaded : wellHeaded (SableFront.words (tokenize source))) :
    (State.start source config).InOrder := by
  have hwords : (State.start source config).words = SableFront.words (tokenize source) :=
    (Cursor.words_significant _).symm
  refine ⟨rfl, fun n hn => (Option.not_mem_none n hn).elim, Cursor.placed_significant _, ?_⟩
  rw [hwords]
  exact hheaded

end Grammar

open Grammar

/-- **Templates and only templates mark what they introduce.** In the tree of a well-headed text the
item of every template is a definition, and a class or function that introduces its name says that a
template introduces it if it is the item of a template, and otherwise that none does. -/
theorem templates_mark_definitions (source : String) (config : ParseConfig)
    (hheaded : wellHeaded (words (tokenize source))) :
    let nodes := (Program.parse source config).nodes
    (∀ n ∈ nodes, n.SaysTemplate false) ∧ ∀ n ∈ Node.walkAll nodes, n.KeepsTemplates := by
  intro nodes
  have hnodes : ∀ n ∈ nodes, n.InOrder :=
    ((orderly_rules (Program.circles source)).governs.items (w := .file) .file trivial
      (State.inOrder_start config hheaded)).2
  refine ⟨fun n hn => (hnodes n hn).plain, fun n hn => ?_⟩
  obtain ⟨top, htop, hbelow⟩ := Node.mem_walkAll_iff.mp hn
  exact (hnodes top htop).everywhere n hbelow

/-- Templates side by side, in each other, and with definitions that they do not introduce. -/
theorem templates_mark_nested_definitions :
    let source :=
      "template<T> public class A { template<U> function f(U x) { class B { } } } class C { }"
    let nodes := (Program.parse source .standard).nodes
    (Node.walkAll nodes).countP (·.form == .template) = 2 ∧
      (∀ n ∈ nodes, n.SaysTemplate false) ∧ ∀ n ∈ Node.walkAll nodes, n.KeepsTemplates :=
  ⟨by decide +kernel, templates_mark_definitions _ .standard (by decide +kernel)⟩

/-- The item of a template may be a label, and a class in a lambda behind a header says that a
template introduces it. -/
theorem template_takes_other_items :
    let label := "template<T> public;"
    let lambda := "template<T> function() { class A { } };"
    let nodes (source : String) : List Node := (Program.parse source .standard).nodes
    ((Program.parse label .standard).errors = [] ∧
      ¬ ∀ n ∈ Node.walkAll (nodes label), n.form = .template →
        n.children.getLast?.any Node.isDefinition) ∧
    ((Program.parse lambda .standard).errors = [] ∧
      ¬ ∀ n ∈ Node.walkAll (nodes lambda), n.KeepsTemplates) := by
  decide +kernel

end SableFront
