import SableFront.Program
import SableFront.Proofs.Typing.Definition

/-!
# Typing: statements

Statements and lists of statements hand on settled trees, and so does the reading of a text however
many circles are left (`keeps_rules`). A name that waits when a statement is given up is settled,
too, so it may become a node.
-/

namespace SableFront

namespace Grammar

open Node

namespace Typing

variable {fluid : String → Prop} {r : Rules} {base : SymbolTable} {ns : List Node} {s : State}
  {node : Node}

/-! ### Statements at names -/

theorem yields_unknownNameStatement (h : Keeps fluid r) :
    Yields fluid (unknownNameStatement r) Option.toList := by
  intro base s hs
  have hnamed : Has fluid base [s.advance.bindName s.current] s.advance :=
    hs.advance.bindName rfl s.current
  unfold unknownNameStatement
  rw [meets_advance, meets_get]
  dsimp only
  rw [meets_set]
  split
  · exact .throw hnamed.stash
  · exact takes_expression h hnamed.stash

theorem yields_nameStatement (h : Keeps fluid r) :
    Yields fluid (nameStatement r) Option.toList := by
  intro base s hs
  have hexpression := (takes_expression h).yields
  unfold nameStatement
  rw [meets_get]
  split
  · refine (Yields.orRewind (turns_declaration h none) rfl hs).bind fun found t ht => ?_
    cases found with
    | some node => exact .pure ht
    | none => exact hexpression ht
  · split
    · exact yields_unknownNameStatement h hs
    · exact hexpression hs

/-! ### Control flow -/

theorem yields_condition (h : Keeps fluid r) : Yields fluid (condition r) List.singleton :=
  (takes_expression h).yields.require _

theorem yields_guarded (h : Keeps fluid r) {form : Form} (hform : form.isBare) (keyword : Token) :
    Yields fluid (guarded r form keyword) List.singleton := by
  intro base s hs
  unfold guarded
  refine (yields_condition h hs).bind fun condition t ht => ?_
  exact (Turns.beside (yields_body h) ht (List.nil_subset _)).bind fun body u hu =>
    .pure (hu.build hform (List.Subset.refl _) _ _ _)

theorem turns_elifBranches (h : Keeps fluid r) (branches : List Node) :
    Turns fluid branches (elifBranches r branches) fun branches => branches := by
  refine Turns.loop (fun branches => branches) (fun branches base s hs => ?_) r.rounds branches
  refine (hs.eat _).bind fun keyword t ht => ?_
  cases keyword with
  | some keyword =>
    exact (Turns.beside (yields_guarded h rfl keyword) ht (List.nil_subset _)).bind
      fun branch u hu => .pure hu
  | none => exact .pure ht

theorem yields_conditional (h : Keeps fluid r) : Yields fluid (conditional r) List.singleton := by
  intro base s hs
  unfold conditional
  rw [meets_advance]
  refine (yields_guarded h rfl _ hs.advance).bind fun first t ht => ?_
  refine (turns_elifBranches h [first] ht).bind fun branches u hu => ?_
  refine (hu.eat _).bind fun word v hv => ?_
  cases word with
  | some word =>
    refine (Turns.beside (yields_body h) hv (List.nil_subset _)).bind fun body w hw => .pure ?_
    have hbody : body ∈ branches ++ List.singleton body := by simp [List.singleton]
    have helse : (Node.branch .elseBranch word [body]).Settled fluid w.symbols [] :=
      settled_of_children trivial (List.forall_mem_singleton.mpr (hw.settled hbody))
    exact (hw.push helse).branch rfl (by simp) _
  | none => exact .pure (hv.branch rfl (List.Subset.refl _) _)

theorem yields_whileLoop (h : Keeps fluid r) : Yields fluid (whileLoop r) List.singleton := by
  intro base s hs
  unfold whileLoop
  rw [meets_advance]
  exact yields_guarded h rfl _ hs.advance

theorem yields_doWhile (h : Keeps fluid r) : Yields fluid (doWhile r) List.singleton := by
  intro base s hs
  unfold doWhile
  rw [meets_advance]
  refine (yields_body h hs.advance).bind fun body t ht => (ht.eat _).bind fun word u hu => ?_
  cases word with
  | some word =>
    exact (Turns.beside (yields_condition h) hu (List.nil_subset _)).bind fun condition v hv =>
      .pure (hv.build rfl (List.Subset.refl _) _ _ _)
  | none => exact .fail hu.fails

theorem yields_forStart (h : Keeps fluid r) : Yields fluid (forStart r) Option.toList := by
  intro base s hs
  unfold forStart
  rw [meets_isAt]
  split
  · exact .pure hs
  · rw [meets_isAt]
    split
    · exact yields_nameStatement h hs
    · exact (takes_expression h).yields hs

/-- The parts of the header are in hand, and its form holds no type. -/
theorem Has.forHeader (hs : Has fluid base [] s) (h : Keeps fluid r) :
    Meets s (forHeader r) (forHeader r)
      (fun found t => Has fluid base found.2 t ∧ found.1.isBare) (Fails fluid base) := by
  have hexpression := (takes_expression h).yields
  unfold Grammar.forHeader
  refine (yields_forStart h hs).bind fun start t ht => ?_
  rw [meets_get]
  split
  · rename_i binding hbinding
    obtain ⟨rfl, -⟩ := Option.filter_eq_some_iff.mp hbinding
    rw [meets_advance]
    exact (Turns.beside (h.expression.require _) ht.advance (List.nil_subset _)).bind
      fun items u hu => .pure ⟨hu, rfl⟩
  · refine (ht.expect _ _).bind fun _ u hu => ?_
    refine (Turns.beside hexpression hu (List.nil_subset _)).bind fun condition v hv => ?_
    refine (hv.expect _ _).bind fun _ w hw => ?_
    exact (Turns.beside hexpression hw (List.nil_subset _)).bind fun step x hx => .pure ⟨hx, rfl⟩

theorem Has.forRest (hs : Has fluid base [] s) (h : Keeps fluid r) :
    Meets s (forRest r) (forRest r)
      (fun found t => Has fluid base (found.1.2 ++ [found.2]) t ∧ found.1.1.isBare)
      (Fails fluid base) := by
  unfold Grammar.forRest
  refine (hs.eat _).bind fun paren t ht => (ht.forHeader h).bind fun header u hu => ?_
  have hbody {v : State} (hv : Has fluid base header.2 v) :
      Meets v (body r >>= fun body => pure (header, body)) (body r >>= fun body => pure (header, body))
        (fun found t => Has fluid base (found.1.2 ++ [found.2]) t ∧ found.1.1.isBare)
        (Fails fluid base) :=
    (Turns.beside (yields_body h) hv (List.nil_subset _)).bind fun body w hw => .pure ⟨hw, hu.2⟩
  dsimp only
  split
  · exact (hu.1.expect _ _).bind fun close v hv => hbody hv
  · exact hbody hu.1

theorem yields_forLoop (h : Keeps fluid r) : Yields fluid (forLoop r) List.singleton := by
  intro base s hs
  unfold forLoop
  rw [meets_advance]
  have hentered : Has fluid base [] { s.advance with symbols := s.advance.symbols.push } :=
    hs.advance.withSymbols (hs.advance.kept.labelled.newScope none) hs.advance.kept.typed (.refl _)
  have hrest : Meets s.advance (inNewScope (forRest r)) (inNewScope (forRest r))
      (fun found t => Has fluid base (found.1.2 ++ [found.2]) t ∧ found.1.1.isBare)
      (Fails fluid base) :=
    .inScope ((hentered.forRest h).mono (fun _ t ht => ⟨⟨ht.1.kept.enter _, ht.1.idle⟩, ht.2⟩)
      fun _ t ht => Kept.enter ht _)
  exact hrest.bind fun found t ht => .pure (ht.1.build ht.2 (List.Subset.refl _) _ _ _)

theorem yields_returnStatement (h : Keeps fluid r) :
    Yields fluid (returnStatement r) List.singleton := by
  intro base s hs
  unfold returnStatement
  rw [meets_advance, meets_get]
  dsimp only
  split
  · rw [meets_pure_bind]
    exact .pure (hs.advance.branch rfl (List.nil_subset _) _)
  · exact ((takes_expression h).yields hs.advance).bind fun value t ht =>
      .pure (ht.branch rfl (List.Subset.refl _) _)

theorem yields_delete (h : Keeps fluid r) : Yields fluid (delete r) List.singleton := by
  intro base s hs
  unfold delete
  rw [meets_advance]
  exact ((takes_expression h).yields.require _ hs.advance).bind fun value t ht =>
    .pure (ht.branch rfl (List.Subset.refl _) _)

/-! ### Storage and visibility -/

theorem turns_afterStorage (h : Keeps fluid r) (storage : Node) :
    Turns fluid [storage] (afterStorage r storage) List.singleton := by
  intro base s hs
  unfold afterStorage
  rw [meets_current]
  split
  · exact turns_functionDef h none (some storage) hs
  · exact turns_operatorDef h none (some storage) hs
  · exact (turns_declaration h (some storage)).require _ hs

theorem yields_storageNode : Yields fluid storageNode List.singleton := by
  intro base s hs
  unfold storageNode
  rw [meets_advance]
  exact .pure (hs.advance.branch rfl (List.nil_subset _) _)

theorem yields_storageHere : Yields fluid storageHere Option.toList := by
  intro base s hs
  unfold storageHere
  rw [meets_current]
  split
  · split
    · exact .map (yields_storageNode hs)
    · exact .pure hs
  · exact .pure hs

theorem turns_afterVisibility (h : Keeps fluid r) (visibility : Node) (storage : Option Node) :
    Turns fluid (visibility :: storage.toList) (afterVisibility r visibility storage)
      List.singleton := by
  intro base s hs
  unfold afterVisibility
  rw [meets_current]
  split
  · exact turns_classDef h (some visibility) hs
  · exact turns_classDef h (some visibility) hs
  · exact turns_functionDef h (some visibility) _ hs
  · exact turns_operatorDef h (some visibility) _ hs
  · exact .pure hs
  · refine (turns_afterStorage h _ (hs.subset (by simp))).bind fun node t ht => .pure ?_
    exact ht.only ((ht.settled List.mem_cons_self).markFirst _)

theorem yields_visibilityStatement (h : Keeps fluid r) :
    Yields fluid (visibilityStatement r) List.singleton := by
  intro base s hs
  have hvisibility : Has fluid base [.leaf .visibility s.current] s.advance :=
    hs.advance.branch rfl (List.nil_subset _) _
  unfold visibilityStatement
  rw [meets_advance]
  dsimp only
  refine (hvisibility.eat _).bind fun colon t ht => ?_
  cases colon with
  | some colon => exact .pure ht
  | none =>
    exact (Turns.beside yields_storageHere ht (List.nil_subset _)).bind fun storage u hu =>
      turns_afterVisibility h _ storage hu

/-! ### Statements -/

/-- Where a text may not have imports there is none. -/
theorem Has.fluid_of_import (hs : Has fluid base ns s)
    (hk : s.current.kind = .keyword .importKw ∨ s.current.kind = .keyword .fromKw) :
    ∀ name, fluid name := by
  refine hs.kept.fits.ahead.resolve_right fun hfree => ?_
  rw [State.words] at hfree
  rcases hk with hk | hk
  all_goals
    rw [hk] at hfree
    cases hfree

theorem meets_keywordStatement (h : Keeps fluid r) (hs : Has fluid base [] s) {k : Keyword}
    (hk : s.current.kind = .keyword k) :
    Meets s (keywordStatement r k) (keywordStatement r k)
      (fun found => Has fluid base found.toList) (Fails fluid base) := by
  have hexpression := (takes_expression h).yields
  unfold keywordStatement
  split
  · exact .map (yields_conditional h hs)
  · exact .map (yields_whileLoop h hs)
  · exact .map (yields_doWhile h hs)
  · exact .map (yields_forLoop h hs)
  · exact .map (yields_returnStatement h hs)
  · exact .map (yields_delete h hs)
  · exact .map (yields_importStatement r (hs.fluid_of_import (.inl hk)) hs)
  · exact .map (yields_importStatement r (hs.fluid_of_import (.inr hk)) hs)
  · exact .map (turns_classDef h none hs)
  · exact .map (turns_classDef h none hs)
  · rw [meets_get]
    split
    · exact hexpression hs
    · exact .map (turns_functionDef h none none hs)
  · exact .map (turns_operatorDef h none none hs)
  · exact .map (yields_template h hs)
  · split
    · exact .map (yields_visibilityStatement h hs)
    · split
      · exact yields_nameStatement h hs
      · split
        · exact .map ((yields_storageNode hs).bind fun storage t ht =>
            turns_afterStorage h storage ht)
        · exact hexpression hs

theorem yields_statement (h : Keeps fluid r) : Yields fluid (statement r) Option.toList := by
  intro base s hs
  unfold statement
  rw [meets_current]
  split
  · rename_i k hk
    exact meets_keywordStatement h hs hk
  · exact .map (yields_block h SymbolTable.opens_push .block hs)
  · exact yields_nameStatement h hs
  · exact (takes_expression h).yields hs

/-! ### Lists -/

theorem Has.withComments (h : Has fluid base ns s) (comments : List Token) :
    Has fluid base ns { s with comments } := h.congr rfl rfl rfl

theorem Has.stepOver (h : Has fluid base ns s) (start : Nat) :
    Has fluid base ns (stepOver start s) := by
  unfold Grammar.stepOver
  split
  · exact h
  · exact (h.record _).advance

/-- Comments do not matter. -/
theorem Has.finishItem (h : Has fluid base [node] s) (start : Nat) (leading : List Token) :
    Has fluid base [(finishItem start leading node s).1] (finishItem start leading node s).2 := by
  have hover := h.stepOver start
  have hattached {t : State} (ht : Has fluid base [node] t) (trailing comments : List Token) :
      Has fluid base [node.modify fun d => { d with leading, trailing }] { t with comments } := by
    have hnode : (node.modify fun d => { d with leading, trailing }).Settled fluid t.symbols [] :=
      (ht.settled List.mem_cons_self).congr rfl rfl
    exact (ht.only hnode).withComments comments
  unfold Grammar.finishItem
  dsimp only
  split
  · exact hattached hover.advance _ _
  · exact hattached hover _ _

theorem Kept.recover (h : Kept fluid base [] s) (e : SyntaxError) (scope : ScopeId) :
    Has fluid base (recover e scope s).1 (recover e scope s).2 := by
  have hclear : Kept fluid base []
      { s.record e with symbols := (s.record e).symbols.enter scope, templateScope := none } :=
    ((h.record e).enter scope).congr rfl rfl rfl
  unfold Grammar.recover
  dsimp only
  split
  · rename_i name hname
    exact hclear.unstash hname
  · rename_i hnone
    have hidle := hclear.has hnone
    split
    · exact hidle
    · exact hidle.advance

theorem yields_itemProduction (h : Keeps fluid r) (context : Context) (s : State) :
    Yields fluid (itemProduction r context s) Option.toList := by
  unfold itemProduction
  split
  · exact yields_enumerator h
  · exact yields_statement h

theorem Has.item (hs : Has fluid base ns s) (h : Keeps fluid r) (context : Context) :
    Has fluid base (ns ++ (item r context s).1) (item r context s).2 := by
  have hcomments (t : SymbolTable) (comments : List Token) :
      ∀ n ∈ comments.map ofComment, n.Settled fluid t [] := fun n hn => by
    obtain ⟨token, -, rfl⟩ := List.mem_map.mp hn
    exact settled_ofComment token
  rcases hlead : leadingComments s with ⟨leading, nodes⟩
  have hnodes (t : SymbolTable) : ∀ n ∈ nodes, n.Settled fluid t [] := by
    unfold leadingComments at hlead
    split at hlead
    · cases hlead
      exact List.forall_mem_nil _
    · cases hlead
      exact hcomments t _
  -- what an item adds to the hand is settled along with what was there
  have hadd {found more : List Node} {t : State} (ht : Has fluid s.symbols found t)
      (hmore : ∀ n ∈ more, n.Settled fluid t.symbols []) :
      Has fluid base (ns ++ (more ++ found)) t := by
    have hall := ht.kept.keep hs.kept
    refine ⟨{ hall with settled := fun n hn => ?_ }, ht.idle⟩
    rw [List.mem_append, List.mem_append] at hn
    rcases hn with hn | hn | hn
    · exact hall.settled n (List.mem_append_left _ hn)
    · exact hmore n hn
    · exact hall.settled n (List.mem_append_right _ hn)
  have halone (t : SymbolTable) : ∀ n ∈ nodes ++ leading.map ofComment, n.Settled fluid t [] :=
    List.forall_mem_append.mpr ⟨hnodes t, hcomments t leading⟩
  have hstart : Has fluid s.symbols [] { s with comments := [] } :=
    (hs.here.subset (List.nil_subset _)).withComments []
  unfold Grammar.item
  rw [hlead]
  dsimp only
  rcases yields_itemProduction h context s hstart with ⟨found, t, hp, -, ht⟩ | ⟨e, t, hp, -, ht⟩
  all_goals
    change (itemProduction r context s).run { s with comments := [] } = _ at hp
    rw [hp]
  · cases found with
    | some node => exact hadd (ht.finishItem s.current.offset leading) (hnodes _)
    | none =>
      have hnone := hadd (ht.record (t.error .incorrectToken none)).advance (halone _)
      rwa [Option.toList_none, List.append_nil] at hnone
  · exact hadd (Kept.recover ht e s.symbols.current) (halone _)

theorem Has.skipSemicolons (h : Has fluid base ns s) (n : Nat) :
    Has fluid base ns (skipSemicolons n s) := by
  induction n generalizing s with
  | zero => exact h
  | succ n ih =>
    unfold Grammar.skipSemicolons
    split
    · exact ih h.advance
    · exact h

/-- **Lists of statements** are settled. -/
theorem Has.itemsAfter (hs : Has fluid base ns s) (h : Keeps fluid r) (context : Context)
    (rounds : Nat) :
    Has fluid base (itemsAfter r context rounds ns s).1 (itemsAfter r context rounds ns s).2 := by
  induction rounds generalizing s ns with
  | zero => exact hs
  | succ rounds ih =>
    have hskip := hs.skipSemicolons r.rounds
    unfold Grammar.itemsAfter
    dsimp only
    generalize Grammar.skipSemicolons r.rounds s = t at hskip ⊢
    split
    · refine ⟨{ (hskip.withComments []).kept with
        settled := List.forall_mem_append.mpr ⟨hskip.kept.settled, fun n hn => ?_⟩ }, hskip.idle⟩
      obtain ⟨comment, -, rfl⟩ := List.mem_map.mp hn
      exact settled_ofComment comment
    · exact ih (hskip.item h context)

/-! ### Circles -/

/-- With no circle left every production fails, and every list is empty. -/
theorem keeps_exhausted (hoperators : ∀ o, fluid (operatorName o)) : Keeps fluid exhausted := by
  have hfail : Yields fluid (fail .unreachableState) Option.toList := fun _ _ hs => .fail hs.fails
  exact ⟨hoperators, hfail, hfail, hfail, hfail, hfail, hfail, hfail, fun _ _ _ hs => hs⟩

/-- **However many circles are left, what is read is settled.** -/
theorem keeps_rules (hoperators : ∀ o, fluid (operatorName o)) (n : Nat) :
    Keeps fluid (rules n) := by
  induction n with
  | zero => exact keeps_exhausted hoperators
  | succ n ih =>
    exact
      { operators := hoperators
        expression := (takes_expression ih).yields
        shift := (takes_shift ih).yields
        steps := (takes_steps ih).yields
        deref := (takes_deref ih).yields
        invert := (takes_invert ih).yields
        typeRef := turns_typeRef ih none
        statement := yields_statement ih
        items := fun context _ _ hs => hs.itemsAfter ih context (rules n).rounds }

/-- At the start of a text nothing is read, and the table is well typed. -/
theorem has_start {source : String} (config : ParseConfig)
    (hfree : (∀ name, fluid name) ∨ importFree (words (tokenize source))) :
    Has fluid .initial [] (State.start source config) := by
  have hsymbols : (State.start source config).symbols = .initial := by
    simp only [State.start, State.bump, State.unread]
  have hwords : (State.start source config).words = words (tokenize source) :=
    (Cursor.words_significant _).symm
  refine ⟨⟨?_, ?_, ⟨Cursor.placed_significant _, hwords ▸ hfree⟩, ?_, List.forall_mem_nil _,
    fun n hn => (Option.not_mem_none n hn).elim⟩, rfl⟩
  all_goals rw [hsymbols]
  · exact SymbolTable.Reached.initial.consistent.labelled
  · exact SymbolTable.wellTyped_initial
  · exact .refl _

/-- **The reading of a text** ends with a well-typed table in which all trees are settled. -/
theorem reading_settles (fluid : String → Prop) (source : String) (config : ParseConfig)
    (hoperators : ∀ o, fluid (operatorName o))
    (hfree : (∀ name, fluid name) ∨ importFree (words (tokenize source))) :
    let p := Program.parse source config
    p.symbols.WellTyped ∧ ∀ n ∈ p.nodes, n.Settled fluid p.symbols [] := by
  have hend := (keeps_rules hoperators (Program.circles source)).items .file
    (has_start config hfree)
  exact ⟨hend.kept.typed, hend.kept.settled⟩

end Typing

end Grammar

end SableFront
