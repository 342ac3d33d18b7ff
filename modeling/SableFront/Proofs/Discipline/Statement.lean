import SableFront.Proofs.Discipline.Definition

/-!
# Disciplines: statements and lists

Declarations of values, imports, control flow and definitions keep to any discipline where the
current scope is open. A template may not, since what is asked of its item may depend on the header
before it: where it does (`Discipline.Trains`), all statements do, and lists of statements.
-/

namespace SableFront.Grammar

open Node
open Discipline (Reads Binds Builds)

variable {D : Discipline} {r : Rules} {w : Place} {name type value : Node} {storage : Option Node}
  {form : Form} {id : Option SymbolId} {s : State}

/-- With no circle left every production fails, and every list is empty. -/
theorem Discipline.exhausted : D.Governs exhausted :=
  { expression := fun _ => .fail _
    shift := fun _ => .fail _
    steps := fun _ => .fail _
    deref := fun _ => .fail _
    invert := fun _ => .fail _
    typeRef := fun _ => .fail _
    statement := fun _ => .fail _
    items := fun _ _ _ hs => ⟨hs, List.forall_mem_nil _⟩ }

/-- The rules keep to the discipline, and what is read at a template header does. -/
structure Discipline.Trains (D : Discipline) (r : Rules) : Prop extends D.Governs r where
  leaves : r.LeavesSymbols
  template ⦃w : Place⦄ ⦃s : State⦄ : D.Open w.scope → D.Holds w s →
    s.isAt (.keyword .templateKw) →
    Meets s (template r) (template r) (fun n t => D.Holds w t ∧ D.Value n) fun _ t => D.Holds w t

variable [D.Lawful]

/-! ### Variables and enumerators -/

theorem obeys_infer (hname : D.Value name) {id : SymbolId} (hid : D.Own id) (value : Node) :
    Preserves (D.Holds w) (infer id name value) D.Value := by
  unfold infer
  refine .getBind fun s hs => ?_
  split
  · dsimp only
    split
    · exact .pure hname
    · exact (Preserves.set (Binds.change _ hs hid)).bind fun _ _ =>
        .pure (Builds.bind _ hname)
  · exact .pure hname

theorem obeys_shareMembers (hid : ∀ i ∈ id, D.Own i) (members : Option ScopeId) :
    Preserves (D.Holds w) (shareMembers id members) fun _ => True := by
  unfold shareMembers
  split
  · exact .modify fun s hs => Binds.change _ hs (hid _ rfl)
  · exact .pure trivial

theorem obeys_initializer (h : D.Governs r) (htype : D.Typing type) (hname : D.Value name)
    (hid : ∀ i ∈ id, D.Own i) : Preserves (D.Holds w) (initializer r type name id) D.Value := by
  have hdeclared {found : Node} (hfound : D.Value found) :
      D.Value (branch (.identDef false) name.token [type, found]) :=
    Builds.typed rfl rfl htype (List.forall_mem_singleton.mpr hfound)
  unfold initializer
  dsimp only
  refine (Preserves.eat _).bind fun op _ => ?_
  cases op with
  | none => exact .pure (hdeclared hname)
  | some op =>
    refine (Discipline.operand (obeys_expression h)).bind fun value hvalue => ?_
    cases id with
    | none =>
      dsimp only
      rw [pure_bind]
      exact obeys_assignment (hdeclared hname) hvalue op
    | some id =>
      exact (obeys_infer hname (hid id rfl) value).bind fun found hfound =>
        obeys_assignment (hdeclared hfound) hvalue op

theorem obeys_typedVariable (h : D.Governs r) (hw : D.Open w.scope) (htype : D.Typing type) :
    Preserves (D.Holds w) (typedVariable r type) D.Value := by
  unfold typedVariable
  refine Preserves.expectIdent.bind fun ident _ => .getBind fun s hs => ?_
  dsimp only
  refine (obeys_declare (Discipline.name _ _) _ (Binds.here hs hw) _).bind fun found hfound => ?_
  exact (obeys_shareMembers hfound.2 _).bind fun _ _ =>
    obeys_initializer h htype hfound.1 hfound.2

theorem obeys_declaration (h : D.Governs r) (hw : D.Open w.scope) (hstorage : D.Found storage) :
    Preserves (D.Holds w) (declaration r storage) D.Found := by
  unfold declaration
  refine (obeys_typeRef h hstorage).bind fun found hfound => ?_
  cases found with
  | none => exact .pure found_none
  | some type =>
    refine (Preserves.isAt _).bind fun here _ => ?_
    split
    · exact (obeys_typedVariable h hw (hfound type rfl)).found
    · split
      · exact .fail _
      · exact .pure found_none

theorem obeys_enumerator (h : D.Governs r) (hw : D.Open w.scope) :
    Preserves (D.Holds w) (enumerator r) D.Found := by
  have hcomma {node : Node} (hnode : D.Value node) :
      Preserves (D.Holds w) (eat (.punctuation .comma) >>= fun _ => pure (some node)) D.Found :=
    (Preserves.eat _).bind fun _ _ => .pure (found_some.mpr hnode)
  unfold enumerator
  refine Preserves.expectIdent.bind fun ident _ => .getBind fun s hs => ?_
  dsimp only
  refine (obeys_declare (Discipline.name _ _) _ (Binds.here hs hw) _).bind fun found hfound => ?_
  refine (Preserves.eat _).bind fun op _ => ?_
  cases op with
  | some op =>
    refine (Discipline.operand (obeys_expression h)).bind fun value hvalue => ?_
    exact (obeys_assignment hfound.1 hvalue op).bind fun node hnode => hcomma hnode
  | none =>
    dsimp only
    rw [pure_bind]
    exact hcomma hfound.1

/-! ### Imports -/

theorem obeys_importName (hw : D.Open w.scope) (hname : D.Value name) :
    Preserves (D.Holds w) (importName name) D.Value := by
  unfold importName
  refine .getBind fun s hs => ?_
  exact (Preserves.set (Binds.insert _ hs hw).1).bind fun _ _ =>
    .pure (Discipline.declared (Discipline.attach hname _ _ _))

theorem obeys_importAlias (hw : D.Open w.scope) :
    Preserves (D.Holds w) importAlias fun found => ∀ word ∈ found, D.Value word.2 := by
  unfold importAlias
  refine (Preserves.eat _).bind fun keyword _ => ?_
  cases keyword with
  | some keyword =>
    refine Preserves.expectIdent.bind fun ident _ => ?_
    refine (obeys_importName hw (Discipline.name _ _)).bind fun newName hnew =>
      .pure fun word hword => ?_
    cases hword
    exact hnew
  | none => exact .pure fun word hword => (Option.not_mem_none word hword).elim

theorem obeys_importItem (hw : D.Open w.scope) : Preserves (D.Holds w) importItem D.Value := by
  unfold importItem
  refine Preserves.expectIdent.bind fun ident _ => (obeys_importAlias hw).bind fun found hfound => ?_
  have hname : D.Value (.name ident.1 ident.2) := Discipline.name _ _
  cases found with
  | some word => exact .pure (Builds.plain rfl (forall_mem_pair hname (hfound word rfl)))
  | none =>
    exact (obeys_importName hw hname).bind fun newName hnew =>
      .pure (Builds.plain rfl (List.forall_mem_singleton.mpr hnew))

theorem obeys_pathSegments (rounds : Nat) :
    Preserves (D.Holds w) (pathSegments rounds) fun segments => ∀ n ∈ segments, D.Value n := by
  unfold pathSegments
  refine Preserves.loop (Q := fun segments => ∀ n ∈ segments, D.Value n)
    (fun segments hsegments => ?_) rounds (List.forall_mem_nil _)
  refine Preserves.expectIdent.bind fun ident _ => (Preserves.eat _).bind fun dot _ => ?_
  have hmore : ∀ n ∈ segments ++ [(Node.name ident.1 ident.2).withRole .path], D.Value n :=
    forall_mem_concat hsegments (Discipline.withRole (Discipline.name _ _) _)
  cases dot with
  | some dot => exact .pure hmore
  | none => exact .pure hmore

theorem obeys_pathOf {segments : List Node} (h : ∀ n ∈ segments, D.Value n) :
    Preserves (D.Holds w) (pathOf segments) D.Value := by
  unfold pathOf
  split
  · exact .fail _
  · exact .pure (List.forall_mem_singleton.mp h)
  · exact .pure (Builds.plain rfl h)

theorem obeys_importModule (hw : D.Open w.scope) {segments : List Node}
    (h : ∀ n ∈ segments, D.Value n) :
    Preserves (D.Holds w) (importModule segments) D.Value := by
  unfold importModule
  split
  · rename_i last hlast
    refine (obeys_importName hw (h last (List.mem_of_getLast? hlast))).bind fun found hfound => ?_
    exact obeys_pathOf (forall_mem_concat (fun n hn => h n (List.dropLast_subset _ hn)) hfound)
  · exact obeys_pathOf h

theorem obeys_importStatement (r : Rules) (hw : D.Open w.scope) :
    Preserves (D.Holds w) (importStatement r) D.Value := by
  unfold importStatement
  refine Preserves.advance.bind fun keyword _ => ?_
  refine (obeys_pathSegments _).bind fun segments hsegments => ?_
  split
  · refine (Preserves.eat _).bind fun word _ => ?_
    cases word with
    | some word =>
      refine ((obeys_importItem hw).commaItems _).bind fun items hitems => ?_
      exact (obeys_pathOf hsegments).bind fun path hpath =>
        .pure (Builds.plain rfl (List.forall_mem_cons.mpr ⟨hpath, hitems⟩))
    | none => exact .failFor _ _
  · refine (obeys_importAlias hw).bind fun found hfound => ?_
    cases found with
    | some word =>
      exact (obeys_pathOf hsegments).bind fun path hpath =>
        .pure (Builds.plain rfl (forall_mem_pair hpath (hfound word rfl)))
    | none =>
      exact (obeys_importModule hw hsegments).bind fun path hpath =>
        .pure (Builds.plain rfl (List.forall_mem_singleton.mpr hpath))

/-! ### Statements at names -/

theorem obeys_unknownNameStatement (h : D.Governs r) :
    Preserves (D.Holds w) (unknownNameStatement r) D.Found := by
  unfold unknownNameStatement
  refine Preserves.advance.bind fun token _ => .getBind fun s hs => ?_
  refine (Preserves.set (Reads.stash hs (Discipline.bindName s token))).bind fun _ _ => ?_
  split
  · exact .throw _
  · exact obeys_expression h

theorem obeys_nameStatement (h : D.Governs r) (hw : D.Open w.scope) :
    Preserves (D.Holds w) (nameStatement r) D.Found := by
  unfold nameStatement
  refine .getBind fun s _ => ?_
  split
  · refine (Preserves.orRewind (obeys_declaration h hw found_none)).bind fun found hfound => ?_
    cases found with
    | some node => exact .pure hfound
    | none => exact obeys_expression h
  · split
    · exact obeys_unknownNameStatement h
    · exact obeys_expression h

/-! ### Control flow -/

theorem obeys_condition (h : D.Governs r) : Preserves (D.Holds w) (condition r) D.Value :=
  (obeys_expression h).require _

theorem obeys_guarded (h : D.Governs r) (keyword : Token) (hform : form.isPlain) :
    Preserves (D.Holds w) (guarded r form keyword) D.Value := by
  unfold guarded
  exact (obeys_condition h).bind fun condition hcondition => (obeys_body h).bind
    fun body hbody => .pure (Builds.plain hform (forall_mem_pair hcondition hbody))

theorem obeys_elifBranches (h : D.Governs r) {branches : List Node}
    (hbranches : ∀ n ∈ branches, D.Value n) :
    Preserves (D.Holds w) (elifBranches r branches) fun branches => ∀ n ∈ branches, D.Value n := by
  refine Preserves.loop (Q := fun branches => ∀ n ∈ branches, D.Value n)
    (fun branches hbranches => ?_) r.rounds hbranches
  refine (Preserves.eat _).bind fun keyword _ => ?_
  cases keyword with
  | some keyword =>
    exact (obeys_guarded h keyword rfl).bind fun branch hbranch =>
      .pure (forall_mem_concat hbranches hbranch)
  | none => exact .pure hbranches

theorem obeys_conditional (h : D.Governs r) : Preserves (D.Holds w) (conditional r) D.Value := by
  unfold conditional
  refine Preserves.advance.bind fun keyword _ => (obeys_guarded h keyword rfl).bind
    fun first hfirst => ?_
  refine (obeys_elifBranches h (List.forall_mem_singleton.mpr hfirst)).bind
    fun branches hbranches => (Preserves.eat _).bind fun word _ => ?_
  cases word with
  | some word =>
    refine (obeys_body h).bind fun body hbody => .pure (Builds.plain rfl ?_)
    have helse : D.Value (branch .elseBranch word [body]) :=
      Builds.plain rfl (List.forall_mem_singleton.mpr hbody)
    exact forall_mem_concat hbranches helse
  | none => exact .pure (Builds.plain rfl hbranches)

theorem obeys_whileLoop (h : D.Governs r) : Preserves (D.Holds w) (whileLoop r) D.Value := by
  unfold whileLoop
  exact Preserves.advance.bind fun keyword _ => obeys_guarded h keyword rfl

theorem obeys_doWhile (h : D.Governs r) : Preserves (D.Holds w) (doWhile r) D.Value := by
  unfold doWhile
  refine Preserves.advance.bind fun keyword _ => (obeys_body h).bind fun body hbody => ?_
  refine (Preserves.eat _).bind fun word _ => ?_
  cases word with
  | some word =>
    exact (obeys_condition h).bind fun condition hcondition =>
      .pure (Builds.plain rfl (forall_mem_pair hbody hcondition))
  | none => exact .fail _

theorem obeys_forStart (h : D.Governs r) (hw : D.Open w.scope) :
    Preserves (D.Holds w) (forStart r) D.Found := by
  unfold forStart
  refine (Preserves.isAt _).bind fun bare _ => ?_
  split
  · exact .pure found_none
  · refine (Preserves.isAt _).bind fun name _ => ?_
    split
    · exact obeys_nameStatement h hw
    · exact obeys_expression h

/-- The form of a loop and its parts, which are as it is asked of values. -/
def LoopParts (D : Discipline) (found : Form × List Node) : Prop :=
  found.1.isPlain ∧ ∀ n ∈ found.2, D.Value n

theorem obeys_forHeader (h : D.Governs r) (hw : D.Open w.scope) :
    Preserves (D.Holds w) (forHeader r) (LoopParts D) := by
  unfold forHeader
  refine (obeys_forStart h hw).bind fun start hstart => .getBind fun s _ => ?_
  split
  · rename_i binding hbinding
    obtain ⟨rfl, -⟩ := Option.filter_eq_some_iff.mp hbinding
    refine Preserves.advance.bind fun colon _ => ?_
    refine ((h.expression _).require _).bind fun value hvalue => ?_
    exact .pure ⟨rfl, forall_mem_pair (found_some.mp hstart) hvalue⟩
  · refine (Preserves.expect _ _).bind fun _ _ => (obeys_expression h).bind
      fun condition hcondition => ?_
    refine (Preserves.expect _ _).bind fun _ _ => (obeys_expression h).bind fun step hstep => ?_
    have hbefore : ∀ n ∈ start.toList ++ condition.toList, D.Value n :=
      List.forall_mem_append.mpr ⟨forall_mem_toList.mpr hstart, forall_mem_toList.mpr hcondition⟩
    exact .pure ⟨rfl, List.forall_mem_append.mpr ⟨hbefore, forall_mem_toList.mpr hstep⟩⟩

theorem obeys_forRest (h : D.Governs r) (hw : D.Open w.scope) :
    Preserves (D.Holds w) (forRest r) fun found => LoopParts D found.1 ∧ D.Value found.2 := by
  unfold forRest
  refine (Preserves.eat _).bind fun paren _ => (obeys_forHeader h hw).bind fun header hheader => ?_
  have hbody : Preserves (D.Holds w) (body r >>= fun body => pure (header, body))
      fun found => LoopParts D found.1 ∧ D.Value found.2 :=
    (obeys_body h).bind fun body hbody => .pure ⟨hheader, hbody⟩
  dsimp only
  split
  · exact (Preserves.expect _ _).bind fun _ _ => hbody
  · exact hbody

theorem obeys_forLoop (h : D.Governs r) : Preserves (D.Holds w) (forLoop r) D.Value := by
  unfold forLoop
  refine Preserves.advance.bind fun keyword _ => ?_
  exact (obeys_inNewScope fun _ hopen => obeys_forRest h hopen).bind fun found hfound =>
    .pure (Builds.plain hfound.1.1 (forall_mem_concat hfound.1.2 hfound.2))

theorem obeys_returnStatement (h : D.Governs r) :
    Preserves (D.Holds w) (returnStatement r) D.Value := by
  unfold returnStatement
  refine Preserves.advance.bind fun keyword _ => .getBind fun s _ => ?_
  dsimp only
  refine .iteBind (.pure found_none) (obeys_expression h) fun value hvalue => ?_
  exact .pure (Builds.plain rfl (forall_mem_toList.mpr hvalue))

theorem obeys_delete (h : D.Governs r) : Preserves (D.Holds w) (delete r) D.Value := by
  unfold delete
  exact Preserves.advance.bind fun keyword _ => ((obeys_expression h).require _).bind
    fun value hvalue => .pure (Builds.plain rfl (List.forall_mem_singleton.mpr hvalue))

/-! ### Keywords as nodes -/

theorem obeys_storageNode : Preserves (D.Holds w) storageNode D.Value := by
  unfold storageNode
  exact Preserves.advance.bind fun token _ => .pure (Discipline.leaf rfl token)

theorem obeys_storageHere : Preserves (D.Holds w) storageHere D.Found := by
  unfold storageHere
  refine Preserves.current.bind fun token _ => ?_
  split
  · split
    · exact obeys_storageNode.found
    · exact .pure found_none
  · exact .pure found_none

/-! ### Storage and visibility -/

theorem obeys_afterStorage (h : D.Trains r) (hw : D.Open w.scope) (hnode : D.Value node) :
    Preserves (D.Holds w) (afterStorage r node) D.Value := by
  have hstorage : D.Found (some node) := found_some.mpr hnode
  unfold afterStorage
  refine Preserves.current.bind fun token _ => ?_
  split
  · exact (defining_functionDef h.toGoverns hw found_none hstorage).obeys
  · exact (defining_operatorDef h.toGoverns hw found_none hstorage).obeys
  · exact (obeys_declaration h.toGoverns hw hstorage).require _

theorem obeys_afterVisibility (h : D.Trains r) (hw : D.Open w.scope) (hnode : D.Value visibility)
    (hstorage : D.Found storage) :
    Preserves (D.Holds w) (afterVisibility r visibility storage) D.Value := by
  have hvisibility : D.Found (some visibility) := found_some.mpr hnode
  unfold afterVisibility
  refine Preserves.current.bind fun token _ => ?_
  split
  · exact (defining_classDef h.toGoverns h.leaves hw hvisibility).obeys
  · exact (defining_classDef h.toGoverns h.leaves hw hvisibility).obeys
  · exact (defining_functionDef h.toGoverns hw hvisibility hstorage).obeys
  · exact (defining_operatorDef h.toGoverns hw hvisibility hstorage).obeys
  · exact .pure hnode
  · exact (obeys_afterStorage h hw (found_some.mp hstorage)).bind fun n hn =>
      .pure (Discipline.markFirst hn _)

theorem obeys_visibilityStatement (h : D.Trains r) (hw : D.Open w.scope) :
    Preserves (D.Holds w) (visibilityStatement r) D.Value := by
  unfold visibilityStatement
  refine Preserves.advance.bind fun keyword _ => (Preserves.eat _).bind fun colon _ => ?_
  cases colon with
  | some colon => exact .pure (Discipline.leaf rfl keyword)
  | none =>
    exact obeys_storageHere.bind fun storage hstorage =>
      obeys_afterVisibility h hw (Discipline.leaf rfl keyword) hstorage

/-! ### Statements -/

theorem obeys_keywordStatement (h : D.Trains r) (hw : D.Open w.scope) (hs : D.Holds w s)
    {k : Keyword} (hk : s.current.kind = .keyword k) :
    Meets s (keywordStatement r k) (keywordStatement r k)
      (fun found t => D.Holds w t ∧ D.Found found) fun _ t => D.Holds w t := by
  unfold keywordStatement
  split
  · exact (obeys_conditional h.toGoverns).found hs
  · exact (obeys_whileLoop h.toGoverns).found hs
  · exact (obeys_doWhile h.toGoverns).found hs
  · exact (obeys_forLoop h.toGoverns).found hs
  · exact (obeys_returnStatement h.toGoverns).found hs
  · exact (obeys_delete h.toGoverns).found hs
  · exact (obeys_importStatement r hw).found hs
  · exact (obeys_importStatement r hw).found hs
  · exact (defining_classDef h.toGoverns h.leaves hw found_none).obeys.found hs
  · exact (defining_classDef h.toGoverns h.leaves hw found_none).obeys.found hs
  · rw [meets_get]
    split
    · exact obeys_expression h.toGoverns hs
    · exact (defining_functionDef h.toGoverns hw found_none found_none).obeys.found hs
  · exact (defining_operatorDef h.toGoverns hw found_none found_none).obeys.found hs
  · have hat : s.isAt (.keyword .templateKw) := beq_iff_eq.mpr hk
    exact .map ((h.template hw hs hat).weaken fun _ _ ht => ⟨ht.1, found_some.mpr ht.2⟩)
  · split
    · exact (obeys_visibilityStatement h hw).found hs
    · split
      · exact obeys_nameStatement h.toGoverns hw hs
      · split
        · exact (obeys_storageNode.bind fun node hnode => obeys_afterStorage h hw hnode).found hs
        · exact obeys_expression h.toGoverns hs

/-- **Statements** are as it is asked of values. -/
theorem obeys_statement (h : D.Trains r) (hw : D.Open w.scope) :
    Preserves (D.Holds w) (statement r) D.Found := by
  intro s hs
  unfold statement
  rw [meets_current]
  split
  · rename_i k hk
    exact obeys_keywordStatement h hw hs hk
  · exact (obeys_block h.toGoverns Discipline.enters_push _).found hs
  · exact obeys_nameStatement h.toGoverns hw hs
  · exact obeys_expression h.toGoverns hs

/-! ### Lists -/

namespace Discipline

variable {node : Node} {t : State}

theorem forall_ofComment (ts : List Token) : ∀ n ∈ ts.map Node.ofComment, D.Value n := by
  intro n hn
  obtain ⟨t, -, rfl⟩ := List.mem_map.mp hn
  exact ofComment t

theorem finishItem (hs : D.Holds w s) (hnode : D.Value node) (start : Nat) (leading : List Token) :
    D.Holds w (finishItem start leading node s).2 ∧ D.Value (finishItem start leading node s).1 := by
  have hover : D.Holds w (stepOver start s) := by
    unfold stepOver
    split
    · exact hs
    · exact Invariant.advance (Invariant.record _ hs)
  unfold Grammar.finishItem
  dsimp only
  split
  · exact ⟨Reads.comments _ (Invariant.advance hover), Builds.congr hnode rfl rfl⟩
  · exact ⟨Reads.comments _ hover, Builds.congr hnode rfl rfl⟩

/-- After an error the scope is current again that the item stood in. -/
theorem recover (ht : D.Holds w t) (hs : D.Holds w s) (e : SyntaxError) :
    D.Holds w (recover e t.symbols.current s).2 ∧
      ∀ n ∈ (recover e t.symbols.current s).1, D.Value n := by
  have hscope : D.Holds w
      { s.record e with symbols := (s.record e).symbols.enter t.symbols.current } :=
    Binds.back ht (Invariant.record e hs)
  have hclear : D.Holds w
      { s.record e with
        symbols := (s.record e).symbols.enter t.symbols.current
        templateScope := none } :=
    Reads.withoutNote hscope
  unfold Grammar.recover
  dsimp only
  split
  · rename_i name hname
    exact ⟨Reads.idle hclear, List.forall_mem_singleton.mpr (Reads.waiting hclear name hname)⟩
  · split
    · exact ⟨hclear, List.forall_mem_nil _⟩
    · exact ⟨Invariant.advance hclear, List.forall_mem_nil _⟩

theorem item {context : Context}
    (hr : ∀ s, Preserves (D.Holds w) (itemProduction r context s) D.Found) (hs : D.Holds w s) :
    D.Holds w (item r context s).2 ∧ ∀ n ∈ (item r context s).1, D.Value n := by
  rcases hlead : leadingComments s with ⟨leading, nodes⟩
  have hnodes : ∀ n ∈ nodes, D.Value n := by
    unfold leadingComments at hlead
    split at hlead
    · cases hlead
      exact List.forall_mem_nil _
    · cases hlead
      exact forall_ofComment _
  have halone : ∀ n ∈ nodes ++ leading.map Node.ofComment, D.Value n :=
    List.forall_mem_append.mpr ⟨hnodes, forall_ofComment leading⟩
  unfold Grammar.item
  rw [hlead]
  dsimp only
  rcases hr s (Reads.comments [] hs) with ⟨found, t, hp, -, ht⟩ | ⟨e, t, hp, -, ht⟩
  all_goals
    change (itemProduction r context s).run { s with comments := [] } = _ at hp
    rw [hp]
  · cases found with
    | some node =>
      obtain ⟨hafter, hnode⟩ := finishItem ht.1 (found_some.mp ht.2) s.current.offset leading
      exact ⟨hafter, forall_mem_concat hnodes hnode⟩
    | none => exact ⟨Invariant.advance (Invariant.record _ ht.1), halone⟩
  · obtain ⟨hafter, hrest⟩ := recover hs ht e
    exact ⟨hafter, List.forall_mem_append.mpr ⟨halone, hrest⟩⟩

theorem skipSemicolons (hs : D.Holds w s) (n : Nat) : D.Holds w (skipSemicolons n s) := by
  induction n generalizing s with
  | zero => exact hs
  | succ n ih =>
    unfold Grammar.skipSemicolons
    split
    · exact ih (Invariant.advance hs)
    · exact hs

/-- **Lists of statements** keep to the discipline if their items do. -/
theorem itemsAfter {context : Context}
    (hr : ∀ s, Preserves (D.Holds w) (itemProduction r context s) D.Found) (hs : D.Holds w s)
    (rounds : Nat) {nodes : List Node} (hnodes : ∀ n ∈ nodes, D.Value n) :
    D.Holds w (itemsAfter r context rounds nodes s).2 ∧
      ∀ n ∈ (itemsAfter r context rounds nodes s).1, D.Value n := by
  induction rounds generalizing s nodes with
  | zero => exact ⟨hs, hnodes⟩
  | succ rounds ih =>
    have hskip := skipSemicolons hs r.rounds
    unfold Grammar.itemsAfter
    dsimp only
    generalize Grammar.skipSemicolons r.rounds s = t at hskip ⊢
    split
    · exact ⟨Reads.comments _ hskip, List.forall_mem_append.mpr ⟨hnodes, forall_ofComment _⟩⟩
    · obtain ⟨hafter, hfound⟩ := item hr hskip
      exact ih hafter (List.forall_mem_append.mpr ⟨hnodes, hfound⟩)

/-- An item is a statement or an enumerator. -/
theorem itemProduction (h : D.Trains r) (hw : D.Open w.scope) (context : Context) (s : State) :
    Preserves (D.Holds w) (itemProduction r context s) D.Found := by
  unfold Grammar.itemProduction
  split
  · exact obeys_enumerator h.toGoverns hw
  · exact obeys_statement h hw

/-- **With one circle more the rules keep to the discipline.** -/
theorem Trains.succ {n : Nat} (h : D.Trains (rules n)) : D.Governs (rules (n + 1)) :=
  { expression := fun _ => obeys_expression h.toGoverns
    shift := fun _ => obeys_shift h.toGoverns
    steps := fun _ => obeys_steps h.toGoverns
    deref := fun _ => obeys_deref h.toGoverns
    invert := fun _ => obeys_invert h.toGoverns
    typeRef := fun _ => obeys_typeRef h.toGoverns found_none
    statement := fun hw => obeys_statement h hw
    items := fun context hw _ hs =>
      itemsAfter (itemProduction h hw context) hs (rules n).rounds (List.forall_mem_nil _) }

end Discipline

end SableFront.Grammar
