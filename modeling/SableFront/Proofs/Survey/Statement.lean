import SableFront.Proofs.Survey.Definition

/-!
# Surveys: statements

Statements keep to every complete survey, provided that both kinds of attempt do: the ones at generic
arguments and the ones at declarations.
-/

namespace SableFront.Grammar

open Node

variable {L : Survey} {r : Rules} {before xs : List Piece} {s : State} {node : Node}
  {token keyword : Token} {form : Form} {e : SyntaxError}

/-! ### Keywords -/

theorem allows_of_kind {use : Use} {k : Kind} (hkind : s.current.kind = k) (hk : use.allows k) :
    use.allows s.current.kind := hkind ▸ hk

theorem shown_of_isStorage {k : Keyword} (h : k.isStorage) : Use.shown.allows (.keyword k) := by
  cases k <;> first | rfl | cases h

theorem shown_of_isVisibility {k : Keyword} (h : k.isVisibility) :
    Use.shown.allows (.keyword k) := by
  cases k <;> first | rfl | cases h

namespace Survey

/-- Attempts at declarations keep to the survey. -/
def KeepsDeclaring (L : Survey) (r : Rules) : Prop := L.Yields (orRewind (declaration r none)) maybe

/-- All circles and all attempts keep to the survey. -/
structure Whole (L : Survey) (r : Rules) : Prop extends Trusted L r where
  declaring : L.KeepsDeclaring r

/-- **Attempts at declarations** keep to the survey where reading may go back from where there is
none. -/
theorem Trusted.keepsDeclaring (h : L.Trusted r) {R : State → State → Prop} (hback : L.GoesBack R)
    (hread : ∀ ⦃before s⦄, L.Has before [] s →
      Meets s (declaration r none) (declaration r none) (fun found t => found = none → R s t)
        fun _ _ => True) : L.KeepsDeclaring r := by
  intro before s hs
  have hattempt ⦃before : List Piece⦄ (hs : L.Has before [] s) :
      Meets s (declaration r none) (declaration r none)
        (fun found t => found.elim (L.Left before t ∧ R s t) fun node => L.Has before (one node) t)
        (L.Fails before) := by
    refine ((meets_declaration h none hs).and (hread hs)).mono (fun found t ht => ?_)
      fun _ _ he => he.1
    cases found with
    | some node => exact ht.1
    | none => exact ⟨ht.1, ht.2 rfl⟩
  refine (meets_orRewind h.lawful hback hs hattempt).weaken fun found t ht => ?_
  cases found <;> exact ht

/-! ### Statements at names -/

theorem opens_unknownNameStatement (h : L.Trusted r) :
    L.Opens .name [] (unknownNameStatement r) maybe := by
  intro before s hs huse
  have hL := h.lawful
  unfold unknownNameStatement
  rw [meets_advance, meets_get]
  dsimp only
  rw [meets_set]
  have htoken : L.Has before ([] ++ [.token .name s.current]) s.advance := hs.advance hL huse
  have hwaits := Has.stash (htoken.bindName hL rfl) hL
  split
  · exact .throw ⟨hwaits.left hL, hs.fit_current hL⟩
  · exact takes_expression h.circle hwaits

theorem opens_nameStatement (h : L.Whole r) : L.Opens .name [] (nameStatement r) maybe := by
  intro before s hs huse
  have hexpression := (takes_expression h.circle).yields
  unfold nameStatement
  rw [meets_get]
  split
  · refine (h.declaring hs).bind fun found t ht => ?_
    cases found with
    | some node => exact .pure ht
    | none => exact hexpression ht
  · split
    · exact opens_unknownNameStatement h.toTrusted hs huse
    · exact hexpression hs

/-! ### Control flow -/

theorem yields_condition (h : L.Trusted r) : L.Yields (condition r) one :=
  Yields.require (takes_expression h.circle).yields h.lawful _

/-- A condition and a block behind their keyword, at which their node is anchored. -/
theorem Has.guarded (hs : L.Has before (xs ++ [.token .shown keyword]) s) (h : L.Trusted r)
    (hform : form.isSimple) (hshown : form.use? = some .shown) :
    Meets s (guarded r form keyword) (guarded r form keyword)
      (fun node t => L.Has before (xs ++ [.node node]) t ∧ node.token = keyword)
      (L.Fails before) := by
  have hL := h.lawful
  unfold Grammar.guarded
  refine ((yields_condition h).beside hL hs).bind fun condition t ht => ?_
  refine ((yields_body h.toKeeps).beside hL ht).bind fun body u hu => .pure ⟨?_, rfl⟩
  have hall : L.Has before (xs ++ [.token .shown keyword, .node condition, .node body]) u := by
    simpa [one] using hu
  exact (hall.putDown.build hL (.of_token hform hshown (by simp) (List.forall_mem_nil _)
    (by simp [hshown])) rfl (.ends (by simp) (by simp) (by simp))).pickUp hall.bare_left

/-- The first branch stays the first one. -/
theorem Has.elifBranches {first : Node} {branches : List Node}
    (hs : L.Has before (branches.map .node) s) (h : L.Trusted r) (hfirst : first ∈ branches) :
    Meets s (elifBranches r branches) (elifBranches r branches)
      (fun branches t => L.Has before (branches.map .node) t ∧ first ∈ branches)
      (L.Fails before) := by
  have hL := h.lawful
  refine meets_loop (P := fun branches t => L.Has before (branches.map .node) t ∧ first ∈ branches)
    (fun branches t ht => ?_) (fun branches t ht => ht.1.fails hL _ _) _ _ ⟨hs, hfirst⟩
  refine (ht.1.eat hL .shown rfl).bind fun word u hu => ?_
  cases word with
  | some word =>
    refine (Has.guarded hu h rfl rfl).bind fun branch v hv => .pure ⟨?_, by simp [ht.2]⟩
    rw [List.map_append]
    exact hv.1
  | none => exact .pure ⟨by simpa using hu, ht.2⟩

theorem opens_conditional (h : L.Trusted r) : L.Opens .shown [] (conditional r) one := by
  intro before s hs huse
  have hL := h.lawful
  unfold conditional
  rw [meets_advance]
  refine (Has.guarded (hs.advance hL huse) h rfl rfl).bind fun first t ht => ?_
  obtain ⟨ht, htoken⟩ := ht
  have hbranches : L.Has before ([first].map .node) t := ht
  refine (hbranches.elifBranches h List.mem_cons_self).bind fun branches u hu => ?_
  obtain ⟨hu, hfirst⟩ := hu
  have hanchor (ps : List Piece) : s.current ∈ Piece.anchors (branches.map .node ++ ps) :=
    Piece.mem_anchors.mpr (.inr ⟨first, by simp [hfirst], htoken⟩)
  refine (hu.eat hL .shown rfl).bind fun word v hv => ?_
  cases word with
  | some word =>
    refine ((yields_body h.toKeeps).beside hL hv).bind fun body w hw => .pure ?_
    have hall : L.Has before (branches.map .node ++ [.token .shown word, .node body]) w := by
      simpa [one] using hw
    have helse : L.Has before (branches.map .node ++ [.node (.branch .elseBranch word [body])]) w :=
      (hall.putDown.branch hL (.of_token rfl rfl (by simp) (List.forall_mem_nil _)
        (by simp [Form.use?])) rfl).pickUp hall.bare_left
    exact helse.branch hL (.of_place rfl rfl (hanchor _) (List.forall_mem_nil _) (by simp)) (by simp)
  | none =>
    exact .pure (hv.branch hL (.of_place rfl rfl (hanchor _) (List.forall_mem_nil _) (by simp))
      (by simp))

theorem opens_whileLoop (h : L.Trusted r) : L.Opens .shown [] (whileLoop r) one := by
  intro before s hs huse
  unfold whileLoop
  rw [meets_advance]
  exact (Has.guarded (hs.advance h.lawful huse) h rfl rfl).weaken fun _ _ ht => ht.1

theorem opens_doWhile (h : L.Trusted r) : L.Opens .shown [] (doWhile r) one := by
  intro before s hs huse
  have hL := h.lawful
  unfold doWhile
  rw [meets_advance]
  refine ((yields_body h.toKeeps).beside hL (hs.advance hL huse)).bind fun body t ht => ?_
  refine (ht.eat hL .shown rfl).bind fun word u hu => ?_
  cases word with
  | some word =>
    refine ((yields_condition h).beside hL hu).bind fun condition v hv => .pure ?_
    exact hv.build hL (.of_token rfl rfl (by simp) (by simp) (by simp [one, Form.use?]))
      (by simp [one]) (.ends (by simp [one]) (by simp) (by simp [one]))
  | none => exact .fail (hu.fails hL _ _)

theorem yields_forStart (h : L.Whole r) : L.Yields (forStart r) maybe := by
  intro before s hs
  unfold forStart
  rw [meets_isAt]
  split
  · exact .pure hs
  · rw [meets_isAt]
    split
    · rename_i hat
      exact opens_nameStatement h hs (allows_of_isAt hat rfl)
    · exact (takes_expression h.circle).yields hs

/-- The parts of the header are in hand, and its form is that of a loop. -/
theorem Has.forHeader (hs : L.Has before [] s) (h : L.Whole r) :
    Meets s (forHeader r) (forHeader r)
      (fun found t => L.Has before (found.2.map .node) t ∧ found.1.isSimple ∧
        found.1.use? = some .shown) (L.Fails before) := by
  have hL := h.lawful
  have hexpression := (takes_expression h.circle).yields
  unfold Grammar.forHeader
  refine (yields_forStart h hs).bind fun start t ht => ?_
  rw [meets_get]
  split
  · rename_i binding hbinding
    obtain ⟨rfl, hbinds⟩ := Option.filter_eq_some_iff.mp hbinding
    have hcolon : t.isAt (.punctuation .colon) := (Bool.and_eq_true_iff.mp hbinds).2
    rw [meets_advance]
    exact ((Yields.require h.expression hL .missingValue).beside hL
      (ht.skip hL (allows_of_isAt hcolon rfl))).bind fun items u hu => .pure ⟨hu, rfl, rfl⟩
  · refine (ht.expectStop h.complete _).bind fun _ u hu => ?_
    refine (hexpression.beside hL hu).bind fun condition v hv => ?_
    refine (hv.expectStop h.complete _).bind fun _ w hw => ?_
    exact (hexpression.beside hL hw).bind fun step x hx =>
      .pure ⟨by simpa [maybe] using hx, rfl, rfl⟩

theorem Has.forRest (hs : L.Has before [] s) (h : L.Whole r) :
    Meets s (forRest r) (forRest r)
      (fun found t => L.Has before (found.1.2.map .node ++ [.node found.2]) t ∧
        found.1.1.isSimple ∧ found.1.1.use? = some .shown) (L.Fails before) := by
  have hL := h.lawful
  unfold Grammar.forRest
  refine (hs.eatSkip hL rfl).bind fun paren t ht => ?_
  refine (ht.forHeader h).bind fun header u hu => ?_
  have hbody {v : State} (hv : L.Has before (header.2.map .node) v) :
      Meets v (body r >>= fun body => pure (header, body))
        (body r >>= fun body => pure (header, body))
        (fun found t => L.Has before (found.1.2.map .node ++ [.node found.2]) t ∧
          found.1.1.isSimple ∧ found.1.1.use? = some .shown) (L.Fails before) :=
    ((yields_body h.toKeeps).beside hL hv).bind fun body w hw => .pure ⟨hw, hu.2⟩
  split
  · exact (hu.1.expectSkip hL rfl _).bind fun close v hv => hbody hv
  · exact hbody hu.1

theorem opens_forLoop (h : L.Whole r) : L.Opens .shown [] (forLoop r) one := by
  intro before s hs huse
  have hL := h.lawful
  have hkeyword : L.Has before [.token .shown s.current] s.advance := hs.advance hL huse
  unfold forLoop
  rw [meets_advance]
  have hrest : Meets s.advance (inNewScope (forRest r)) (inNewScope (forRest r))
      (fun found t => ∃ ys, (ys = found.1.2.map .node ++ [.node found.2] ∧ found.1.1.isSimple ∧
        found.1.1.use? = some .shown) ∧ L.Has (before ++ [.token .shown s.current]) ys t)
      (L.Fails (before ++ [.token .shown s.current])) :=
    meets_inScope hL (fun _ _ ht => (ht.forRest h).weaken fun _ _ hu => ⟨_, ⟨rfl, hu.2⟩, hu.1⟩)
      hkeyword.aside .push trivial rfl
  refine (hrest.mono (fun _ _ ht => ht) fun _ _ he => he.drop hL).bind fun found t ht => ?_
  obtain ⟨_, ⟨rfl, hsimple, hshown⟩, ht⟩ := ht
  exact .pure ((ht.pickUp (by simp)).build hL (.of_token hsimple hshown (by simp) (List.forall_mem_nil _)
    (by simp [hshown])) (by simp) (.ends (by simp) (by simp) (by simp [List.getLast?_cons])))

theorem opens_returnStatement (h : L.Trusted r) : L.Opens .shown [] (returnStatement r) one := by
  intro before s hs huse
  have hL := h.lawful
  have hkeyword : L.Has before [.token .shown s.current] s.advance := hs.advance hL huse
  unfold returnStatement
  rw [meets_advance, meets_get]
  dsimp only
  split
  · rw [meets_pure_bind]
    exact .pure (hkeyword.branch hL (.of_token rfl rfl (by simp) (List.forall_mem_nil _)
      (by simp [Form.use?])) rfl)
  · exact ((takes_expression h.circle).yields.beside hL hkeyword).bind fun value t ht =>
      .pure (ht.branch hL (.of_token rfl rfl (by simp) (List.forall_mem_nil _)
        (by simp [maybe, Form.use?])) (by simp [maybe]))

theorem opens_delete (h : L.Trusted r) : L.Opens .shown [] (delete r) one := by
  intro before s hs huse
  have hL := h.lawful
  unfold delete
  rw [meets_advance]
  exact ((Yields.require (takes_expression h.circle).yields hL .missingValue).beside hL
    (hs.advance hL huse)).bind fun value t ht =>
      .pure (ht.branch hL (.of_token rfl rfl (by simp) (List.forall_mem_nil _)
        (by simp [one, Form.use?])) rfl)

/-! ### Storage and visibility -/

theorem turns_afterStorage (h : L.Trusted r) (storage : Node) :
    L.Turns [.node storage] (afterStorage r storage) one := by
  intro before s hs
  unfold afterStorage
  rw [meets_current]
  split
  · rename_i hkind
    exact opens_functionDef h none (some storage) hs (allows_of_kind hkind rfl)
  · rename_i hkind
    exact opens_operatorDef h none (some storage) hs (allows_of_kind hkind rfl)
  · unfold Grammar.require
    refine (meets_declaration h (some storage) hs).bind fun found t ht => ?_
    cases found with
    | some node => exact .pure ht
    | none =>
      exact .fail ⟨ht, h.lawful.fit_current ht.breaks⟩

theorem opens_storageNode (hL : L.Lawful) : L.Opens .shown [] storageNode one := by
  intro before s hs huse
  have htoken : L.Has before ([] ++ [.token .shown s.current]) s.advance := hs.advance hL huse
  unfold storageNode
  rw [meets_advance]
  exact .pure (htoken.leaf hL rfl rfl rfl (fun _ hi => Form.noConfusion hi) rfl)

theorem yields_storageHere (hL : L.Lawful) : L.Yields storageHere maybe := by
  intro before s hs
  unfold storageHere
  rw [meets_current]
  split
  · rename_i k hkind
    split
    · rename_i hstorage
      exact .map (opens_storageNode hL hs (allows_of_kind hkind (shown_of_isStorage hstorage)))
    · exact .pure hs
  · exact .pure hs

theorem turns_afterVisibility (h : L.Trusted r) (token : Token) (storage : Option Node) :
    L.Turns (.node (.leaf .visibility token) :: maybe storage)
      (afterVisibility r (.leaf .visibility token) storage) one := by
  intro before s hs
  have hL := h.lawful
  unfold afterVisibility
  rw [meets_current]
  split
  · rename_i hkind
    exact opens_classDef h (some _) hs (allows_of_kind hkind rfl)
  · rename_i hkind
    exact opens_classDef h (some _) hs (allows_of_kind hkind rfl)
  · rename_i hkind
    exact opens_functionDef h (some _) _ hs (allows_of_kind hkind rfl)
  · rename_i hkind
    exact opens_operatorDef h (some _) _ hs (allows_of_kind hkind rfl)
  · exact .pure hs
  · rename_i storage _ _
    have hboth : L.Has before ([.node (.leaf .visibility token)] ++ [.node storage]) s := hs
    refine ((turns_afterStorage h storage).beside hL hboth).bind fun node t ht => .pure ?_
    have hnode := ht.bare node (List.mem_append_right _ List.mem_cons_self)
    exact ht.make hL (.markedFirst token node) (hnode.congr rfl rfl)

theorem opens_visibilityStatement (h : L.Trusted r) :
    L.Opens .shown [] (visibilityStatement r) one := by
  intro before s hs huse
  have hL := h.lawful
  have htoken : L.Has before ([] ++ [.token .shown s.current]) s.advance := hs.advance hL huse
  have hnode : L.Has before [.node (.leaf .visibility s.current)] s.advance :=
    htoken.leaf hL rfl rfl rfl (fun _ hi => Form.noConfusion hi) rfl
  unfold visibilityStatement
  rw [meets_advance]
  dsimp only
  refine (hnode.eatSkip hL rfl).bind fun colon t ht => ?_
  cases colon with
  | some colon => exact .pure ht
  | none =>
    refine ((yields_storageHere hL).beside hL ht).bind fun storage u hu => ?_
    exact turns_afterVisibility h _ storage hu

/-! ### Statements -/

theorem Has.keywordStatement (hs : L.Has before [] s) (h : L.Whole r) {k : Keyword}
    (hkind : s.current.kind = .keyword k) :
    Meets s (keywordStatement r k) (keywordStatement r k) (fun found => L.Has before (maybe found))
      (L.Fails before) := by
  have hL := h.lawful
  have hexpression := (takes_expression h.circle).yields
  unfold Grammar.keywordStatement
  split
  · exact .map (opens_conditional h.toTrusted hs (allows_of_kind hkind rfl))
  · exact .map (opens_whileLoop h.toTrusted hs (allows_of_kind hkind rfl))
  · exact .map (opens_doWhile h.toTrusted hs (allows_of_kind hkind rfl))
  · exact .map (opens_forLoop h hs (allows_of_kind hkind rfl))
  · exact .map (opens_returnStatement h.toTrusted hs (allows_of_kind hkind rfl))
  · exact .map (opens_delete h.toTrusted hs (allows_of_kind hkind rfl))
  · exact .map (opens_importStatement hL hs (allows_of_kind hkind rfl))
  · exact .map (opens_importStatement hL hs (allows_of_kind hkind rfl))
  · exact .map (opens_classDef h.toTrusted none hs (allows_of_kind hkind rfl))
  · exact .map (opens_classDef h.toTrusted none hs (allows_of_kind hkind rfl))
  · rw [meets_get]
    split
    · exact hexpression hs
    · exact .map (opens_functionDef h.toTrusted none none hs (allows_of_kind hkind rfl))
  · exact .map (opens_operatorDef h.toTrusted none none hs (allows_of_kind hkind rfl))
  · exact .map (opens_template h.toKeeps hs (allows_of_kind hkind rfl))
  · split
    · rename_i hvisibility
      have hshown := allows_of_kind hkind (shown_of_isVisibility hvisibility)
      exact .map (opens_visibilityStatement h.toTrusted hs hshown)
    · split
      · rename_i htype
        exact opens_nameStatement h hs (allows_of_kind hkind (name_of_isWord htype))
      · split
        · rename_i hstorage
          have hshown := allows_of_kind hkind (shown_of_isStorage hstorage)
          exact .map ((opens_storageNode hL hs hshown).bind fun storage t ht =>
            turns_afterStorage h.toTrusted storage ht)
        · exact hexpression hs

theorem yields_statement (h : L.Whole r) : L.Yields (statement r) maybe := by
  intro before s hs
  unfold statement
  rw [meets_current]
  split
  · rename_i k hkind
    exact hs.keywordStatement h hkind
  · rename_i hkind
    exact .map (hs.block h.toKeeps (beq_iff_eq.mpr hkind) .push trivial rfl .block)
  · rename_i hkind
    exact opens_nameStatement h hs (allows_of_kind hkind rfl)
  · exact (takes_expression h.circle).yields hs

end Survey

end SableFront.Grammar
