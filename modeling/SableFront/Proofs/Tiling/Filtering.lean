import SableFront.Proofs.Survey.Behind
import SableFront.Proofs.Tiling.Highlight

/-!
# Tiling: leaving categories out

What a token is shown as depends on who keeps it: a name is shown by its role and its type. But
whether it is shown at all depends on its kind alone, since all that a name may be shown as is always
shown, and everything else is shown by its kind. For that the anchor of a node has to be of the right
kind for its form, and so have the marks and the comments (`Node.Suits`). Two records that start at
one place are of one token, so either both are shown or neither is, and it makes no difference
whether categories are left out before the records are put in order or afterwards.
-/

namespace SableFront

open Grammar

/-! ### Kinds -/

namespace Highlight

/-- A name may be shown as this. -/
def Category.isOfName : Category → Bool
  | namespaceName | typeName | className | enumName | parameter | plainName | property
  | functionName => true
  | keyword | modifier | comment | string | number | operator => false

/-- A token of the kind may be shown as this: a name by its role and type, all others by their
kind. -/
def Category.Fits (k : Kind) (category : Category) : Prop :=
  if k.isWord then category.isOfName = true else categoryOfKind k = some category

theorem isOfName_categoryOfName (i : Ident) : (categoryOfName i).isOfName := by
  unfold categoryOfName
  repeat' split
  all_goals rfl

theorem shows_of_isOfName {category : Category} (h : category.isOfName) (shown : HighlightConfig) :
    shows shown category := by
  cases category <;> first | rfl | cases h

/-- Whether a token is shown depends on its kind. -/
theorem Category.Fits.shows_eq {k : Kind} {a b : Category} (ha : a.Fits k) (hb : b.Fits k)
    (shown : HighlightConfig) : shows shown a = shows shown b := by
  unfold Fits at ha hb
  split at ha
  · rename_i hword
    rw [if_pos hword] at hb
    rw [shows_of_isOfName ha, shows_of_isOfName hb]
  · rename_i hword
    rw [if_neg hword, ha] at hb
    rw [Option.some_inj.mp hb]

/-- The anchor of a node is shown as what it is in hand for. -/
theorem categoryOf_cases (data : NodeData) :
    data.form.use? = none ∧ categoryOf data = none ∨
    data.form.use? = some .name ∧ (∃ i, categoryOf data = some (categoryOfName i)) ∨
    (data.form.use? = some .comment ∨ data.form.use? = some .shown) ∧
      categoryOf data = categoryOfKind data.token.kind := by
  obtain ⟨form, token, span, marks, leading, trailing⟩ := data
  cases form
  case ident i => exact .inr (.inl ⟨rfl, i, rfl⟩)
  case comment => exact .inr (.inr ⟨.inl rfl, rfl⟩)
  case dotted | call | index | slice | typeRef | identDef | conditional | params | block | importItem |
      list | dict | returnType | invalid => exact .inl ⟨rfl, rfl⟩
  all_goals exact .inr (.inr ⟨.inr rfl, rfl⟩)

theorem categoryOfKind_of_isComment {k : Kind} (h : k.isComment) :
    categoryOfKind k = some .comment := by
  cases k <;> first | rfl | cases h

theorem Category.fits_comment {k : Kind} (h : k.isComment) : Category.comment.Fits k := by
  cases k <;> first | rfl | cases h

theorem Category.fits_of_shown {k : Kind} {category : Category} (hk : Use.shown.admits k)
    (h : categoryOfKind k = some category) : category.Fits k := by
  unfold Fits
  rw [if_neg (Bool.not_eq_true _ ▸ Bool.not_eq_true' _ ▸ hk)]
  exact h

end Highlight

/-! ### Nodes -/

namespace Node

/-- The tokens of a node are of kinds for which it may keep them. -/
structure Suits (n : Node) : Prop where
  anchor : ∀ use ∈ n.form.use?, use.admits n.token.kind
  marks : ∀ t ∈ n.marks, Use.shown.admits t.kind
  comments : ∀ t, t ∈ n.leading ∨ t ∈ n.trailing → t.kind.isComment

variable {table : SymbolTable} {ps : List Piece} {n : Node} {t : Token}

theorem use?_modifyIdent (n : Node) (f : Ident → Ident) :
    (n.modifyIdent f).form.use? = n.form.use? := by
  obtain ⟨⟨form, token, span, marks, leading, trailing⟩, children⟩ := n
  cases form <;> rfl

theorem suits_build {form : Form} {anchor : Token} {marks : List Token} (children : List Node)
    (further : List Span) (hanchor : ∀ use ∈ form.use?, use.admits anchor.kind)
    (hmarks : ∀ t ∈ marks, Use.shown.admits t.kind) :
    (build form anchor children marks further).Suits :=
  ⟨hanchor, hmarks, fun _ ht => ht.elim (absurd · List.not_mem_nil) (absurd · List.not_mem_nil)⟩

theorem suits_ofLiteral (ht : Use.shown.admits t.kind) : (ofLiteral t).Suits := by
  refine suits_build [] [] (fun use huse => ?_) (List.forall_mem_nil _)
  split at huse <;> cases huse <;> exact ht

/-- **A node that is made suits its tokens**, if these are what they are in hand for. -/
theorem Makes.suits (h : Makes table ps n) (htokens : ∀ use t, .token use t ∈ ps → use.admits t.kind)
    (hnodes : ∀ k, .node k ∈ ps → k.Suits) : n.Suits := by
  cases h with
  | build hps =>
    exact suits_build _ _ (fun use huse => htokens use _ (hps.token use huse))
      fun t ht => htokens .shown t (hps.shown t ht)
  | literal => exact suits_ofLiteral (htokens .shown _ List.mem_cons_self)
  | enclosed k | extended k _ =>
    have hk := hnodes k (by simp)
    exact ⟨hk.anchor, hk.marks, hk.comments⟩
  | marked k t =>
    have hk := hnodes k (by simp)
    refine ⟨hk.anchor, fun u hu => ?_, hk.comments⟩
    rcases List.mem_append.mp hu with hu | hu
    · exact hk.marks u hu
    · exact List.mem_singleton.mp hu ▸ htokens .shown t (by simp)
  | markedFirst t k =>
    have hk := hnodes k (by simp)
    refine ⟨hk.anchor, fun u hu => ?_, hk.comments⟩
    rcases List.mem_cons.mp hu with rfl | hu
    · exact (hnodes (.leaf .visibility u) (by simp)).anchor .shown rfl
    · exact hk.marks u hu
  | @bound k f =>
    have hk := hnodes k (by simp)
    exact ⟨fun use huse => hk.anchor use (use?_modifyIdent k f ▸ huse), hk.marks, hk.comments⟩
  | commented leading trailing k =>
    have hk := hnodes k (by simp)
    have hcomment (t : Token) (ht : t ∈ leading ∨ t ∈ trailing) : t.kind.isComment := by
      refine (hnodes (.ofComment t) ?_).anchor .comment rfl
      rw [List.mem_append, List.mem_cons]
      exact ht.imp (fun ht => List.mem_map.mpr ⟨t, ht, rfl⟩) fun ht =>
        .inr (List.mem_map.mpr ⟨t, ht, rfl⟩)
    exact ⟨hk.anchor, hk.marks, hcomment⟩

/-- What a node that suits its tokens shows them as fits their kinds. -/
theorem Suits.fits (h : n.Suits) {category : Highlight.Category}
    (hshown : Highlight.Classifies n t category) : category.Fits t.kind := by
  cases hshown with
  | anchor hcategory =>
    rcases Highlight.categoryOf_cases n.data with ⟨-, hnone⟩ | ⟨huse, i, hname⟩ | ⟨huse, hkind⟩
    · rw [hnone] at hcategory
      cases hcategory
    · have hword : n.token.kind.isWord := h.anchor .name huse
      rw [hname, Option.some_inj] at hcategory
      subst hcategory
      rw [Highlight.Category.Fits, if_pos hword]
      exact Highlight.isOfName_categoryOfName i
    · replace hcategory : Highlight.categoryOfKind n.token.kind = some category :=
        hkind.symm.trans hcategory
      rcases huse with huse | huse
      · have hcomment : n.token.kind.isComment := h.anchor .comment huse
        rw [Highlight.categoryOfKind_of_isComment hcomment, Option.some_inj] at hcategory
        exact hcategory ▸ Highlight.Category.fits_comment hcomment
      · exact Highlight.Category.fits_of_shown (h.anchor .shown huse) hcategory
  | mark ht hcategory => exact Highlight.Category.fits_of_shown (h.marks _ ht) hcategory
  | comment ht => exact Highlight.Category.fits_comment (h.comments _ ht)

end Node

/-! ### The survey of kinds -/

namespace Grammar

open Node

/-- The tokens in hand are what they are in hand for, and nodes suit their tokens. -/
structure Suiting (ps : List Piece) (s : State) : Prop where
  waiting : ∀ t ∈ s.comments, t.kind.isComment
  pieces : Piece.AllFit (fun use t => use.admits t.kind) Suits ps

namespace Suiting

variable {ps qs rs : List Piece} {s t : State} {n : Node}

theorem congr (h : Suiting ps s) (hcomments : t.comments ⊆ s.comments) : Suiting ps t :=
  ⟨fun c hc => h.waiting c (hcomments hc), h.pieces⟩

theorem advance (h : Suiting ps s) {use : Use} (huse : use.admits s.current.kind) :
    Suiting (ps ++ [.token use s.current]) s.advance := by
  refine ⟨fun c hc => ?_, h.pieces.push huse⟩
  unfold State.advance at hc
  split at hc
  · exact h.waiting c hc
  · exact (List.mem_append.mp hc).elim (h.waiting c) Cursor.isComment_of_mem_comments

theorem missing (h : Suiting ps s) : Suiting (ps ++ [.node s.placeholder]) s :=
  ⟨h.waiting, h.pieces.pushLeaf (suits_build [] [] (fun use huse => absurd huse (Option.not_mem_none use))
    (List.forall_mem_nil _))⟩

theorem make (h : Suiting (ps ++ (qs ++ rs)) s) (hn : Makes s.symbols qs n) :
    Suiting (ps ++ .node n :: rs) s := ⟨h.waiting, h.pieces.make hn hn.suits⟩

theorem collect (h : Suiting ps s) {taken waiting : List Token} (htaken : taken ⊆ s.comments)
    (hwaiting : waiting ⊆ s.comments) :
    Suiting (ps ++ taken.map .comment) { s with comments := waiting } := by
  refine ⟨fun c hc => h.waiting c (hwaiting hc), h.pieces.collect fun t ht =>
    suits_build [] [] (fun use huse => ?_) (List.forall_mem_nil _)⟩
  cases huse
  exact h.waiting t (htaken ht)

theorem rewind (h : Suiting ps s) (ht : Suiting ps t) : Suiting ps (t.rewind s) :=
  ⟨fun c hc => ht.waiting c (List.mem_of_mem_take hc), h.pieces⟩

end Suiting

theorem loose_suiting : Survey.Loose (fun _ => True) Suiting where
  fit_current _ := trivial
  fit _ _ := trivial
  congr h _ _ hcomments _ _ := Suiting.congr h (hcomments ▸ List.Subset.refl _)
  sublist h hqs := ⟨h.waiting, h.pieces.subset hqs.subset⟩
  mind h hp := ⟨h.waiting, h.pieces.mind hp⟩
  advance h huse := Suiting.advance h (Use.admits_of_takes huse)
  split h _ := Suiting.congr h (List.Subset.refl _)
  record h _ := Suiting.congr h fun _ hc => State.comments_record _ _ ▸ hc
  missing h := Suiting.missing h
  make h hn := Suiting.make h hn
  collect h htaken hwaiting := Suiting.collect h htaken hwaiting
  operate h _ _ := Suiting.congr h (List.Subset.refl _)
  rewind h ht := Suiting.rewind h ht

/-- All nodes of a program suit their tokens. -/
theorem suits_of_mem_walkAll {source : String} {config : ParseConfig} {n : Node}
    (hn : n ∈ walkAll (Program.parse source config).nodes) : n.Suits := by
  have hstart : Suiting [] (State.start source config) :=
    ⟨fun c hc => Cursor.isComment_of_mem_comments hc, .nil⟩
  obtain ⟨s, hholds, -⟩ := Survey.reading_keeps (loose_suiting.whole _) hstart
  exact (hholds.pieces.nodes.walkAll hn).self

end Grammar

/-! ### Leaving out before and after -/

namespace Highlight

section

variable {α : Type} {le : α → α → Bool}

/-- A stable sort puts an element right before the first one that is not less. -/
theorem mergeSort_cons_eq (htrans : ∀ a b c, le a b → le b c → le a c)
    (htotal : ∀ a b, le a b || le b a) (a : α) (xs : List α) :
    (a :: xs).mergeSort le =
      (xs.mergeSort le).filter (fun b => !le a b) ++ a :: (xs.mergeSort le).filter (le a) := by
  obtain ⟨before, behind, hsorted, hothers, hbefore⟩ := List.mergeSort_cons htrans htotal a xs
  have hbehind : ∀ b ∈ behind, le a b := by
    have hpairwise := List.pairwise_mergeSort htrans htotal (a :: xs)
    rw [hsorted, List.pairwise_append] at hpairwise
    exact (List.pairwise_cons.mp hpairwise.2.1).1
  have hfirst : (before ++ behind).filter (fun b => !le a b) = before := by
    rw [List.filter_append, List.filter_eq_self.mpr hbefore,
      List.filter_eq_nil_iff.mpr fun b hb => by simp [hbehind b hb], List.append_nil]
  have hlast : (before ++ behind).filter (le a) = behind := by
    rw [List.filter_append, List.filter_eq_self.mpr hbehind,
      List.filter_eq_nil_iff.mpr fun b hb => by simpa using hbefore b hb, List.nil_append]
  rw [hothers, hfirst, hlast, hsorted]

/-- A stable sort may be done before or after some elements are left out. -/
theorem filter_mergeSort (htrans : ∀ a b c, le a b → le b c → le a c)
    (htotal : ∀ a b, le a b || le b a) (p : α → Bool) (xs : List α) :
    (xs.mergeSort le).filter p = (xs.filter p).mergeSort le := by
  induction xs with
  | nil => rw [List.mergeSort_nil, List.filter_nil, List.mergeSort_nil]
  | cons a xs ih =>
    cases ha : p a with
    | false =>
      obtain ⟨before, behind, hsorted, hothers, -⟩ := List.mergeSort_cons htrans htotal a xs
      rw [hothers, List.filter_append] at ih
      rw [hsorted, List.filter_append, List.filter_cons_of_neg (Bool.eq_false_iff.mp ha),
        List.filter_cons_of_neg (Bool.eq_false_iff.mp ha), ih]
    | true =>
      rw [mergeSort_cons_eq htrans htotal, List.filter_append, List.filter_comm, ih,
        List.filter_cons_of_pos ha, List.filter_cons_of_pos ha, List.filter_comm, ih,
        mergeSort_cons_eq htrans htotal]

end

/-! ### The first of each place -/

variable {p : Record → Bool} {last r : Record} {rs : List Record}

/-- Behind a record at an earlier place the first one is kept. -/
theorem firstsAfter_eq_firsts (h : ∀ r ∈ rs, r.start ≠ last.start) :
    firstsAfter last rs = firsts rs := by
  cases rs with
  | nil => rfl
  | cons r rs => rw [firstsAfter, firsts, if_neg (h r List.mem_cons_self)]

/-- Of records in order the first ones may be kept before or after some are left out, if it depends
on the place which are. -/
theorem filter_firsts (hordered : rs.Pairwise fun r r' => r.start ≤ r'.start)
    (hp : ∀ r ∈ rs, ∀ r' ∈ rs, r.start = r'.start → p r = p r') :
    (firsts rs).filter p = firsts (rs.filter p) := by
  -- on the records, with the one that was kept last
  suffices hafter : ∀ last rs, (last :: rs).Pairwise (fun r r' : Record => r.start ≤ r'.start) →
      (∀ r ∈ last :: rs, ∀ r' ∈ last :: rs, r.start = r'.start → p r = p r') →
      (last :: firstsAfter last rs).filter p = firsts ((last :: rs).filter p) by
    cases rs with
    | nil => rfl
    | cons r rs => exact hafter r rs hordered hp
  intro last rs hordered hp
  induction rs generalizing last with
  | nil =>
    cases hlast : p last <;> simp [firstsAfter, firsts, hlast]
  | cons r rs ih =>
    obtain ⟨hlast, hrs⟩ := List.pairwise_cons.mp hordered
    by_cases hsame : r.start = last.start
    · have hsub : (last :: rs).Sublist (last :: r :: rs) := (List.sublist_cons_self r rs).cons_cons last
      have hothers := ih last (hordered.sublist hsub) fun r hr r' hr' =>
        hp r (hsub.subset hr) r' (hsub.subset hr')
      have heq : p r = p last := hp r (by simp) last (by simp) hsame
      rw [firstsAfter, if_pos hsame, hothers]
      cases hkept : p last with
      | false => simp [hkept, heq]
      | true => simp [hkept, heq, firsts, firstsAfter, hsame]
    · have hothers := ih r hrs fun r hr r' hr' =>
        hp r (List.mem_cons_of_mem _ hr) r' (List.mem_cons_of_mem _ hr')
      rw [firstsAfter, if_neg hsame]
      cases hkept : p last with
      | false =>
        rw [List.filter_cons_of_neg (Bool.eq_false_iff.mp hkept),
          List.filter_cons_of_neg (Bool.eq_false_iff.mp hkept), hothers]
      | true =>
        rw [List.filter_cons_of_pos hkept, List.filter_cons_of_pos hkept, hothers, firsts,
          firstsAfter_eq_firsts fun s hs heq => hsame ?_]
        -- the next record is not behind one at the place of the last
        have hle : r.start ≤ s.start := by
          rcases List.mem_cons.mp (List.mem_filter.mp hs).1 with rfl | hs
          · exact Position.le_refl _
          · exact (List.pairwise_cons.mp hrs).1 s hs
        exact Position.le_antisymm (heq ▸ hle) (hlast r List.mem_cons_self)

/-- **Records may be left out before or after they are put in order**, if it depends on their place
which are. -/
theorem filter_inOrder (hp : ∀ r ∈ rs, ∀ r' ∈ rs, r.start = r'.start → p r = p r') :
    (inOrder rs).filter p = inOrder (rs.filter p) := by
  have htrans (a b c : Record) (hab : decide (a.start ≤ b.start))
      (hbc : decide (b.start ≤ c.start)) : decide (a.start ≤ c.start) :=
    decide_eq_true (Position.le_trans (of_decide_eq_true hab) (of_decide_eq_true hbc))
  have htotal (a b : Record) : decide (a.start ≤ b.start) || decide (b.start ≤ a.start) := by
    rw [Bool.or_eq_true, decide_eq_true_iff, decide_eq_true_iff]
    exact Position.le_total _ _
  unfold inOrder
  rw [← filter_mergeSort htrans htotal, filter_firsts]
  · exact (List.pairwise_mergeSort htrans htotal rs).imp of_decide_eq_true
  · exact fun r hr r' hr' => hp r (List.mem_mergeSort.mp hr) r' (List.mem_mergeSort.mp hr')

/-! ### Records at one place -/

theorem category_of_mem_lineRecords {category : Category} {modifiers : List Modifier}
    {position : Position} {ls : List (List Char)}
    (h : r ∈ lineRecords category modifiers position ls) : r.category = category := by
  induction ls generalizing position with
  | nil => cases h
  | cons line rest ih =>
    rw [lineRecords] at h
    split at h
    · exact ih h
    · rcases List.mem_cons.mp h with rfl | h
      · rfl
      · exact ih h

theorem category_of_mem_tokenRecords {t : Token} {category : Category} {modifiers : List Modifier}
    (h : r ∈ tokenRecords t category modifiers) : r.category = category := by
  unfold tokenRecords at h
  split at h
  · cases h
  · split at h
    · rw [List.mem_singleton.mp h]
    · split at h
      · exact category_of_mem_lineRecords h
      · cases h

/-- A record starts somewhere else than one that it ends before. -/
theorem Record.Covers.start_ne {cs : List Char} {r' : Record} {a b a' b' : Nat}
    (h : r.Covers cs a b) (h' : r'.Covers cs a' b') (hle : b ≤ a') : r.start ≠ r'.start := by
  intro hstart
  have hlength := h.length
  have hstop : r.stop ≤ r.start := by
    rw [hstart, h.stop, h'.start]
    exact Text.positionAt_mono cs hle
  rcases hstop with hline | ⟨-, hcharacter⟩
  · exact Nat.lt_irrefl _ hline
  · change r.start.character + r.length ≤ r.start.character at hcharacter
    omega

/-- **Records at one place are of one token.** -/
theorem eq_of_start_eq {cs : List Char} {T : Token → Prop} {current t t' : Token} {r' : Record}
    {category category' : Category} {modifiers modifiers' : List Modifier}
    (hT : Gathered cs T current) (ht : T t) (ht' : T t')
    (h : r ∈ tokenRecords t category modifiers) (h' : r' ∈ tokenRecords t' category' modifiers')
    (hstart : r.start = r'.start) : t = t' := by
  refine (hT.apart t t' ht ht').resolve_right fun hapart => ?_
  obtain ⟨a, b, ha, hb, hcovers⟩ := covers_of_mem_tokenRecords (hT.cut t ht) h
  obtain ⟨a', b', ha', hb', hcovers'⟩ := covers_of_mem_tokenRecords (hT.cut t' ht') h'
  rcases hapart with hle | hle
  · exact hcovers.start_ne hcovers' (by omega) hstart
  · exact hcovers'.start_ne hcovers (by omega) hstart.symm

/-- Nothing is left out by default. -/
theorem highlight_standard (nodes : List Node) :
    highlight .standard nodes = inOrder (nodes.flatMap (nodeRecords [])) := by
  rw [highlight, List.filter_eq_self.mpr fun r _ => by cases r.category <;> rfl]

end Highlight

open Highlight

/-- **Categories may be left out of the highlighting before or after it is put in order.** Whatever
the program, the highlighting without comments, operators or keywords is that with all of them, less
the records of the categories that are left out; keywords and modifiers go together. -/
theorem leaving_out_commutes_with_highlighting (source : String) (config : ParseConfig)
    (shown : HighlightConfig) :
    let nodes := (Program.parse source config).nodes
    highlight shown nodes = (highlight .standard nodes).filter fun r =>
      match r.category with
      | .comment => shown.comments
      | .operator => shown.operators
      | .keyword | .modifier => shown.keywords
      | _ => true := by
  intro nodes
  obtain ⟨s, hlocating, -⟩ := Grammar.locating_parse source config
  have htoken (r : Record) (hr : r ∈ nodes.flatMap (nodeRecords [])) :
      ∃ t, Piece.Kept (nodes.map .node) t ∧ r.category.Fits t.kind ∧
        ∃ modifiers, r ∈ tokenRecords t r.category modifiers := by
    obtain ⟨n, hn, t, category, hshown, modifiers, hfrom⟩ := isShownBy_of_mem_flatMap hr
    have hsuits : n.Suits := Grammar.suits_of_mem_walkAll hn
    rw [category_of_mem_tokenRecords hfrom]
    exact ⟨t, Piece.kept_of_mem_walkAll hn hshown.mem_ownTokens, hsuits.fits hshown, modifiers, hfrom⟩
  have hkept : (fun r : Record => match r.category with
      | .comment => shown.comments
      | .operator => shown.operators
      | .keyword | .modifier => shown.keywords
      | _ => true) = fun r => shows shown r.category := rfl
  rw [hkept, highlight_standard, highlight, filter_inOrder]
  intro r hr r' hr' hstart
  obtain ⟨t, ht, hfits, modifiers, h⟩ := htoken r hr
  obtain ⟨t', ht', hfits', modifiers', h'⟩ := htoken r' hr'
  have heq : t = t' := eq_of_start_eq hlocating.gathered ht ht' h h' hstart
  exact hfits.shows_eq (heq ▸ hfits') shown

end SableFront
