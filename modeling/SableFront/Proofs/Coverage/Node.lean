import SableFront.Proofs.Coverage.Anew
import SableFront.Proofs.Defects.Token
import SableFront.Proofs.Tiling.Filtering

/-!
# Coverage: what becomes of a token

A token that is in hand to be shown, or to become a name, is the anchor or a mark of a node in the
end (`Node.Shows`). Of the tokens that are there for more than to stand where they do, only two sorts
are *left out*: those that open and close a list of generics, and the sign before the default of a
parameter. Such a token stands in its node, but in none of its children (`Node.LeavesOut`). A node
that is made shows, or leaves out, whatever the pieces show or leave out that it is made from
(`Makes.accounts`).
-/

namespace SableFront

namespace Node

/-- The node or one below it keeps the token, which is no comment and not empty. -/
def Bears (n : Node) (t : Token) : Prop :=
  ∃ m ∈ n.walk, t ∈ m.ownTokens ∧ t.kind.isComment = false ∧ 0 < t.size

/-- The token is the anchor of the node, which is shown, or one of its marks. -/
def Shows (n : Node) (t : Token) : Prop :=
  t = n.token ∧ (n.form.use? = some .name ∨ n.form.use? = some .shown) ∨ t ∈ n.marks

/-- The token is in the text and in the node, for a use for which such a node leaves tokens out. It
stands behind some of the children, or else behind the anchor, and before the others, or else before
the end: nothing that a child bears is on the wrong side of it. -/
structure LeavesOut (cs : List Char) (n : Node) (use : Use) (t : Token) : Prop where
  form : n.form.leavesOut use
  kind : use.admits t.kind
  cut : t.CutFrom cs
  between : ∃ before after, n.children = before ++ after ∧
    (before ≠ [] ∨ n.token.stop ≤ t.offset) ∧ (after ≠ [] ∨ t.span.stop ≤ n.span.stop) ∧
    (∀ c ∈ before, ∀ u, c.Bears u → u.stop ≤ t.offset) ∧
    ∀ c ∈ after, ∀ u, c.Bears u → t.stop ≤ u.offset

end Node

/-- The uses for which a token may be left out though it is highlighted. -/
def Use.isSeparator : Use → Bool
  | .angle | .equals => true
  | _ => false

theorem Use.isSeparator_of_leavesOut {use : Use} {form : Form} (h : form.leavesOut use)
    (hplain : use ≠ .plain) : use.isSeparator := by
  cases use
  case plain => exact absurd rfl hplain
  case angle | equals => rfl
  all_goals cases form <;> cases h

theorem Form.not_leavesOut_of_isWhole {form : Form} {use : Use} (h : form.isWhole)
    (huse : use.isSeparator) : ¬ form.leavesOut use := by
  obtain ⟨hangle, hequals⟩ := Bool.and_eq_true_iff.mp h
  cases use
  case angle => exact Bool.not_eq_true _ ▸ Bool.not_eq_true' _ ▸ hangle
  case equals => exact Bool.not_eq_true _ ▸ Bool.not_eq_true' _ ▸ hequals
  all_goals cases huse

namespace Piece

/-- The token is in hand, or a node in hand bears it. -/
def Bears (t : Token) : Piece → Prop
  | token _ u => t = u
  | node n => n.Bears t
  | _ => False

/-- Nothing that the one piece bears lies behind something that the other one bears. -/
def Precedes (p q : Piece) : Prop := ∀ t u, p.Bears t → q.Bears u → t.stop ≤ u.offset

/-- The token is in hand to be shown or to be a name, or a node in hand shows it. -/
def Shows (t : Token) : Piece → Prop
  | token use u => t = u ∧ (use = .name ∨ use = .shown)
  | node n => ∃ m ∈ n.walk, m.Shows t
  | _ => False

/-- The token is in hand for the use, or a node in hand leaves it out. -/
def LeavesOut (cs : List Char) (use : Use) (t : Token) : Piece → Prop
  | token other u => use = other ∧ t = u
  | node n => ∃ m ∈ n.walk, m.LeavesOut cs use t
  | _ => False

/-- The token of a text is shown by the piece; or it goes where a bracket does that the piece leaves
out of a list of generics; or the piece leaves it out before a default. -/
def Accounts (cs : List Char) (t : Token) (p : Piece) : Prop :=
  p.Shows t ∨ (∃ a, p.LeavesOut cs .angle a ∧ t.GoesWith cs a) ∨ p.LeavesOut cs .equals t

/-- A token in hand is cut from the text, is of a kind for its use, and promises nothing that it does
not keep. -/
def Sound (cs : List Char) : Piece → Prop
  | token use t => t.CutFrom cs ∧ use.admits t.kind ∧ t.WellMade
  | _ => True

variable {cs : List Char} {ps : List Piece} {p : Piece} {t : Token}

/-- What may be put away is no loss. -/
theorem not_accounts_of_isIdle (hp : p.isIdle) : ¬ p.Accounts cs t := by
  cases p with
  | token use u =>
    cases use
    case plain => rintro (⟨-, h | h⟩ | ⟨a, ⟨h, -⟩, -⟩ | ⟨h, -⟩) <;> cases h
    all_goals cases hp
  | node => cases hp
  | scope | symbol | error | faults => rintro (h | ⟨a, h, -⟩ | h) <;> exact h

theorem not_bears_of_isMental (hp : p.isMental) : ¬ p.Bears t := by
  cases p with
  | token | node => cases hp
  | scope | symbol | error | faults => exact id

/-- A comment bears nothing. -/
theorem not_bears_comment {c : Token} (hc : c.kind.isComment) : ¬ (comment c).Bears t := by
  rintro ⟨m, hm, ht, hkind, -⟩
  rw [eq_of_keeps_leaf (.node hm ht), hc] at hkind
  cases hkind

end Piece

/-! ### Nodes that are made -/

namespace Node

variable {cs : List Char} {table : SymbolTable} {ps : List Piece} {n k : Node} {use : Use}
  {t : Token}

theorem mem_walk_iff {m : Node} : m ∈ n.walk ↔ m = n ∨ ∃ c ∈ n.children, m ∈ c.walk := by
  obtain ⟨data, children⟩ := n
  rw [walk, List.mem_cons, mem_walkAll_iff]
  rfl

theorem mem_walk_of_child {c m : Node} (hc : c ∈ n.children) (hm : m ∈ c.walk) : m ∈ n.walk :=
  mem_walk_iff.mpr (.inr ⟨c, hc, hm⟩)

theorem eq_of_mem_walk_leaf {m : Node} {form : Form} (hm : m ∈ (leaf form t).walk) :
    m = leaf form t := by
  rcases mem_walk_iff.mp hm with rfl | ⟨c, hc, -⟩
  · rfl
  · cases hc

/-- What a node bears that is made, one of the pieces bears. -/
theorem Makes.exists_bears (h : Makes table ps n) (ht : n.Bears t) : ∃ p ∈ ps, p.Bears t := by
  obtain ⟨m, hm, hown, hsolid⟩ := ht
  obtain ⟨p, hp, hkeeps⟩ := h.kept (.node hm hown)
  cases hkeeps with
  | token => exact ⟨_, hp, rfl⟩
  | node hbelow hown => exact ⟨_, hp, _, hbelow, hown, hsolid⟩

/-- A comment shows nothing else and leaves nothing out. -/
theorem not_shows_ofComment {c : Token} : ¬ (ofComment c).Shows t := by
  rintro (⟨-, h | h⟩ | h) <;> cases h

/-! ### Nodes among the pieces -/

/-- The node becomes the other one by changes that lose nothing. -/
structure GrowsTo (k n : Node) : Prop where
  use : n.form.use? = k.form.use?
  leavesOut : ∀ use, n.form.leavesOut use = k.form.leavesOut use
  token : n.token = k.token
  marks : k.marks ⊆ n.marks
  children : k.children ⊆ n.children
  same : n.children = k.children ∨ k.form.isWhole
  stop : k.span.stop ≤ n.span.stop

theorem GrowsTo.refl (k : Node) : k.GrowsTo k :=
  ⟨rfl, fun _ => rfl, rfl, List.Subset.refl _, List.Subset.refl _, .inl rfl, Position.le_refl _⟩

/-- The span of a node may grow. -/
theorem GrowsTo.cover (k : Node) (s : Span) : k.GrowsTo (k.cover s) :=
  { refl k with stop := (Span.within_merge k.span s).1.stop }

theorem GrowsTo.modifyIdent (k : Node) (f : Ident → Ident) : k.GrowsTo (k.modifyIdent f) := by
  refine { refl k with use := use?_modifyIdent k f, leavesOut := fun use => ?_ }
  obtain ⟨⟨form, token, span, marks, leading, trailing⟩, children⟩ := k
  cases form <;> cases use <;> rfl

/-- What a node shows is shown where it has grown. -/
theorem Shows.grow (h : k.Shows t) (hgrows : k.GrowsTo n) : n.Shows t := by
  unfold Shows at h ⊢
  rw [hgrows.token, hgrows.use]
  exact h.imp_right fun ht => hgrows.marks ht

/-- What a node leaves out of its children it leaves out where it has grown. -/
theorem LeavesOut.grow (h : k.LeavesOut cs use t) (huse : use.isSeparator) (hgrows : k.GrowsTo n) :
    n.LeavesOut cs use t := by
  rcases hgrows.same with hsame | hwhole
  · refine ⟨(hgrows.leavesOut use).trans h.form, h.kind, h.cut, ?_⟩
    obtain ⟨before, after, hchildren, hbefore, hafter, hordered⟩ := h.between
    refine ⟨before, after, hsame.trans hchildren, ?_, ?_, hordered⟩
    · rwa [hgrows.token]
    · exact hafter.imp_right fun hstop => Position.le_trans hstop hgrows.stop
  · exact absurd h.form (Form.not_leavesOut_of_isWhole hwhole huse)

/-- A node among the pieces becomes a child or grows, if it is not attached as a comment or as a
mark. -/
theorem Makes.absorbs (h : Makes table ps n) (hk : .node k ∈ ps) :
    k ∈ n.children ∨ k.GrowsTo n ∨ (∃ c, k = .ofComment c) ∨
      ∃ mark ∈ n.marks, k = .leaf .visibility mark := by
  cases h with
  | build => exact .inl (Piece.mem_nodes.mpr hk)
  | literal => simp at hk
  | enclosed m =>
    obtain rfl : k = m := by simpa using hk
    exact .inr (.inl (.cover k _))
  | marked m mark =>
    obtain rfl : k = m := by simpa using hk
    exact .inr (.inl { GrowsTo.cover k mark.span with marks := List.subset_append_left _ _ })
  | markedFirst mark m =>
    have hcases : k = .leaf .visibility mark ∨ k = m := by simpa using hk
    rcases hcases with rfl | rfl
    · exact .inr (.inr (.inr ⟨mark, List.mem_cons_self, rfl⟩))
    · exact .inr (.inl { GrowsTo.cover k mark.span with marks := List.subset_cons_self _ _ })
  | extended base part hbase =>
    have hcases : k = base ∨ k = part := by simpa using hk
    rcases hcases with rfl | rfl
    · exact .inr (.inl { GrowsTo.cover k part.span with
        children := List.subset_append_left _ _, same := .inr (by rw [hbase]; rfl) })
    · exact .inl (List.mem_append_right _ List.mem_cons_self)
  | @bound m f =>
    obtain rfl : k = m := by simpa using hk
    exact .inr (.inl (.modifyIdent k f))
  | commented leading trailing m =>
    have hcases : (∃ c, k = .ofComment c) ∨ k = m := by
      simp only [List.mem_append, List.mem_map, List.mem_cons, Piece.comment] at hk
      rcases hk with ⟨c, -, hc⟩ | hm | ⟨c, -, hc⟩
      · cases hc
        exact .inl ⟨c, rfl⟩
      · cases hm
        exact .inr rfl
      · cases hc
        exact .inl ⟨c, rfl⟩
    rcases hcases with hc | rfl
    · exact .inr (.inr (.inl hc))
    · exact .inr (.inl { GrowsTo.refl k with })

/-- A node below one of the pieces is below the node that is made, unless the piece itself grows into
that one or is attached to it. -/
theorem Makes.exists_mem_walk (h : Makes table ps n) {P : Node → Prop} (hk : .node k ∈ ps)
    (hbelow : ∃ m ∈ k.walk, P m) (hgrow : k.GrowsTo n → P k → P n) (hcomment : ∀ c, ¬ P (.ofComment c))
    (hmark : ∀ mark ∈ n.marks, P (.leaf .visibility mark) → P n) : ∃ m ∈ n.walk, P m := by
  obtain ⟨m, hm, hP⟩ := hbelow
  rcases h.absorbs hk with hchild | hgrows | ⟨c, rfl⟩ | ⟨mark, hmem, rfl⟩
  · exact ⟨m, mem_walk_of_child hchild hm, hP⟩
  · rcases mem_walk_iff.mp hm with rfl | ⟨c, hc, hm⟩
    · exact ⟨n, mem_walk_self n, hgrow hgrows hP⟩
    · exact ⟨m, mem_walk_of_child (hgrows.children hc) hm, hP⟩
  · rw [eq_of_mem_walk_leaf hm] at hP
    exact absurd hP (hcomment c)
  · rw [eq_of_mem_walk_leaf hm] at hP
    exact ⟨n, mem_walk_self n, hmark mark hmem hP⟩

/-- What is shown by a node among the pieces is shown by the node that is made, or below it. -/
theorem Makes.shows_node (h : Makes table ps n) (hk : .node k ∈ ps)
    (ht : (Piece.node k).Shows t) : (Piece.node n).Shows t := by
  refine h.exists_mem_walk hk ht (fun hgrows hshows => hshows.grow hgrows)
    (fun c => not_shows_ofComment) fun mark hmem hshows => ?_
  rcases hshows with ⟨rfl, -⟩ | hnone
  · exact .inr hmem
  · cases hnone

/-- And so with what is left out. -/
theorem Makes.leavesOut_node (h : Makes table ps n) (hk : .node k ∈ ps) (huse : use.isSeparator)
    (ht : (Piece.node k).LeavesOut cs use t) : (Piece.node n).LeavesOut cs use t :=
  h.exists_mem_walk hk ht (fun hgrows hout => hout.grow huse hgrows)
    (fun _ hout => Form.not_leavesOut_of_isWhole rfl huse hout.form)
    fun _ _ hout => absurd hout.form (Form.not_leavesOut_of_isWhole rfl huse)

/-! ### Tokens among the pieces -/

/-- A literal that is as its kind announces is shown. -/
theorem use?_ofLiteral (h : (ofLiteral t).form ≠ .invalid) :
    (ofLiteral t).form.use? = some .shown := by
  revert h
  unfold ofLiteral
  split
  case h_7 => exact fun h => absurd rfl h
  all_goals exact fun _ => rfl

theorem not_isSeparator_of_use? {form : Form} (h : form.use? = some use) : ¬ use.isSeparator := by
  cases form <;> cases h <;> exact Bool.false_ne_true

/-- A token among the pieces stands where it does, or is used where a node is built from them, or is
shown by itself. -/
theorem Makes.token_cases (h : Makes table ps n) (ht : .token use t ∈ ps) :
    use = .plain ∨
    (∃ form anchor marks spans, Assembled ps form anchor marks spans ∧
      n = .build form anchor (Piece.nodes ps) marks spans) ∨
    use = .shown ∧ (n = .ofLiteral t ∧ t.kind.isLiteral ∨ t ∈ n.marks) := by
  cases h with
  | build hps => exact .inr (.inl ⟨_, _, _, _, hps, rfl⟩)
  | @literal token hliteral =>
    obtain ⟨rfl, rfl⟩ : use = .shown ∧ t = token := by simpa using ht
    exact .inr (.inr ⟨rfl, .inl ⟨rfl, hliteral⟩⟩)
  | marked k mark =>
    obtain ⟨rfl, rfl⟩ : use = .shown ∧ t = mark := by simpa using ht
    exact .inr (.inr ⟨rfl, .inr (List.mem_append_right _ List.mem_cons_self)⟩)
  | enclosed k opening closing =>
    have hcases : use = .plain ∧ t = opening ∨ use = .plain ∧ t = closing := by simpa using ht
    exact .inl (hcases.elim And.left And.left)
  | markedFirst | extended | bound => simp at ht
  | commented => simp [Piece.comment] at ht

/-- A token that is in hand to be shown or to be a name is shown by the node that is made. -/
theorem Makes.shows_token (h : Makes table ps n) (ht : .token use t ∈ ps)
    (huse : use = .name ∨ use = .shown) (hmade : t.WellMade) : n.Shows t := by
  have hplain : use ≠ .plain := by rcases huse with rfl | rfl <;> exact Use.noConfusion
  rcases h.token_cases ht with rfl | ⟨form, anchor, marks, spans, hps, rfl⟩ |
    ⟨-, ⟨rfl, hliteral⟩ | hmark⟩
  · exact absurd rfl hplain
  · rcases Piece.isUsed_token.mp (hps.used _ ht) with hout | ⟨hanchor, rfl⟩ | ⟨-, hmark⟩
    · have hsep := Use.isSeparator_of_leavesOut hout hplain
      rcases huse with rfl | rfl <;> cases hsep
    · refine .inl ⟨rfl, ?_⟩
      change form.use? = _ ∨ form.use? = _
      rw [hanchor]
      exact huse.imp (congrArg some) (congrArg some)
    · exact .inr hmark
  · exact .inl ⟨rfl, .inr (use?_ofLiteral (hmade.literal hliteral))⟩
  · exact .inr hmark

section Framed

variable {anchor : Token} {marks : List Token} {spans : List Span} {front back : List Piece}

/-- A token that is left out has a child before it, or the anchor. -/
theorem Framed.before (h : Framed (front ++ .token use t :: back) anchor marks spans)
    (huse : use.isSeparator) (hordered : ∀ p ∈ front, p.Precedes (.token use t)) :
    Piece.nodes front ≠ [] ∨ anchor.stop ≤ t.offset := by
  obtain ⟨p, rest, heq, hp⟩ := h.first
  cases front with
  | nil =>
    obtain ⟨rfl, -⟩ := List.cons.inj heq
    rcases hp with hnode | hanchor
    · cases hnode
    · cases hanchor
      cases huse
  | cons q front =>
    obtain ⟨rfl, -⟩ := List.cons.inj heq
    rcases hp with hnode | rfl
    · obtain ⟨k, hk⟩ := Option.isSome_iff_exists.mp hnode
      refine .inl (List.ne_nil_of_mem (a := k) ?_)
      exact List.mem_filterMap.mpr ⟨q, List.mem_cons_self, hk⟩
    · exact .inr (hordered _ List.mem_cons_self anchor t rfl rfl)

/-- And it has a child behind it, or what the node covers. -/
theorem Framed.behind (h : Framed (front ++ .token use t :: back) anchor marks spans)
    (hsound : ∀ p ∈ front ++ .token use t :: back, p.Sound cs)
    (hordered : ∀ p ∈ back, (Piece.token use t).Precedes p) :
    Piece.nodes back ≠ [] ∨
      ∃ u ∈ spans ++ marks.map Token.span, t.span.stop ≤ u.stop := by
  obtain ⟨rest, p, heq, hp⟩ := h.last
  have hcovered {u : Token} (hu : u ∈ marks ∨ u.span ∈ spans) :
      u.span ∈ spans ++ marks.map Token.span :=
    List.mem_append.mpr (hu.symm.imp_right List.mem_map_of_mem)
  rcases List.eq_nil_or_concat back with rfl | ⟨back, q, rfl⟩
  · have hlast : [Piece.token use t] = [p] := List.append_inj_right' heq rfl
    cases hlast
    rcases hp with hnode | ⟨other, u, hu, hcovers⟩
    · cases hnode
    · cases hu
      exact .inr ⟨t.span, hcovered hcovers, Position.le_refl _⟩
  · have hlast : [q] = [p] := by
      rw [List.concat_eq_append, ← List.cons_append, ← List.append_assoc] at heq
      exact List.append_inj_right' heq rfl
    cases hlast
    have hmem : p ∈ back.concat p := by simp
    rcases hp with hnode | ⟨other, u, rfl, hcovers⟩
    · obtain ⟨k, hk⟩ := Option.isSome_iff_exists.mp hnode
      exact .inl (List.ne_nil_of_mem (List.mem_filterMap.mpr ⟨p, hmem, hk⟩))
    · refine .inr ⟨u.span, hcovered hcovers, ?_⟩
      have ht := (hsound (.token use t) (by simp)).1.toLiesIn
      have hu := (hsound (.token other u) (by simp)).1.toLiesIn
      exact Position.le_trans (ht.span_le hu (hordered _ hmem t u rfl rfl))
        hu.spanLiesIn.start_le_stop

end Framed

/-- A token that is in hand to be left out is left out by the node that is made: the pieces start
with its anchor or a child, and end with what it covers. -/
theorem Makes.leavesOut_token (h : Makes table ps n) (ht : .token use t ∈ ps)
    (huse : use.isSeparator) (hsound : ∀ p ∈ ps, p.Sound cs) (hordered : ps.Pairwise Piece.Precedes) :
    n.LeavesOut cs use t := by
  obtain ⟨hcut, hkind, -⟩ := hsound _ ht
  rcases h.token_cases ht with rfl | ⟨form, anchor, marks, spans, hps, rfl⟩ | ⟨rfl, -⟩
  · cases huse
  · have hform : form.leavesOut use := by
      rcases Piece.isUsed_token.mp (hps.used _ ht) with hout | ⟨hanchor, -⟩ | ⟨rfl, -⟩
      · exact hout
      · exact absurd huse (not_isSeparator_of_use? hanchor)
      · cases huse
    have hframed : Framed ps anchor marks spans :=
      hps.framed.resolve_left fun hwhole => Form.not_leavesOut_of_isWhole hwhole huse hform
    have hhull := Span.within_hull anchor.span (spans ++ marks.map Token.span)
    obtain ⟨front, back, rfl⟩ := List.append_of_mem ht
    obtain ⟨-, hback, hfront⟩ := List.pairwise_append.mp hordered
    refine ⟨hform, hkind, hcut, Piece.nodes front, Piece.nodes back, ?_, ?_, ?_, ?_, ?_⟩
    · change Piece.nodes (front ++ .token use t :: back) = _
      rw [Piece.nodes_append, Piece.nodes_cons_token]
    · exact hframed.before huse fun p hp => hfront p hp _ List.mem_cons_self
    · refine (hframed.behind hsound (List.pairwise_cons.mp hback).1).imp_right ?_
      rintro ⟨u, hu, hstop⟩
      exact Position.le_trans hstop (hhull.2 u hu).stop
    · intro c hc u hu
      exact hfront _ (Piece.mem_nodes.mp hc) _ List.mem_cons_self u t hu rfl
    · intro c hc u hu
      exact (List.pairwise_cons.mp hback).1 _ (Piece.mem_nodes.mp hc) t u rfl hu
  · cases huse

/-- **A node that is made accounts for the tokens** that the pieces account for. -/
theorem Makes.accounts (h : Makes table ps n) (hsound : ∀ p ∈ ps, p.Sound cs)
    (hordered : ps.Pairwise Piece.Precedes) {p : Piece} (hp : p ∈ ps) (ht : p.Accounts cs t) :
    (Piece.node n).Accounts cs t := by
  have hout {use : Use} {t : Token} (huse : use.isSeparator) (ht : p.LeavesOut cs use t) :
      (Piece.node n).LeavesOut cs use t := by
    cases p with
    | token other u =>
      obtain ⟨rfl, rfl⟩ := ht
      exact ⟨n, mem_walk_self n, h.leavesOut_token hp huse hsound hordered⟩
    | node k => exact h.leavesOut_node hp huse ht
    | scope | symbol | error | faults => cases ht
  rcases ht with ht | ⟨a, ha, ht⟩ | ht
  · left
    cases p with
    | token use u =>
      obtain ⟨rfl, huse⟩ := ht
      exact ⟨n, mem_walk_self n, h.shows_token hp huse (hsound _ hp).2.2⟩
    | node k => exact h.shows_node hp ht
    | scope | symbol | error | faults => cases ht
  · exact .inr (.inl ⟨a, hout rfl ha, ht⟩)
  · exact .inr (.inr (hout rfl ht))

end Node

end SableFront
