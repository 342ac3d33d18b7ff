import SableFront.Proofs.Survey.Reading
import SableFront.Proofs.Tiling.Standing

/-!
# Tiling: nodes are nested in each other

Where a text has no comments, the pieces in hand lie one behind the other and before the current
token. A node is made from pieces side by side and covers no more than these, so it takes their
place in the order.

Each production tells in its own way which spans its node covers, and often these are those of some
children only. But if they are not those of all, the first and the last piece are among them
(`Node.Around`); and since the pieces are in order, no child reaches beyond these
(`Around.within`). So the spans of a tree are nested.
-/

namespace SableFront

namespace Span

/-- The first of two spans stops before the other one starts. -/
def Before (s t : Span) : Prop := s.stop ≤ t.start

variable {s t u : Span}

/-- A span that covers another one around has its ends in order if the other one has. -/
theorem Within.start_le_stop (h : s.Within t) (hs : s.start ≤ s.stop) : t.start ≤ t.stop :=
  Position.le_trans h.start (Position.le_trans hs h.stop)

/-- Of spans in order, none starts before the first one. -/
theorem start_le_of_head {ss : List Span} (hordered : ss.Pairwise Before)
    (hsound : ∀ s ∈ ss, s.start ≤ s.stop) (hs : s ∈ ss.head?) (ht : t ∈ ss) : s.start ≤ t.start := by
  obtain ⟨rest, rfl⟩ := List.head?_eq_some_iff.mp hs
  rcases List.mem_cons.mp ht with rfl | ht
  · exact Position.le_refl _
  · exact Position.le_trans (hsound s List.mem_cons_self) ((List.pairwise_cons.mp hordered).1 t ht)

/-- And none stops behind the last one. -/
theorem stop_le_of_getLast {ss : List Span} (hordered : ss.Pairwise Before)
    (hsound : ∀ s ∈ ss, s.start ≤ s.stop) (hs : s ∈ ss.getLast?) (ht : t ∈ ss) : t.stop ≤ s.stop := by
  obtain ⟨front, rfl⟩ := List.getLast?_eq_some_iff.mp hs
  rcases List.mem_append.mp ht with ht | ht
  · have hbefore := (List.pairwise_append.mp hordered).2.2 t ht s List.mem_cons_self
    exact Position.le_trans hbefore (hsound s (List.mem_append_right _ List.mem_cons_self))
  · rw [List.mem_singleton.mp ht]
    exact Position.le_refl _

end Span

theorem Position.origin_le (p : Position) : Position.origin ≤ p := by
  have hline : Position.origin.line = 0 := rfl
  have hcharacter : Position.origin.character = 0 := rfl
  rw [Position.le_def]
  omega

open Grammar

namespace Node

variable {table : SymbolTable} {ps : List Piece} {n : Node} {s u : Span}

/-- What the node is made from lies in it, and its children lie one behind the other. -/
structure Nested (n : Node) : Prop where
  anchor : n.token.span.Within n.span
  marks : ∀ t ∈ n.marks, t.span.Within n.span
  children : ∀ c ∈ n.children, c.span.Within n.span
  ordered : (n.children.map span).Pairwise Span.Before

/-- A node that is nested stays so where its span grows. -/
theorem Nested.grow {m : Node} (h : n.Nested) (hspan : n.span.Within m.span)
    (htoken : m.token = n.token) (hmarks : ∀ t ∈ m.marks, t ∈ n.marks ∨ t.span.Within m.span)
    (hchildren : m.children = n.children) : m.Nested := by
  refine ⟨?_, fun t ht => ?_, fun c hc => ?_, ?_⟩
  · rw [htoken]
    exact h.anchor.trans hspan
  · exact (hmarks t ht).elim (fun ht => (h.marks t ht).trans hspan) id
  · rw [hchildren] at hc
    exact (h.children c hc).trans hspan
  · rw [hchildren]
    exact h.ordered

section Around

variable {spans : List Span}

/-- **Spans that reach around pieces in order** reach around each node among them: one that is not
covered by itself lies between the first and the last piece. -/
theorem Around.within (h : Around ps spans) (hordered : (Piece.spans ps).Pairwise Span.Before)
    (hsound : ∀ s ∈ Piece.spans ps, s.start ≤ s.stop) (hspans : ∀ s ∈ spans, s.Within u)
    (hn : .node n ∈ ps) : n.span.Within u := by
  have hmem := Piece.mem_spans_of_node hn
  cases h with
  | each h => exact hspans _ (h n hn)
  | ends hfirst hlast =>
    obtain ⟨first, hhead⟩ := Option.isSome_iff_exists.mp (List.isSome_head?.mpr (List.ne_nil_of_mem hmem))
    obtain ⟨last, hgetLast⟩ :=
      Option.isSome_iff_exists.mp (List.getLast?_isSome.mpr (List.ne_nil_of_mem hmem))
    exact ⟨Position.le_trans (hspans first (hfirst first hhead)).start
        (Span.start_le_of_head hordered hsound hhead hmem),
      Position.le_trans (Span.stop_le_of_getLast hordered hsound hgetLast hmem)
        (hspans last (hlast last hgetLast)).stop⟩

end Around

/-- Where the anchor of a node comes from, there is a piece around it. -/
theorem within_of_mem_anchors {t : Token} (ht : t ∈ Piece.anchors ps)
    (hps : ∀ s ∈ Piece.spans ps, s.Within u) (hnodes : ∀ k, .node k ∈ ps → k.Nested) :
    t.span.Within u := by
  rcases Piece.mem_anchors.mp ht with ⟨use, ht⟩ | ⟨k, hk, rfl⟩
  · exact hps _ (Piece.mem_spans_of_token ht)
  · exact (hnodes k hk).anchor.trans (hps _ (Piece.mem_spans_of_node hk))

/-- **A node covers no more than the pieces that it is made from.** -/
theorem Makes.within (h : Makes table ps n) (hps : ∀ s ∈ Piece.spans ps, s.Within u)
    (hnodes : ∀ k, .node k ∈ ps → k.Nested) : n.span.Within u := by
  cases h with
  | build hmade hspans =>
    refine (within_of_mem_anchors hmade.mem hps hnodes).hull fun s hs => ?_
    rcases List.mem_append.mp hs with hs | hs
    · exact hps s (hspans.inside s hs)
    · obtain ⟨t, ht, rfl⟩ := List.mem_map.mp hs
      exact hps _ (Piece.mem_spans_of_token (hmade.shown t ht))
  | @literal token => exact hps token.span (by simp)
  | enclosed k opening closing =>
    exact (hps k.span (by simp)).merge ((hps opening.span (by simp)).merge (hps closing.span (by simp)))
  | marked k mark => exact (hps k.span (by simp)).merge (hps mark.span (by simp))
  | markedFirst mark k =>
    have hmark := (hnodes (.leaf .visibility mark) (by simp)).anchor.trans
      (hps (Node.leaf .visibility mark).span (by simp))
    exact (hps k.span (by simp)).merge hmark
  | extended base part => exact (hps base.span (by simp)).merge (hps part.span (by simp))
  | @bound k => exact hps k.span (by simp)
  | commented leading trailing k => exact hps k.span (by simp)

/-- A node covers one of the pieces that it is made from. -/
theorem Makes.exists_within (h : Makes table ps n) (hordered : (Piece.spans ps).Pairwise Span.Before)
    (hsound : ∀ s ∈ Piece.spans ps, s.start ≤ s.stop) : ∃ s ∈ Piece.spans ps, s.Within n.span := by
  cases h with
  | @build _ form anchor marks spans hmade hspans =>
    obtain ⟨hself, hothers⟩ := Span.within_hull anchor.span (spans ++ marks.map Token.span)
    rcases Piece.mem_anchors.mp hmade.mem with ⟨use, hanchor⟩ | ⟨k, hk, -⟩
    · exact ⟨_, Piece.mem_spans_of_token hanchor, hself⟩
    · exact ⟨_, Piece.mem_spans_of_node hk,
        hspans.around.within hordered hsound (List.forall_mem_cons.mpr ⟨hself, hothers⟩) hk⟩
  | @literal token => exact ⟨token.span, by simp, .refl _⟩
  | enclosed k | marked k | extended k => exact ⟨k.span, by simp, (Span.within_merge _ _).1⟩
  | markedFirst m k => exact ⟨k.span, by simp, (Span.within_merge _ _).1⟩
  | @bound k => exact ⟨k.span, by simp, .refl _⟩
  | commented leading trailing k => exact ⟨k.span, by simp, .refl _⟩

/-- A leaf is nested. -/
theorem nested_leaf (form : Form) (t : Token) : (leaf form t).Nested :=
  ⟨.refl _, List.forall_mem_nil _, List.forall_mem_nil _, .nil⟩

/-- **A node that is made from nested nodes in their order is nested.** -/
theorem Makes.nested (h : Makes table ps n) (hordered : (Piece.spans ps).Pairwise Span.Before)
    (hsound : ∀ s ∈ Piece.spans ps, s.start ≤ s.stop) (hnodes : ∀ k, .node k ∈ ps → k.Nested) :
    n.Nested := by
  cases h with
  | @build _ form anchor marks spans _ hspans =>
    obtain ⟨hself, hothers⟩ := Span.within_hull anchor.span (spans ++ marks.map Token.span)
    refine ⟨hself, fun t ht => ?_, fun c hc => ?_, ?_⟩
    · exact hothers _ (List.mem_append_right _ (List.mem_map_of_mem ht))
    · exact hspans.around.within hordered hsound (List.forall_mem_cons.mpr ⟨hself, hothers⟩)
        (Piece.mem_nodes.mp hc)
    · exact hordered.sublist (Piece.map_span_nodes_sublist ps)
  | literal => exact nested_leaf _ _
  | enclosed k opening closing =>
    exact (hnodes k (by simp)).grow (Span.within_merge _ _).1 rfl (fun t ht => .inl ht) rfl
  | marked k mark =>
    obtain ⟨hself, hmark⟩ := Span.within_merge k.span mark.span
    refine (hnodes k (by simp)).grow hself rfl (fun t ht => ?_) rfl
    refine (List.mem_append.mp ht).imp_right fun ht => ?_
    rw [List.mem_singleton.mp ht]
    exact hmark
  | markedFirst mark k =>
    obtain ⟨hself, hmark⟩ := Span.within_merge k.span mark.span
    refine (hnodes k (by simp)).grow hself rfl (fun t ht => ?_) rfl
    rcases List.mem_cons.mp ht with rfl | ht
    · exact .inr hmark
    · exact .inl ht
  | extended base part =>
    obtain ⟨hself, hpart⟩ := Span.within_merge base.span part.span
    have hbase := hnodes base (by simp)
    have hbefore : base.span.Before part.span := by simpa using hordered
    refine ⟨hbase.anchor.trans hself, fun t ht => (hbase.marks t ht).trans hself, fun c hc => ?_, ?_⟩
    · rcases List.mem_append.mp hc with hc | hc
      · exact (hbase.children c hc).trans hself
      · rw [List.mem_singleton.mp hc]
        exact hpart
    · change ((base.children ++ [part]).map Node.span).Pairwise Span.Before
      rw [List.map_append, List.pairwise_append]
      refine ⟨hbase.ordered, List.pairwise_singleton _ _, fun s hs t ht => ?_⟩
      obtain ⟨c, hc, rfl⟩ := List.mem_map.mp hs
      rw [List.mem_singleton.mp ht]
      exact Position.le_trans (hbase.children c hc).stop hbefore
  | @bound k => exact (hnodes k (by simp)).grow (.refl _) rfl (fun t ht => .inl ht) rfl
  | commented leading trailing k =>
    exact (hnodes k (by simp)).grow (.refl _) rfl (fun t ht => .inl ht) rfl

end Node

namespace Grammar

open Node

/-- The pieces in hand lie one behind the other before the current token, and nodes are nested. -/
structure Nesting (cs : List Char) (ps : List Piece) (s : State) : Prop where
  stands : s.StandsIn cs
  sound : ∀ u ∈ Piece.spans ps, u.start ≤ u.stop
  passed : ∀ u ∈ Piece.spans ps, u.stop ≤ s.current.span.start
  ordered : (Piece.spans ps).Pairwise Span.Before
  nodes : Piece.AllNodes Nested ps

namespace Nesting

variable {cs : List Char} {ps qs rs : List Piece} {s t : State} {n : Node} {p : Piece} {u : Span}

theorem congr (h : Nesting cs ps s) (hlexer : t.lexer = s.lexer)
    (hcomments : t.comments ⊆ s.comments) : Nesting cs ps t := by
  refine ⟨h.stands.congr hlexer hcomments, h.sound, ?_, h.ordered, h.nodes⟩
  unfold State.current
  rw [hlexer]
  exact h.passed

theorem sublist (h : Nesting cs ps s) (hqs : qs.Sublist ps) : Nesting cs qs s := by
  have hspans : (Piece.spans qs).Sublist (Piece.spans ps) := hqs.filterMap _
  exact ⟨h.stands, fun u hu => h.sound u (hspans.subset hu), fun u hu => h.passed u (hspans.subset hu),
    h.ordered.sublist hspans, h.nodes.subset hqs.subset⟩

/-- What is kept in mind is nowhere in the text. -/
theorem mind (h : Nesting cs (ps ++ qs) s) (hp : p.isMental) : Nesting cs (ps ++ p :: qs) s := by
  have hspans : Piece.spans (ps ++ p :: qs) = Piece.spans (ps ++ qs) := by
    rw [Piece.spans_append, Piece.spans_append, Piece.spans_cons_of_isMental hp]
  exact ⟨h.stands, hspans ▸ h.sound, hspans ▸ h.passed, hspans ▸ h.ordered,
    h.nodes.insert (Piece.node?_of_isMental hp)⟩

/-- One more piece is in hand behind the others, and before what is then the current token. -/
theorem push (h : Nesting cs ps s) (ht : t.StandsIn cs) (hp : p.span? = some u)
    (hsound : u.start ≤ u.stop) (hstart : s.current.span.start ≤ u.start)
    (hstop : u.stop ≤ t.current.span.start) (hnodes : Piece.AllNodes Nested (ps ++ [p])) :
    Nesting cs (ps ++ [p]) t := by
  have hspans : Piece.spans (ps ++ [p]) = Piece.spans ps ++ [u] := by
    rw [Piece.spans_append, Piece.spans, Piece.spans, List.filterMap_cons, hp]
    rfl
  have hbehind (v : Span) (hv : v ∈ Piece.spans ps) : v.Before u :=
    Position.le_trans (h.passed v hv) hstart
  refine ⟨ht, fun v hv => ?_, fun v hv => ?_, ?_, hnodes⟩
  · rw [hspans] at hv
    rcases List.mem_append.mp hv with hv | hv
    · exact h.sound v hv
    · rw [List.mem_singleton.mp hv]
      exact hsound
  · rw [hspans] at hv
    rcases List.mem_append.mp hv with hv | hv
    · exact Position.le_trans (hbehind v hv) (Position.le_trans hsound hstop)
    · rw [List.mem_singleton.mp hv]
      exact hstop
  · rw [hspans, List.pairwise_append]
    refine ⟨h.ordered, List.pairwise_singleton _ _, fun v hv w hw => ?_⟩
    rw [List.mem_singleton.mp hw]
    exact hbehind v hv

theorem advance (h : Nesting cs ps s) (use : Use) :
    Nesting cs (ps ++ [.token use s.current]) s.advance := by
  obtain ⟨hstands, hle⟩ := h.stands.advance
  have hcurrent := h.stands.lexer.cuts.token.toLiesIn
  have hnext := hstands.lexer.cuts.token.toLiesIn
  exact h.push hstands rfl hcurrent.spanLiesIn.start_le_stop (Position.le_refl _)
    (hcurrent.span_le hnext hle) (h.nodes.push (.inl rfl))

theorem split (h : Nesting cs ps s) :
    Nesting cs ps { s with lexer := s.lexer.splitAngle?.getD s.lexer } := by
  have hstart : (s.lexer.splitAngle?.getD s.lexer).token.span.start = s.current.span.start := by
    cases hsplit : s.lexer.splitAngle? with
    | none => rfl
    | some l =>
      obtain ⟨hcuts, hoffset⟩ := h.stands.lexer.cuts.split hsplit
      change l.token.span.start = s.lexer.token.span.start
      rw [hcuts.token.span, h.stands.lexer.cuts.token.span, hoffset]
  exact ⟨h.stands.split, h.sound, fun u hu => hstart ▸ h.passed u hu, h.ordered, h.nodes⟩

theorem missing (h : Nesting cs ps s) : Nesting cs (ps ++ [.node s.placeholder]) s :=
  h.push h.stands rfl (Position.le_refl _) (Position.le_refl _) (Position.le_refl _)
    (h.nodes.push (.inr ⟨_, _, rfl, nested_leaf _ _⟩))

/-- **A node takes the place of the pieces that it is made from.** -/
theorem make (h : Nesting cs (ps ++ (qs ++ rs)) s) (hn : Makes s.symbols qs n) :
    Nesting cs (ps ++ .node n :: rs) s := by
  have hself (k : Node) (hk : .node k ∈ qs) : k.Nested := (h.nodes k (by simp [hk])).self
  have hsound := h.sound
  have hpassed := h.passed
  have hordered := h.ordered
  simp only [Piece.spans_append, List.mem_append, List.pairwise_append] at hsound hpassed hordered
  obtain ⟨hps, ⟨hqs, hrs, hqr⟩, hpqr⟩ := hordered
  have hpieces (w : Span) (hw : w ∈ Piece.spans qs) : w.start ≤ w.stop := hsound w (.inr (.inl hw))
  obtain ⟨v, hv, hvn⟩ := hn.exists_within hqs hpieces
  have hstop : n.span.stop ≤ s.current.span.start :=
    (hn.within (u := ⟨.origin, s.current.span.start⟩) (fun w hw =>
      ⟨Position.origin_le _, hpassed w (.inr (.inl hw))⟩) hself).stop
  have hbehind (w : Span) (hw : w ∈ Piece.spans ps) : w.Before n.span :=
    (hn.within (u := ⟨w.stop, s.current.span.start⟩) (fun x hx =>
      ⟨hpqr w hw x (.inl hx), hpassed x (.inr (.inl hx))⟩) hself).start
  have hbefore (w : Span) (hw : w ∈ Piece.spans rs) : n.span.Before w :=
    (hn.within (u := ⟨.origin, w.start⟩) (fun x hx =>
      ⟨Position.origin_le _, hqr x hx w hw⟩) hself).stop
  have hmem {w : Span} (hw : w ∈ Piece.spans (ps ++ .node n :: rs)) :
      w ∈ Piece.spans ps ∨ w = n.span ∨ w ∈ Piece.spans rs := by
    rwa [Piece.spans_append, Piece.spans_cons_node, List.mem_append, List.mem_cons] at hw
  refine ⟨h.stands, fun w hw => ?_, fun w hw => ?_, ?_, h.nodes.make hn (hn.nested hqs hpieces hself)⟩
  · rcases hmem hw with hw | rfl | hw
    · exact hsound w (.inl hw)
    · exact hvn.start_le_stop (hpieces v hv)
    · exact hsound w (.inr (.inr hw))
  · rcases hmem hw with hw | rfl | hw
    · exact hpassed w (.inl hw)
    · exact hstop
    · exact hpassed w (.inr (.inr hw))
  · rw [Piece.spans_append, Piece.spans_cons_node, List.pairwise_append, List.pairwise_cons]
    refine ⟨hps, ⟨hbefore, hrs⟩, fun w hw x hx => ?_⟩
    rcases List.mem_cons.mp hx with rfl | hx
    · exact hbehind w hw
    · exact hpqr w hw x (.inr hx)

/-- Where the text has no comments, none is collected. -/
theorem collect (h : Nesting cs ps s) (hnone : Text.comments cs = []) {taken waiting : List Token}
    (htaken : taken ⊆ s.comments) (hwaiting : waiting ⊆ s.comments) :
    Nesting cs (ps ++ taken.map .comment) { s with comments := waiting } := by
  have hempty : taken = [] :=
    List.subset_nil.mp (List.Subset.trans htaken (hnone ▸ h.stands.comments))
  rw [hempty, List.map_nil, List.append_nil]
  exact h.congr rfl hwaiting

theorem record (h : Nesting cs ps s) (e : SyntaxError) : Nesting cs ps (s.record e) := by
  unfold State.record
  split
  · exact h
  · exact h.congr rfl (List.Subset.refl _)

theorem rewind (h : Nesting cs ps s) (ht : Nesting cs ps t) : Nesting cs ps (t.rewind s) :=
  ⟨h.stands.rewind ht.stands, h.sound, h.passed, h.ordered, h.nodes⟩

end Nesting

theorem loose_nesting {cs : List Char} (hnone : Text.comments cs = []) :
    Survey.Loose (fun _ => True) (Nesting cs) where
  fit_current _ := trivial
  fit _ _ := trivial
  congr h hlexer _ hcomments _ _ := Nesting.congr h hlexer (hcomments ▸ List.Subset.refl _)
  sublist h hqs := Nesting.sublist h hqs
  mind h hp := Nesting.mind h hp
  advance h _ := Nesting.advance h _
  split h _ := Nesting.split h
  record h _ := Nesting.record h _
  missing h := Nesting.missing h
  make h hn := Nesting.make h hn
  collect h htaken hwaiting := Nesting.collect h hnone htaken hwaiting
  operate h _ _ := Nesting.congr h rfl (List.Subset.refl _)
  rewind h ht := Nesting.rewind h ht

end Grammar

open Node

/-- **Spans are nested and in the order of the text.** In a program without comments, a node covers
its anchor, its marks and its children; of two of its children the first one ends before the second
one starts; and so it is with the nodes at the top. -/
theorem spans_are_nested (source : String) (config : ParseConfig)
    (hcomments : ∀ t ∈ tokenize source, t.kind.isComment = false) :
    let p := Program.parse source config
    (∀ n ∈ walkAll p.nodes,
      n.token.span.Within n.span ∧ (∀ t ∈ n.marks, t.span.Within n.span) ∧
      (∀ c ∈ n.children, c.span.Within n.span) ∧
      n.children.Pairwise fun c d => c.span.stop ≤ d.span.start) ∧
    p.nodes.Pairwise fun c d => c.span.stop ≤ d.span.start := by
  intro p
  have hnone : Text.comments source.toList = [] :=
    List.filter_eq_nil_iff.mpr fun t ht => Bool.eq_false_iff.mp (hcomments t ht)
  have hstart : Grammar.Nesting source.toList [] (Grammar.State.start source config) :=
    ⟨.start source config, List.forall_mem_nil _, List.forall_mem_nil _, .nil, .nil⟩
  obtain ⟨s, hnesting, -, -, -⟩ :=
    Grammar.Survey.reading_keeps ((Grammar.loose_nesting hnone).whole _) hstart
  refine ⟨fun n hn => ?_, ?_⟩
  · have hnested := (hnesting.nodes.walkAll hn).self
    exact ⟨hnested.anchor, hnested.marks, hnested.children, List.pairwise_map.mp hnested.ordered⟩
  · have hordered := hnesting.ordered
    have hsub := Piece.map_span_nodes_sublist (p.nodes.map .node)
    rw [Piece.nodes_map_node] at hsub
    exact List.pairwise_map.mp (hordered.sublist hsub)

/-- Parentheses, generic arguments that are closed by a token of two `>`, a visibility and an operand
that is missing. -/
theorem spans_are_nested_with_errors :
    let source := "public Int32<Char<Bool>> f = (1 + g(2, 3)) * [4]\n x.y = 5 +"
    let p := Program.parse source .standard
    (tokenize source).all (fun t => !t.kind.isComment) ∧ p.errors ≠ [] ∧
    (∀ n ∈ walkAll p.nodes,
      n.token.span.Within n.span ∧ (∀ t ∈ n.marks, t.span.Within n.span) ∧
      (∀ c ∈ n.children, c.span.Within n.span) ∧
      n.children.Pairwise fun c d => c.span.stop ≤ d.span.start) ∧
    p.nodes.Pairwise fun c d => c.span.stop ≤ d.span.start := by
  intro source p
  have hall : (tokenize source).all (fun t => !t.kind.isComment) := by decide +kernel
  refine ⟨hall, by decide +kernel, spans_are_nested source .standard fun t ht => ?_⟩
  exact Bool.not_eq_true' _ ▸ List.all_eq_true.mp hall t ht

end SableFront
