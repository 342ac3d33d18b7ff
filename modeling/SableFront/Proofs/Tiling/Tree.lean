import SableFront.Proofs.Survey.Reading
import SableFront.Proofs.Tiling.Standing

/-!
# Tiling: the tokens of a program and its spans

Whatever tokens a program keeps, in its nodes and its errors, lie in the text: also those that are
left of a token of several `>`, those that stand for what is missing, and the comments that were
attached long after they were passed. Any two tokens that nodes keep are the same or lie apart
(`Gathered`). The span of a node is the least one around some of these tokens and the anchor among
them, so it is cut from the text as well, and its ends are found again from their positions.
-/

namespace SableFront

open Grammar

/-! ### The tokens that are kept -/

namespace Node

/-- The tokens that a node keeps itself: its anchor, its marks and its comments. -/
def ownTokens (n : Node) : List Token := n.token :: (n.marks ++ (n.leading ++ n.trailing))

variable {n : Node} {t u : Token}

theorem mem_ownTokens :
    t ∈ n.ownTokens ↔ t = n.token ∨ t ∈ n.marks ∨ t ∈ n.leading ∨ t ∈ n.trailing := by
  rw [ownTokens, List.mem_cons, List.mem_append, List.mem_append]

theorem token_mem_ownTokens (n : Node) : n.token ∈ n.ownTokens := List.mem_cons_self

theorem ownTokens_build (form : Form) (anchor : Token) (children : List Node) (ms : List Token)
    (further : List Span) : (build form anchor children ms further).ownTokens = anchor :: ms :=
  congrArg (anchor :: ·) (List.append_nil ms)

theorem mem_ownTokens_mark : t ∈ (n.mark u).ownTokens ↔ t ∈ n.ownTokens ∨ t = u := by
  have hmarks : (n.mark u).marks = n.marks ++ [u] := rfl
  rw [mem_ownTokens, mem_ownTokens, hmarks, List.mem_append, List.mem_singleton]
  tauto

theorem mem_ownTokens_markFirst : t ∈ (n.markFirst u).ownTokens ↔ t ∈ n.ownTokens ∨ t = u := by
  have hmarks : (n.markFirst u).marks = u :: n.marks := rfl
  rw [mem_ownTokens, mem_ownTokens, hmarks, List.mem_cons]
  tauto

theorem mem_ownTokens_withComments {leading trailing : List Token}
    (h : t ∈ (withComments leading trailing n).ownTokens) :
    t ∈ n.ownTokens ∨ t ∈ leading ∨ t ∈ trailing := by
  rcases mem_ownTokens.mp h with h | h | h | h
  · exact .inl (mem_ownTokens.mpr (.inl h))
  · exact .inl (mem_ownTokens.mpr (.inr (.inl h)))
  · exact .inr (.inl h)
  · exact .inr (.inr h)

end Node

namespace Piece

/-- A token is kept by a piece, or by a node in it. -/
inductive Keeps (t : Token) : Piece → Prop
  | token (use : Use) : Keeps t (.token use t)
  | node {n m : Node} (hm : m ∈ n.walk) (ht : t ∈ m.ownTokens) : Keeps t (.node n)

/-- A token is kept by one of some pieces. -/
def Kept (ps : List Piece) (t : Token) : Prop := ∃ p ∈ ps, p.Keeps t

variable {ps qs : List Piece} {t : Token} {n : Node} {p : Piece}

theorem Kept.mono (h : Kept ps t) (hps : ps ⊆ qs) : Kept qs t := by
  obtain ⟨p, hp, ht⟩ := h
  exact ⟨p, hps hp, ht⟩

theorem kept_append : Kept (ps ++ qs) t ↔ Kept ps t ∨ Kept qs t := by
  unfold Kept
  constructor
  · rintro ⟨p, hp, ht⟩
    exact (List.mem_append.mp hp).imp (fun h => ⟨p, h, ht⟩) fun h => ⟨p, h, ht⟩
  · rintro (⟨p, hp, ht⟩ | ⟨p, hp, ht⟩)
    · exact ⟨p, List.mem_append_left _ hp, ht⟩
    · exact ⟨p, List.mem_append_right _ hp, ht⟩

theorem kept_of_token (use : Use) (h : .token use t ∈ ps) : Kept ps t := ⟨_, h, .token use⟩

theorem kept_of_node (h : .node n ∈ ps) (ht : t ∈ n.ownTokens) : Kept ps t :=
  ⟨_, h, .node (Node.mem_walk_self n) ht⟩

theorem kept_of_mem_walkAll {ns : List Node} {m : Node} (hm : m ∈ Node.walkAll ns)
    (ht : t ∈ m.ownTokens) : Kept (ns.map .node) t := by
  obtain ⟨n, hn, hbelow⟩ := Node.mem_walkAll_iff.mp hm
  exact ⟨_, List.mem_map.mpr ⟨n, hn, rfl⟩, .node hbelow ht⟩

theorem kept_of_mem_anchors (h : t ∈ anchors ps) : Kept ps t := by
  rcases mem_anchors.mp h with ⟨use, ht⟩ | ⟨n, hn, rfl⟩
  · exact kept_of_token use ht
  · exact kept_of_node hn n.token_mem_ownTokens

/-- What is kept in mind keeps no token. -/
theorem not_keeps_of_isMental (hp : p.isMental) : ¬ p.Keeps t := fun hkeeps => by
  cases hkeeps <;> cases hp

/-- A leaf keeps its anchor only. -/
theorem eq_of_keeps_leaf {form : Form} {anchor : Token} (h : (node (.leaf form anchor)).Keeps t) :
    t = anchor := by
  cases h with
  | node hm ht =>
    rw [Node.leaf, Node.build, Node.walk, Node.walkAll, List.mem_singleton] at hm
    subst hm
    simpa [Node.ownTokens, Node.token, Node.marks, Node.leading, Node.trailing, Node.data] using ht

/-- One more token is in hand. -/
theorem kept_push {use : Use} {u : Token} (h : Kept (ps ++ [.token use u]) t) : Kept ps t ∨ t = u := by
  refine (kept_append.mp h).imp_right ?_
  rintro ⟨p, hp, hkeeps⟩
  rw [List.mem_singleton.mp hp] at hkeeps
  cases hkeeps
  rfl

/-- One more leaf is in hand. -/
theorem kept_leaf {form : Form} {anchor : Token} (h : Kept (ps ++ [.node (.leaf form anchor)]) t) :
    Kept ps t ∨ t = anchor := by
  refine (kept_append.mp h).imp_right ?_
  rintro ⟨p, hp, hkeeps⟩
  rw [List.mem_singleton.mp hp] at hkeeps
  exact eq_of_keeps_leaf hkeeps

/-- Comments have become nodes. -/
theorem kept_comments {ts : List Token} (h : Kept (ps ++ ts.map .comment) t) : Kept ps t ∨ t ∈ ts := by
  refine (kept_append.mp h).imp_right ?_
  rintro ⟨p, hp, hkeeps⟩
  obtain ⟨c, hc, rfl⟩ := List.mem_map.mp hp
  rw [eq_of_keeps_leaf hkeeps]
  exact hc

/-- What is kept in mind is nowhere in the text. -/
theorem kept_mind (hp : p.isMental) (h : Kept (ps ++ p :: qs) t) : Kept (ps ++ qs) t := by
  obtain ⟨q, hq, hkeeps⟩ := h
  simp only [List.mem_append, List.mem_cons] at hq
  rcases hq with hq | rfl | hq
  · exact ⟨q, by simp [hq], hkeeps⟩
  · exact absurd hkeeps (not_keeps_of_isMental hp)
  · exact ⟨q, by simp [hq], hkeeps⟩

end Piece

namespace Node

variable {table : SymbolTable} {ps qs rs : List Piece} {n m : Node} {t : Token}

/-- A node that is made keeps only tokens that the pieces keep. -/
theorem Makes.kept_of_mem_ownTokens (h : Makes table ps n) (ht : t ∈ n.ownTokens) :
    Piece.Kept ps t := by
  cases h with
  | build hps _ =>
    rw [ownTokens_build] at ht
    rcases List.mem_cons.mp ht with rfl | ht
    · exact Piece.kept_of_mem_anchors hps.mem
    · exact Piece.kept_of_token .shown (hps.shown t ht)
  | @literal token =>
    have hself : (Piece.node (.ofLiteral token)).Keeps t := .node (mem_walk_self _) ht
    rw [Piece.eq_of_keeps_leaf hself]
    exact Piece.kept_of_token .shown List.mem_cons_self
  | enclosed k | extended k _ | @bound k => exact Piece.kept_of_node (n := k) (by simp) ht
  | marked k mark =>
    rcases mem_ownTokens_mark.mp ht with ht | rfl
    · exact Piece.kept_of_node (n := k) (by simp) ht
    · exact Piece.kept_of_token .shown (by simp)
  | markedFirst mark n =>
    rcases mem_ownTokens_markFirst.mp ht with ht | rfl
    · exact Piece.kept_of_node (n := n) (by simp) ht
    · exact Piece.kept_of_node (n := .leaf .visibility t) (by simp) (token_mem_ownTokens _)
  | commented leading trailing k =>
    rcases mem_ownTokens_withComments ht with ht | ht | ht
    · exact Piece.kept_of_node (n := k) (by simp) ht
    · refine Piece.kept_of_node (n := .ofComment t) ?_ (token_mem_ownTokens _)
      exact List.mem_append_left _ (List.mem_map.mpr ⟨t, ht, rfl⟩)
    · refine Piece.kept_of_node (n := .ofComment t) ?_ (token_mem_ownTokens _)
      exact List.mem_append_right _ (List.mem_cons_of_mem _ (List.mem_map.mpr ⟨t, ht, rfl⟩))

/-- And so do all nodes below it. -/
theorem Makes.kept (h : Makes table ps n) (hn : (Piece.node n).Keeps t) : Piece.Kept ps t := by
  cases hn with
  | node hm ht =>
    have hall : n.Everywhere fun m => ∀ t ∈ m.ownTokens, Piece.Kept ps t :=
      h.everywhere (fun _ => h.kept_of_mem_ownTokens) fun k hk m hm t ht => ⟨_, hk, .node hm ht⟩
    exact hall _ hm t ht

/-- A node has been made of some of the pieces. -/
theorem Makes.kept_among (h : Makes table qs n) (ht : Piece.Kept (ps ++ .node n :: rs) t) :
    Piece.Kept (ps ++ (qs ++ rs)) t := by
  obtain ⟨p, hp, hkeeps⟩ := ht
  simp only [List.mem_append, List.mem_cons] at hp
  rcases hp with hp | rfl | hp
  · exact ⟨p, by simp [hp], hkeeps⟩
  · exact (h.kept hkeeps).mono fun p hp => by simp [hp]
  · exact ⟨p, by simp [hp], hkeeps⟩

end Node

/-! ### Where the kept tokens are -/

/-- Tokens that are cut from the text, any two of them the same or apart. They are comments, or
apart from all comments and passed. -/
structure Gathered (cs : List Char) (T : Token → Prop) (current : Token) : Prop where
  cut : ∀ t, T t → t.CutFrom cs
  passed : ∀ t, T t → t ∈ Text.comments cs ∨
    (∀ c ∈ Text.comments cs, c.Apart t) ∧ t.stop ≤ current.offset
  apart : ∀ t u, T t → T u → t = u ∨ t.Apart u

namespace Gathered

variable {cs : List Char} {T T' : Token → Prop} {current current' u : Token}

theorem mono (h : Gathered cs T current) (hT : ∀ t, T' t → T t) : Gathered cs T' current :=
  ⟨fun t ht => h.cut t (hT t ht), fun t ht => h.passed t (hT t ht),
    fun t u ht hu => h.apart t u (hT t ht) (hT u hu)⟩

/-- Tokens that are passed stay so. -/
theorem later (h : Gathered cs T current) (hle : current.offset ≤ current'.offset) :
    Gathered cs T current' :=
  ⟨h.cut, fun t ht => (h.passed t ht).imp_right fun ⟨hapart, hstop⟩ =>
    ⟨hapart, Nat.le_trans hstop hle⟩, h.apart⟩

/-- One more token is passed. -/
theorem pass (h : Gathered cs T current) (hT : ∀ t, T' t → T t ∨ t = u) (hcut : u.CutFrom cs)
    (hapart : ∀ c ∈ Text.comments cs, c.Apart u) (hle : current.offset ≤ u.offset)
    (hstop : u.stop ≤ current'.offset) : Gathered cs T' current' := by
  have hbehind (t : Token) (ht : T t) : t.Apart u := by
    rcases h.passed t ht with hcomment | ⟨-, hpassed⟩
    · exact hapart t hcomment
    · exact .inl (Nat.le_trans hpassed hle)
  have hlater := h.later (Nat.le_trans hle (Nat.le_trans u.offset_le_stop hstop))
  refine ⟨fun t ht => ?_, fun t ht => ?_, fun t v ht hv => ?_⟩
  · rcases hT t ht with ht | rfl
    · exact h.cut t ht
    · exact hcut
  · rcases hT t ht with ht | rfl
    · exact hlater.passed t ht
    · exact .inr ⟨hapart, hstop⟩
  · rcases hT t ht with ht | rfl
    · rcases hT v hv with hv | rfl
      · exact h.apart t v ht hv
      · exact .inr (hbehind t ht)
    · rcases hT v hv with hv | rfl
      · exact .inr (hbehind v hv).symm
      · exact .inl rfl

/-- Comments are taken out of the text. -/
theorem comment (h : Gathered cs T current) (hT : ∀ t, T' t → T t ∨ t ∈ Text.comments cs) :
    Gathered cs T' current := by
  have hapart (t c : Token) (ht : T t) (hc : c ∈ Text.comments cs) : c = t ∨ c.Apart t := by
    rcases h.passed t ht with hcomment | ⟨hall, -⟩
    · exact Text.apart_of_mem_comments hc hcomment
    · exact .inr (hall c hc)
  refine ⟨fun t ht => ?_, fun t ht => ?_, fun t u ht hu => ?_⟩
  · rcases hT t ht with ht | ht
    · exact h.cut t ht
    · exact Text.cutFrom_of_mem_comments ht
  · rcases hT t ht with ht | ht
    · exact h.passed t ht
    · exact .inl ht
  · rcases hT t ht with ht | ht
    · rcases hT u hu with hu | hu
      · exact h.apart t u ht hu
      · exact (hapart t u ht hu).imp Eq.symm Token.Apart.symm
    · rcases hT u hu with hu | hu
      · exact hapart u t hu ht
      · exact Text.apart_of_mem_comments ht hu

end Gathered

/-! ### The spans of nodes -/

namespace Node

/-- The span of the node is cut from the text, and its anchor lies in it. -/
structure Located (cs : List Char) (n : Node) : Prop where
  span : n.span.LiesIn cs
  anchor : n.token.span.Within n.span

variable {cs : List Char} {table : SymbolTable} {ps : List Piece} {n : Node} {s : Span}

/-- Only the span and the anchor matter. -/
theorem Located.congr {m : Node} (h : n.Located cs) (hspan : m.span = n.span)
    (htoken : m.token = n.token) : m.Located cs :=
  ⟨hspan ▸ h.span, by rw [hspan, htoken]; exact h.anchor⟩

theorem Located.cover (h : n.Located cs) (hs : s.LiesIn cs) : (n.cover s).Located cs :=
  ⟨h.span.merge hs, h.anchor.trans (Span.within_merge n.span s).1⟩

theorem located_build (form : Form) {anchor : Token} {children : List Node} {ms : List Token}
    {spans : List Span} (hanchor : anchor.span.LiesIn cs)
    (hothers : ∀ s ∈ spans ++ ms.map Token.span, s.LiesIn cs) :
    (build form anchor children ms spans).Located cs :=
  ⟨hanchor.hull hothers, (Span.within_hull _ _).1⟩

/-- The span of a node that is made is the least one around others that are cut from the text. -/
theorem Makes.located (h : Makes table ps n) (htokens : ∀ t, Piece.Kept ps t → t.span.LiesIn cs)
    (hnodes : ∀ k, .node k ∈ ps → k.Located cs) : n.Located cs := by
  cases h with
  | build hps hspans =>
    refine located_build _ (htokens _ (Piece.kept_of_mem_anchors hps.mem)) fun s hs => ?_
    rcases List.mem_append.mp hs with hs | hs
    · obtain ⟨p, hp, hspan⟩ := Piece.mem_spans.mp (hspans.inside s hs)
      cases p with
      | token use t =>
        cases hspan
        exact htokens t (Piece.kept_of_token use hp)
      | node k =>
        cases hspan
        exact (hnodes k hp).span
      | scope | symbol | error | faults => cases hspan
    · obtain ⟨t, ht, rfl⟩ := List.mem_map.mp hs
      exact htokens t (Piece.kept_of_token .shown (hps.shown t ht))
  | literal =>
    exact located_build _ (htokens _ (Piece.kept_of_token .shown List.mem_cons_self))
      (List.forall_mem_nil _)
  | enclosed k opening closing =>
    have hopening := htokens opening (Piece.kept_of_token .plain (by simp))
    have hclosing := htokens closing (Piece.kept_of_token .plain (by simp))
    exact (hnodes k (by simp)).cover (hopening.merge hclosing)
  | marked k mark =>
    have hmark := htokens mark (Piece.kept_of_token .shown (by simp))
    exact ((hnodes k (by simp)).cover hmark).congr rfl rfl
  | markedFirst mark k =>
    have hmark := htokens mark (Piece.kept_of_node (n := .leaf .visibility mark) (by simp)
      (token_mem_ownTokens _))
    exact ((hnodes k (by simp)).cover hmark).congr rfl rfl
  | extended base part =>
    exact ((hnodes base (by simp)).cover (hnodes part (by simp)).span).congr rfl rfl
  | @bound k => exact (hnodes k (by simp)).congr rfl rfl
  | commented leading trailing k => exact (hnodes k (by simp)).congr rfl rfl

theorem located_leaf (form : Form) {t : Token} (ht : t.span.LiesIn cs) :
    (leaf form t).Located cs := located_build form ht (List.forall_mem_nil _)

end Node

/-! ### The survey of places -/

namespace Grammar

open Node

/-- Reading stands in the text, and what is kept lies in it. -/
structure Locating (cs : List Char) (ps : List Piece) (s : State) : Prop where
  stands : s.StandsIn cs
  errors : ∀ e ∈ s.errors, e.token.LiesIn cs
  gathered : Gathered cs (Piece.Kept ps) s.current
  nodes : Piece.AllNodes (Located cs) ps

namespace Locating

variable {cs : List Char} {ps qs rs : List Piece} {s t : State} {n : Node}

theorem sublist (h : Locating cs ps s) (hqs : qs ⊆ ps) : Locating cs qs s :=
  ⟨h.stands, h.errors, h.gathered.mono fun _ ht => ht.mono hqs, h.nodes.subset hqs⟩

theorem advance (h : Locating cs ps s) (use : Use) :
    Locating cs (ps ++ [.token use s.current]) s.advance := by
  obtain ⟨hstands, hle⟩ := h.stands.advance
  refine ⟨hstands, s.errors_advance ▸ h.errors, ?_, h.nodes.push (.inl rfl)⟩
  exact h.gathered.pass (fun t ht => Piece.kept_push ht) h.stands.lexer.cuts.token
    (fun c => h.stands.lexer.apart) (Nat.le_refl _) hle

theorem split (h : Locating cs ps s) :
    Locating cs ps { s with lexer := s.lexer.splitAngle?.getD s.lexer } := by
  have hoffset : s.current.offset ≤ (s.lexer.splitAngle?.getD s.lexer).token.offset := by
    cases hsplit : s.lexer.splitAngle? with
    | none => exact Nat.le_refl _
    | some l => exact Nat.le_of_eq (h.stands.lexer.cuts.split hsplit).2.symm
  exact ⟨h.stands.split, h.errors, h.gathered.later hoffset, h.nodes⟩

theorem record (h : Locating cs ps s) {e : SyntaxError} (he : e.token.LiesIn cs) :
    Locating cs ps (s.record e) := by
  unfold State.record
  split
  · exact h
  · refine ⟨h.stands.congr rfl (List.Subset.refl _), fun d hd => ?_, h.gathered, h.nodes⟩
    rcases List.mem_append.mp hd with hd | hd
    · exact h.errors d hd
    · rw [List.mem_singleton.mp hd]
      exact he

theorem missing (h : Locating cs ps s) : Locating cs (ps ++ [.node s.placeholder]) s := by
  have hcut := h.stands.lexer.cuts.placeholder
  refine ⟨h.stands, h.errors, ?_, h.nodes.push (.inr ⟨_, _, rfl, located_leaf _ hcut.spanLiesIn⟩)⟩
  refine h.gathered.pass (fun t ht => Piece.kept_leaf ht) hcut (fun c hc => ?_) (Nat.le_refl _)
    (Nat.le_refl _)
  rcases h.stands.lexer.apart hc with hbehind | hahead
  · exact .inl hbehind
  · exact .inr (Nat.le_trans s.current.offset_le_stop hahead)

theorem make (h : Locating cs (ps ++ (qs ++ rs)) s) (hn : Makes s.symbols qs n) :
    Locating cs (ps ++ .node n :: rs) s := by
  have hkept (t : Token) (ht : Piece.Kept qs t) : Piece.Kept (ps ++ (qs ++ rs)) t :=
    ht.mono fun p hp => by simp [hp]
  have hlocated : n.Located cs :=
    hn.located (fun t ht => (h.gathered.cut t (hkept t ht)).spanLiesIn)
      fun k hk => (h.nodes k (by simp [hk])).self
  exact ⟨h.stands, h.errors, h.gathered.mono fun t ht => hn.kept_among ht, h.nodes.make hn hlocated⟩

theorem collect (h : Locating cs ps s) {taken waiting : List Token} (htaken : taken ⊆ s.comments)
    (hwaiting : waiting ⊆ s.comments) :
    Locating cs (ps ++ taken.map .comment) { s with comments := waiting } := by
  have hcomments : taken ⊆ Text.comments cs := List.Subset.trans htaken h.stands.comments
  exact ⟨h.stands.congr rfl hwaiting, h.errors,
    h.gathered.comment fun t ht => (Piece.kept_comments ht).imp_right fun ht => hcomments ht,
    h.nodes.collect fun t ht =>
      located_leaf _ (Text.cutFrom_of_mem_comments (hcomments ht)).spanLiesIn⟩

theorem mind (h : Locating cs (ps ++ qs) s) {p : Piece} (hp : p.isMental) :
    Locating cs (ps ++ p :: qs) s :=
  ⟨h.stands, h.errors, h.gathered.mono fun _ ht => Piece.kept_mind hp ht,
    h.nodes.insert (Piece.node?_of_isMental hp)⟩

theorem congr (h : Locating cs ps s) (hlexer : t.lexer = s.lexer) (herrors : t.errors = s.errors)
    (hcomments : t.comments = s.comments) : Locating cs ps t := by
  refine ⟨h.stands.congr hlexer (hcomments ▸ List.Subset.refl _), herrors ▸ h.errors, ?_, h.nodes⟩
  unfold State.current
  rw [hlexer]
  exact h.gathered

theorem rewind (h : Locating cs ps s) (ht : Locating cs ps t) : Locating cs ps (t.rewind s) :=
  ⟨h.stands.rewind ht.stands, fun e he => ht.errors e (List.mem_of_mem_take he), h.gathered, h.nodes⟩

end Locating

theorem loose_locating (cs : List Char) : Survey.Loose (·.LiesIn cs) (Locating cs) where
  fit_current h := h.stands.lexer.cuts.token.toLiesIn
  fit h ht := (h.gathered.cut _ (Piece.kept_of_mem_anchors ht)).toLiesIn
  congr h hlexer herrors hcomments _ _ := Locating.congr h hlexer herrors hcomments
  sublist h hqs := Locating.sublist h hqs.subset
  mind h hp := Locating.mind h hp
  advance h _ := Locating.advance h _
  split h _ := Locating.split h
  record h he := Locating.record h he
  missing h := Locating.missing h
  make h hn := Locating.make h hn
  collect h htaken hwaiting := Locating.collect h htaken hwaiting
  operate h _ _ := Locating.congr h rfl rfl rfl
  rewind h ht := Locating.rewind h ht

theorem locating_start (source : String) (config : ParseConfig) :
    Locating source.toList [] (State.start source config) := by
  have hnone (t : Token) : ¬ Piece.Kept [] t := fun ⟨p, hp, _⟩ => by cases hp
  refine ⟨.start source config, fun e he => ?_, ⟨fun t ht => absurd ht (hnone t),
    fun t ht => absurd ht (hnone t), fun t _ ht => absurd ht (hnone t)⟩, .nil⟩
  simp only [State.start, State.bump, State.unread] at he
  cases he

/-- What a program keeps is located in its text. -/
theorem locating_parse (source : String) (config : ParseConfig) :
    ∃ s : State, Locating source.toList ((Program.parse source config).nodes.map .node) s ∧
      s.errors = (Program.parse source config).errors := by
  obtain ⟨s, hholds, herrors, -, -⟩ :=
    Survey.reading_keeps ((loose_locating source.toList).whole _) (locating_start source config)
  exact ⟨s, hholds, herrors⟩

end Grammar

open Node

/-- **A program lies in its text.** Every token that its nodes and its errors keep says truly where
in the text it is, in bytes, in positions and in UTF-16 units, and counts no further than the text
does. Every node covers a stretch of the text with its anchor in it, and the text between its ends
is found from its span. So the label of an error is a range of the text, and its line and column are
those of the start of the range. -/
theorem program_lies_in_text (source : String) (config : ParseConfig) :
    let p := Program.parse source config
    let cs := source.toList
    (∀ n ∈ walkAll p.nodes,
      (∀ t ∈ n.ownTokens, t.LiesIn cs ∧ t.stop ≤ byteSize cs ∧ t.CountsTo (unitSize cs)) ∧
      n.span.start ≤ n.span.stop ∧
      n.span.start ≤ n.token.span.start ∧ n.token.span.stop ≤ n.span.stop ∧
      ∃ start stop, Text.IsBoundary cs start ∧ Text.IsBoundary cs stop ∧ start ≤ stop ∧
        n.span = ⟨Text.positionAt cs start, Text.positionAt cs stop⟩ ∧
        Text.slice? cs n.span = some (Text.between cs start stop)) ∧
    ∀ e ∈ p.errors,
      e.token.LiesIn cs ∧ e.token.stop ≤ byteSize cs ∧ e.token.CountsTo (unitSize cs) ∧
      e.line = (Text.positionAt cs e.token.offset).line + 1 ∧
      e.column = (Text.positionAt cs e.token.offset).character + 1 := by
  intro p cs
  obtain ⟨s, hlocating, herrors⟩ := Grammar.locating_parse source config
  refine ⟨fun n hn => ?_, fun e he => ?_⟩
  · obtain ⟨top, htop, hbelow⟩ := mem_walkAll_iff.mp hn
    have hpiece : Piece.node top ∈ p.nodes.map .node := List.mem_map.mpr ⟨top, htop, rfl⟩
    have hlocated := (hlocating.nodes.walkAll hn).self
    refine ⟨fun t ht => ?_, hlocated.span.start_le_stop, hlocated.anchor.start,
      hlocated.anchor.stop, Span.slice?_of_liesIn hlocated.span⟩
    have hcut := hlocating.gathered.cut t ⟨_, hpiece, .node hbelow ht⟩
    exact ⟨hcut.toLiesIn, hcut.boundary_stop.le, hcut.toLiesIn.countsTo⟩
  · rw [← herrors] at he
    have hlies := hlocating.errors e he
    have hstart : e.token.span.start = Text.positionAt cs e.token.offset := by rw [hlies.span]
    exact ⟨hlies, hlies.boundary_stop.le, hlies.countsTo, congrArg (·.line + 1) hstart,
      congrArg (·.character + 1) hstart⟩

end SableFront
