import SableFront.Proofs.Lookahead
import SableFront.Proofs.Progress.Alternative
import SableFront.Proofs.Survey.Reading

/-!
# Surveys: behind a name

Two surveys that say little about what is in hand. The first one, `grounded`, watches nothing but
the state, and what it keeps is what any state between two productions has. The second one, `behind`,
is for what is read behind a name: neither a token in hand nor an error kept since is about the name,
since the text goes on and a token that is met later lies behind it.
-/

namespace SableFront.Grammar

variable {total : Nat} {config : ParseConfig} {source : String} {s t : State}

theorem State.Reached.config_eq (h : s.Reached source config) : s.config = config := by
  induction h with
  | start => rfl
  | advance _ ih => exact (State.config_advance _).trans ih
  | record _ _ ih => exact (State.config_record _ _).trans ih
  | split _ ih | rewind _ _ ih _ | note _ _ _ _ _ ih => exact ih

/-! ### States -/

/-- The lexer is sound, and what waits as comments are comments. -/
structure State.Grounded (total : Nat) (config : ParseConfig) (s : State) : Prop where
  lexer : s.lexer.Sound total
  comments : ∀ t ∈ s.comments, t.kind.isComment
  config : s.config = config

namespace State.Grounded

theorem congr (h : s.Grounded total config) (hlexer : t.lexer = s.lexer)
    (hcomments : t.comments ⊆ s.comments) (hconfig : t.config = s.config) :
    t.Grounded total config :=
  ⟨hlexer ▸ h.lexer, fun c hc => h.comments c (hcomments hc), hconfig.trans h.config⟩

theorem advance (h : s.Grounded total config) : s.advance.Grounded total config := by
  unfold State.advance
  split
  · exact h
  · refine ⟨(Cursor.significant_sound h.lexer.total).1, fun c hc => ?_, h.config⟩
    rcases List.mem_append.mp hc with hc | hc
    · exact h.comments c hc
    · exact Cursor.isComment_of_mem_comments hc

/-- Going to the next token goes on in the text. -/
theorem offset_lt (h : s.Grounded total config) (heof : s.current.isEof = false) :
    s.current.offset < s.advance.current.offset := by
  have hpos : s.lexer.token.size ≠ 0 := fun hzero => by
    simp [Token.isEof, State.current, h.lexer.size_eq_zero.mp hzero] at heof
  have hstop := h.lexer.stop
  have hle : s.lexer.cursor.offset ≤ s.bump.current.offset :=
    (Cursor.significant_sound h.lexer.total).2
  rw [State.advance, heof, if_neg Bool.false_ne_true]
  change s.lexer.token.offset < _
  omega

theorem offset_le (h : s.Grounded total config) : s.current.offset ≤ s.advance.current.offset := by
  cases heof : s.current.isEof with
  | true => exact Nat.le_of_eq (by rw [State.advance, heof, if_pos rfl])
  | false => exact Nat.le_of_lt (h.offset_lt heof)

theorem split (h : s.Grounded total config) :
    State.Grounded total config { s with lexer := s.lexer.splitAngle?.getD s.lexer } ∧
      (s.lexer.splitAngle?.getD s.lexer).token.offset = s.current.offset := by
  cases hl : s.lexer.splitAngle? with
  | none => exact ⟨h, rfl⟩
  | some l => exact ⟨⟨(h.lexer.split hl).1, h.comments, h.config⟩, (h.lexer.split hl).2⟩

theorem record (h : s.Grounded total config) (e : SyntaxError) :
    (s.record e).Grounded total config :=
  h.congr (s.lexer_record e) (fun _ hc => s.comments_record e ▸ hc) (s.config_record e)

theorem rewind (h : s.Grounded total config) (ht : t.Grounded total config) :
    (t.rewind s).Grounded total config :=
  ⟨h.lexer, fun c hc => ht.comments c (List.mem_of_mem_take hc), ht.config⟩

end State.Grounded

/-- The survey of nothing but the state. -/
def grounded (total : Nat) (config : ParseConfig) : Survey :=
  .loose (fun _ => True) fun _ s => s.Grounded total config

theorem loose_grounded (total : Nat) (config : ParseConfig) :
    Survey.Loose (fun _ => True) fun _ s => s.Grounded total config where
  fit_current _ := trivial
  fit _ _ := trivial
  congr h hlexer _ hcomments _ hconfig := h.congr hlexer (fun _ hc => hcomments ▸ hc) hconfig
  sublist h _ := h
  mind h _ := h
  advance h _ := h.advance
  split h _ := h.split.1
  record h _ := h.record _
  missing h := h
  make h _ := h
  collect h _ hwaiting := h.congr rfl hwaiting rfl
  operate h _ _ := h.congr rfl (List.Subset.refl _) rfl
  rewind h ht := h.rewind ht

/-! ### Names -/

/-- Reading has gone past a name, and neither what is in hand nor the errors kept since are about
it. -/
structure Behind (total : Nat) (config : ParseConfig) (name : Token) (count : Nat)
    (ps : List Piece) (s : State) : Prop where
  state : s.Grounded total config
  passed : name.offset < s.current.offset
  pieces : ∀ t ∈ Piece.anchors ps, t ≠ name
  errors : ∀ e ∈ s.errors.drop count, e.token ≠ name

/-- The survey of what is read behind a name. -/
def behind (total : Nat) (config : ParseConfig) (name : Token) (count : Nat) : Survey :=
  .loose (· ≠ name) (Behind total config name count)

namespace Behind

variable {name : Token} {count : Nat} {ps qs rs : List Piece} {p : Piece} {n : Node}

theorem current_ne (h : Behind total config name count ps s) : s.current ≠ name :=
  fun heq => Nat.ne_of_lt h.passed (congrArg Token.offset heq).symm

theorem congr (h : Behind total config name count ps s) (hstate : t.Grounded total config)
    (hoffset : s.current.offset ≤ t.current.offset) (herrors : t.errors = s.errors) :
    Behind total config name count ps t :=
  ⟨hstate, Nat.lt_of_lt_of_le h.passed hoffset, h.pieces, herrors ▸ h.errors⟩

/-- What is in hand may be anything that is not about the name. -/
theorem withPieces (h : Behind total config name count ps s)
    (hqs : ∀ t ∈ Piece.anchors qs, t ∈ Piece.anchors ps ∨ t ≠ name) :
    Behind total config name count qs s :=
  ⟨h.state, h.passed, fun t ht => (hqs t ht).elim (h.pieces t) id, h.errors⟩

theorem push (h : Behind total config name count ps s) {token : Token} (htoken : token ≠ name)
    (hp : p.anchor? = some token) : Behind total config name count (ps ++ [p]) s := by
  refine h.withPieces fun t ht => ?_
  unfold Piece.anchors at ht ⊢
  rw [List.filterMap_append, List.mem_append] at ht
  refine ht.imp_right fun ht => ?_
  rw [List.filterMap_cons, hp] at ht
  rw [List.mem_singleton.mp ht]
  exact htoken

theorem sublist (h : Behind total config name count ps s) (hqs : qs.Sublist ps) :
    Behind total config name count qs s :=
  h.withPieces fun _ ht => .inl ((hqs.filterMap _).subset ht)

theorem mind (h : Behind total config name count (ps ++ qs) s) (hp : p.isMental) :
    Behind total config name count (ps ++ p :: qs) s := by
  refine h.withPieces fun t ht => .inl ?_
  unfold Piece.anchors at ht ⊢
  rw [List.filterMap_append] at ht ⊢
  cases p with
  | scope | symbol | error | faults => exact ht
  | token | node => cases hp

theorem advance (h : Behind total config name count ps s) (use : Use) :
    Behind total config name count (ps ++ [.token use s.current]) s.advance :=
  (h.congr h.state.advance h.state.offset_le s.errors_advance).push h.current_ne rfl

theorem split (h : Behind total config name count ps s) :
    Behind total config name count ps { s with lexer := s.lexer.splitAngle?.getD s.lexer } :=
  h.congr h.state.split.1 (Nat.le_of_eq h.state.split.2.symm) rfl

theorem record (h : Behind total config name count ps s) {e : SyntaxError} (he : e.token ≠ name) :
    Behind total config name count ps (s.record e) := by
  have hstate := h.state.record e
  unfold State.record at hstate ⊢
  split
  · exact h
  · rename_i hkeep
    rw [if_neg hkeep] at hstate
    refine ⟨hstate, h.passed, h.pieces, fun d hd => ?_⟩
    rw [List.drop_append, List.mem_append] at hd
    rcases hd with hd | hd
    · exact h.errors d hd
    · rw [List.mem_singleton.mp (List.mem_of_mem_drop hd)]
      exact he

theorem missing (h : Behind total config name count ps s) :
    Behind total config name count (ps ++ [.node s.placeholder]) s := by
  have hne : s.placeholder.token ≠ name :=
    fun heq => Nat.ne_of_lt h.passed (congrArg Token.offset heq).symm
  exact h.push hne rfl

/-- A node is anchored where one of the pieces is that it is made from. -/
theorem make (h : Behind total config name count (ps ++ (qs ++ rs)) s)
    (hn : Node.Makes s.symbols qs n) : Behind total config name count (ps ++ .node n :: rs) s := by
  have hanchor : n.token ∈ Piece.anchors qs := by
    cases hn with
    | build hps => exact hps.mem
    | literal => exact Piece.mem_anchors_of_token List.mem_cons_self
    | enclosed k | marked k | extended k | @bound k =>
      exact Piece.mem_anchors_of_node (n := k) (by simp)
    | markedFirst _ k => exact Piece.mem_anchors_of_node (n := k) (by simp)
    | commented leading trailing k => exact Piece.mem_anchors_of_node (n := k) (by simp)
  refine h.withPieces fun t ht => .inl ?_
  unfold Piece.anchors at ht hanchor ⊢
  simp only [List.filterMap_append, List.filterMap_cons, Piece.anchor?, List.mem_append,
    List.mem_cons] at ht ⊢
  rcases ht with ht | rfl | ht
  · exact .inl ht
  · exact .inr (.inl hanchor)
  · exact .inr (.inr ht)

theorem collect (h : Behind total config name count ps s) (hname : name.kind = .ident)
    {taken waiting : List Token} (htaken : taken ⊆ s.comments) (hwaiting : waiting ⊆ s.comments) :
    Behind total config name count (ps ++ taken.map .comment) { s with comments := waiting } := by
  refine (h.congr (t := { s with comments := waiting }) (h.state.congr rfl hwaiting rfl)
    (Nat.le_refl _) rfl).withPieces fun t ht => ?_
  rcases Piece.mem_anchors.mp ht with ⟨use, ht⟩ | ⟨n, hn, rfl⟩
  · refine .inl (Piece.mem_anchors_of_token ((List.mem_append.mp ht).resolve_right fun ht => ?_))
    obtain ⟨c, -, hc⟩ := List.mem_map.mp ht
    cases hc
  · rcases List.mem_append.mp hn with hn | hn
    · exact .inl (Piece.mem_anchors_of_node hn)
    · obtain ⟨c, hc, hnode⟩ := List.mem_map.mp hn
      cases hnode
      refine .inr fun heq => ?_
      have hcomment : c.kind.isComment := h.state.comments c (htaken hc)
      rw [show c = name from heq, hname] at hcomment
      cases hcomment

theorem rewind (h : Behind total config name count ps s)
    (ht : Behind total config name count ps t) :
    Behind total config name count ps (t.rewind s) := by
  refine ⟨h.state.rewind ht.state, h.passed, h.pieces, fun e he => ht.errors e ?_⟩
  replace he : e ∈ (t.errors.take s.errors.length).drop count := he
  rw [List.drop_take] at he
  exact List.mem_of_mem_take he

end Behind

theorem loose_behind {name : Token} (hname : name.kind = .ident) (count : Nat) :
    Survey.Loose (· ≠ name) (Behind total config name count) where
  fit_current h := Behind.current_ne h
  fit h ht := Behind.pieces h _ ht
  congr h hlexer herrors hcomments _ hconfig :=
    have hstate := h.state.congr hlexer (fun _ hc => hcomments ▸ hc) hconfig
    Behind.congr h hstate (Nat.le_of_eq (congrArg (·.token.offset) hlexer).symm) herrors
  sublist h hqs := Behind.sublist h hqs
  mind h hp := Behind.mind h hp
  advance h _ := Behind.advance h _
  split h _ := Behind.split h
  record h he := Behind.record h he
  missing h := Behind.missing h
  make h hn := Behind.make h hn
  collect h htaken hwaiting := Behind.collect h hname htaken hwaiting
  operate h _ _ := Behind.congr h (h.state.congr rfl (List.Subset.refl _) rfl) (Nat.le_refl _) rfl
  rewind h ht := Behind.rewind h ht

end SableFront.Grammar
