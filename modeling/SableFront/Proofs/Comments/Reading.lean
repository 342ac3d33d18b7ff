import SableFront.Proofs.Comments.Attempt
import Mathlib.Algebra.Order.Group.Multiset

/-!
# Comments: none is lost and none is there twice

As long as no error is kept, every comment of a text is in one place: it still lies ahead, or waits,
or is a node, or is attached to one. Lists of statements move comments from one of these places to
another, and everything else leaves them where they are. So a program without errors has each
comment once (`comments_are_kept`), provided that its text is tame.

Without that it may not (`comment_is_lost`): an attempt that reads the body of a lambda gives the
comments that wait to the statements there, and when it is given up they are gone with these.
-/

namespace SableFront

open Grammar

namespace Node

/-- The comments that a node carries: its anchor, if it is one, and those attached to it. -/
def comments (n : Node) : List Token :=
  (if n.form = .comment then [n.token] else []) ++ n.leading ++ n.trailing

/-- The comments that trees carry. -/
def carried (ns : List Node) : Multiset Token := ↑((walkAll ns).flatMap Node.comments)

variable {n : Node} {ms ns : List Node} {table : SymbolTable} {ps : List Piece}

@[simp] theorem carried_nil : carried [] = 0 := rfl

@[simp] theorem carried_append : carried (ms ++ ns) = carried ms + carried ns := by
  rw [carried, walkAll_append, List.flatMap_append, ← Multiset.coe_add]
  rfl

theorem carried_singleton (n : Node) : carried [n] = ↑n.comments + carried n.children := by
  obtain ⟨data, children⟩ := n
  rw [carried, walkAll, walk, walkAll, List.append_nil, List.flatMap_cons, ← Multiset.coe_add]
  rfl

theorem carried_cons (n : Node) (ns : List Node) : carried (n :: ns) = carried [n] + carried ns := by
  rw [← List.singleton_append, carried_append]

theorem comments_of_isBare (h : n.IsBare) (hform : n.form ≠ .comment) : n.comments = [] := by
  rw [comments, if_neg hform, h.leading, h.trailing]
  rfl

/-- A leaf that is no comment carries none. -/
theorem carried_leaf {form : Form} (t : Token) (hform : form ≠ .comment) :
    carried [leaf form t] = 0 := by
  have hnone : (leaf form t).comments = [] := comments_of_isBare (isBare_build _ _ _ _ _) hform
  rw [carried_singleton, hnone]
  rfl

/-- Only the form, the comments of the node itself and the children matter. -/
theorem carried_congr {m : Node} (hcomments : m.comments = n.comments)
    (hchildren : m.children = n.children) : carried [m] = carried [n] := by
  rw [carried_singleton, carried_singleton, hcomments, hchildren]

theorem comments_modifyIdent (n : Node) (f : Ident → Ident) :
    (n.modifyIdent f).comments = n.comments := by
  obtain ⟨⟨form, token, span, marks, leading, trailing⟩, children⟩ := n
  cases form <;> rfl

theorem carried_comments (ts : List Token) : carried (ts.map .ofComment) = ↑ts := by
  induction ts with
  | nil => rfl
  | cons t ts ih =>
    have hself : (ofComment t).comments = [t] := rfl
    have hleaf : (ofComment t).children = [] := rfl
    rw [List.map_cons, carried_cons (ofComment t), ih, carried_singleton, hself, hleaf, carried_nil,
      add_zero]
    rfl

/-- Attaching comments to a node takes them from where they stood. -/
theorem carried_withComments (leading trailing : List Token) (hbare : n.IsBare) :
    carried [withComments leading trailing n] = ↑leading + carried [n] + ↑trailing := by
  have hcomments : (withComments leading trailing n).comments =
      n.comments ++ (leading ++ trailing) := by
    rw [comments, comments, hbare.leading, hbare.trailing, List.append_nil, List.append_nil,
      List.append_assoc]
    rfl
  rw [carried_singleton, carried_singleton, hcomments, ← Multiset.coe_add, ← Multiset.coe_add]
  change _ + _ + carried n.children = _
  ac_rfl

/-- **A node that is made carries the comments** that the nodes among the pieces carried. -/
theorem Makes.carried (h : Makes table ps n) : carried [n] = carried (Piece.nodes ps) := by
  cases h with
  | @build ps form anchor marks spans hps hspans =>
    have hform : form ≠ .comment := by
      rintro rfl
      cases hps.sound with
      | proper hsound => cases hsound
      | target hassign => cases hassign
      | faulty _ habout => exact habout
    rw [carried_singleton, comments_of_isBare (isBare_build _ _ _ _ _) hform]
    exact zero_add _
  | literal =>
    refine carried_leaf _ fun hform => ?_
    split at hform <;> cases hform
  | enclosed k | marked k => exact carried_congr rfl rfl
  | markedFirst t k =>
    have hleaf : Node.carried [leaf .visibility t] = 0 := carried_leaf t fun hform => by cases hform
    rw [Piece.nodes_cons_node, Piece.nodes_cons_node, Piece.nodes_nil, carried_cons (leaf _ _), hleaf,
      zero_add]
    exact carried_congr rfl rfl
  | extended base part =>
    rw [Piece.nodes_cons_node, Piece.nodes_cons_node, Piece.nodes_nil, carried_cons base,
      carried_singleton, carried_singleton base, add_assoc, ← carried_append]
    rfl
  | @bound k f => exact carried_congr (comments_modifyIdent k f) rfl
  | commented leading trailing k hbare =>
    have hnodes : Piece.nodes (leading.map .comment ++ .node k :: trailing.map .comment) =
        leading.map .ofComment ++ k :: trailing.map .ofComment := by
      rw [← Piece.map_node_ofComment, ← Piece.map_node_ofComment, Piece.nodes_append,
        Piece.nodes_cons_node, Piece.nodes_map_node, Piece.nodes_map_node]
    rw [carried_withComments _ _ hbare, hnodes, carried_append, carried_comments,
      carried_cons k (trailing.map _), carried_comments, add_assoc]

end Node

namespace Grammar

open Node

/-! ### The survey of comments -/

/-- What holds of a tame text all along. -/
structure Course (s : State) : Prop where
  unlimited : s.config.maxErrors = none
  placed : s.lexer.Placed
  tame : tame s.words

/-- As long as there is no error, all comments are where they should be. -/
structure Conserving (total : Multiset Token) (ps : List Piece) (s : State) : Prop
    extends Course s where
  sum : s.errors = [] →
    carried (Piece.nodes ps) + (s.comments ++ s.remaining : List Token) = total

/-- The survey of all comments. Lists are read to their end, where no comments wait. -/
def conserving (total : Multiset Token) : Survey :=
  ⟨fun _ => True, Conserving total, fun _ => Course, True⟩

variable {total : Multiset Token} {ps qs rs : List Piece} {s t : State} {n : Node}

namespace Course

theorem congr (h : Course s) (hlexer : t.lexer = s.lexer) (hconfig : t.config = s.config) :
    Course t := by
  refine ⟨?_, ?_, ?_⟩
  · rw [hconfig]
    exact h.unlimited
  · rw [hlexer]
    exact h.placed
  · rw [State.words, State.current, hlexer]
    exact h.tame

theorem record (h : Course s) (e : SyntaxError) : Course (s.record e) :=
  h.congr (s.lexer_record e) (s.config_record e)

theorem errors_record_ne_nil (h : Course s) (e : SyntaxError) : (s.record e).errors ≠ [] := by
  rw [s.errors_record e h.unlimited]
  exact List.append_ne_nil_of_right_ne_nil _ (List.cons_ne_nil _ _)

theorem advance (h : Course s) : Course s.advance := by
  unfold State.advance
  split
  · exact h
  · rename_i heof
    have htame := h.tame
    rw [words_advance (Bool.eq_false_iff.mpr heof), State.advance, if_neg heof] at htame
    exact ⟨h.unlimited, Cursor.placed_significant _, tame_tail htame⟩

end Course

namespace Conserving

/-- After an error nothing more is said of the comments. -/
theorem of_errors (h : Course s) (herrors : s.errors ≠ []) : Conserving total ps s :=
  ⟨h, fun hnone => absurd hnone herrors⟩

theorem congr (h : Conserving total ps s) (hlexer : t.lexer = s.lexer)
    (herrors : t.errors = s.errors) (hcomments : t.comments = s.comments)
    (hconfig : t.config = s.config) : Conserving total ps t := by
  refine ⟨h.toCourse.congr hlexer hconfig, ?_⟩
  rw [herrors, hcomments, State.remaining, hlexer]
  exact h.sum

/-- Only the comments matter that the nodes among the pieces carry. -/
theorem withPieces (h : Conserving total ps s)
    (hqs : carried (Piece.nodes qs) = carried (Piece.nodes ps)) : Conserving total qs s :=
  ⟨h.toCourse, fun hnone => hqs ▸ h.sum hnone⟩

theorem mind {p : Piece} (h : Conserving total (ps ++ qs) s) (hp : p.isMental) :
    Conserving total (ps ++ p :: qs) s := by
  refine h.withPieces ?_
  rw [Piece.nodes_append, Piece.nodes_append, Piece.nodes, Piece.nodes,
    List.filterMap_cons_none (Piece.node?_of_isMental hp)]
  rfl

/-- One piece more may be a token, -/
theorem push (h : Conserving total ps s) {use : Use} (t : Token) :
    Conserving total (ps ++ [.token use t]) s :=
  h.withPieces (by rw [Piece.nodes_append, Piece.nodes_cons_token, Piece.nodes_nil, List.append_nil])

theorem advance (h : Conserving total ps s) : Conserving total ps s.advance := by
  refine ⟨h.toCourse.advance, ?_⟩
  rw [State.errors_advance, comments_advance]
  exact h.sum

theorem split (h : Conserving total ps s) (hs : isClosingAngle s.current.kind) :
    Conserving total ps { s with lexer := s.lexer.splitAngle?.getD s.lexer } := by
  obtain ⟨hplaced, hremaining, hwords⟩ := ahead_splitAngle (P := fun ks => tame ks) h.placed hs
  refine ⟨⟨h.unlimited, hplaced, hwords persistent_tame h.tame⟩, ?_⟩
  rw [hremaining]
  exact h.sum

/-- or the empty node of a missing operand. -/
theorem missing {e : SyntaxError} (h : Conserving total (ps ++ [.error e]) s) :
    Conserving total (ps ++ [.node s.placeholder]) s := by
  refine h.withPieces ?_
  rw [Piece.nodes_append, Piece.nodes_append, Piece.nodes_cons_node, Piece.nodes_cons_error,
    carried_append, carried_append]
  exact congrArg _ (carried_leaf _ Form.noConfusion)

/-- A node takes the place of the pieces that it is made from. -/
theorem make (h : Conserving total (ps ++ (qs ++ rs)) s) (hn : Makes s.symbols qs n) :
    Conserving total (ps ++ .node n :: rs) s := by
  refine h.withPieces ?_
  simp only [Piece.nodes_append, Piece.nodes_cons_node, carried_append]
  rw [carried_cons n, hn.carried]

/-- Comments that wait may become nodes. -/
theorem collect (h : Conserving total ps s) {taken waiting : List Token}
    (hperm : (taken ++ waiting).Perm s.comments) :
    Conserving total (ps ++ taken.map .comment) { s with comments := waiting } := by
  refine ⟨⟨h.unlimited, h.placed, h.tame⟩, fun hnone => ?_⟩
  have hwaiting : (taken : Multiset Token) + waiting = s.comments := Multiset.coe_eq_coe.mpr hperm
  rw [← Piece.map_node_ofComment, Piece.nodes_append, Piece.nodes_map_node, carried_append,
    carried_comments, ← h.sum hnone, ← Multiset.coe_add, ← Multiset.coe_add, ← hwaiting]
  change _ + (_ + (s.remaining : Multiset Token)) = _
  ac_rfl

theorem halted (h : Conserving total ps s) : Conserving total ps s.halted := by
  have hunlimited := (h.record (s.error .unreachableState none)).unlimited
  exact .of_errors ⟨hunlimited, Lexer.placed_of_afterAngle? rfl, rfl⟩ (h.errors_record_ne_nil _)

end Conserving

theorem complete_conserving (total : Multiset Token) : (conserving total).Complete where
  breaks h := h.toCourse
  fit_current _ := trivial
  fit _ _ := trivial
  congr h hlexer herrors hcomments _ hconfig := Conserving.congr h hlexer herrors hcomments hconfig
  breaks_congr h hlexer _ _ _ hconfig := Course.congr h hlexer hconfig
  tidy h hqs := Conserving.withPieces h (congrArg carried hqs.nodes_eq)
  lose h _ := h
  mind h hp _ := Conserving.mind h hp
  note {ps e s} h _ _ := by
    have hall : Conserving total (ps ++ []) s := (List.append_nil ps).symm ▸ h
    exact hall.mind rfl
  advance h _ := (Conserving.advance h).push _
  junk h _ _ := (Conserving.advance h).push _
  close h hs := ((Conserving.split h hs).advance).push _
  record h _ := .of_errors (Course.record h _) (Course.errors_record_ne_nil h _)
  missing h _ _ := Conserving.missing h
  make h hn := Conserving.make h hn
  operate h _ _ := Conserving.congr h rfl rfl rfl rfl
  breaks_operate h _ _ := Course.congr h rfl rfl
  stop h _ := Conserving.advance h
  pass {ps s e} h _ := by
    refine .of_errors (Course.record h e).advance ?_
    rw [State.errors_advance]
    exact Course.errors_record_ne_nil h e
  collect h hperm := Conserving.collect h hperm
  halted _ h := Conserving.halted h

/-- Reading may go back from where comments have only been added. -/
theorem goesBack_conserving (total : Multiset Token) : (conserving total).GoesBack Grows :=
  fun _ _ _ h _ herrors hgrows => Conserving.congr h rfl (List.prefix_iff_eq_take.mp herrors).symm
    (List.prefix_iff_eq_take.mp hgrows.comments).symm hgrows.config

/-- **In a tame text, all reading conserves the comments.** -/
theorem whole_conserving (total : Multiset Token) (n : Nat) :
    (conserving total).Whole (Survey.halting n) := by
  have hback := goesBack_conserving total
  refine Survey.whole_halting (complete_conserving total) trivial (fun n h => ?_) (fun n h => ?_) n
  · refine h.keepsArguments hback fun ps s hs hlt => ?_
    have hcourse : Conserving total (ps ++ []) s := hs.holds
    exact grows_argumentList (fun before => (circle_quiet n before).toLinks) hs hcourse.placed
      (quiet_of_tame hcourse.tame hlt) hlt
  · refine h.keepsDeclaring hback fun ps s hs => ?_
    have hcourse : Conserving total (ps ++ []) s := hs.holds
    exact grows_declaration n hs hcourse.placed hcourse.tame

/-- At the end of a text without errors all comments are carried by its nodes. -/
theorem carried_of_ended {found : List Node} (h : (conserving total).Ended .file [] found s)
    (herrors : s.errors = []) : carried found = total := by
  obtain ⟨hends, hcomments⟩ := h.ends trivial
  have hconserving : Conserving total (found.map .node) s := h.laid.holds
  have heof : s.lexer.token.isEof := (endsItems_file s).symm.trans hends
  have hremaining : s.remaining = [] := by
    rw [State.remaining, Lexer.ahead, if_pos heof]
    rfl
  rw [← hconserving.sum herrors, hcomments, hremaining, Piece.nodes_map_node]
  exact (add_zero _).symm

/-- At the start of a text all comments wait or lie ahead. -/
theorem conserving_start {source : String} {config : ParseConfig} (hmax : config.maxErrors = none)
    (htame : tame (words (tokenize source))) :
    Conserving (commentsIn (tokenize source)) [] (State.start source config) := by
  have hwords : (State.start source config).words = words (tokenize source) :=
    (Cursor.words_significant _).symm
  refine ⟨⟨hmax, Cursor.placed_significant _, ?_⟩, fun _ => ?_⟩
  · rw [hwords]
    exact htame
  · rw [Piece.nodes_nil, carried_nil, zero_add, tokenize, Cursor.commentsIn_significant]
    rfl

end Grammar

open Grammar

/-- **No comment is lost, and none is there twice.** Where no error is kept and no lambda starts
between a `<` and the next semicolon, the nodes of a program carry each comment of its text exactly
once, as their anchor or attached to them, however comments are to be attached. -/
theorem comments_are_kept (source : String) (config : ParseConfig)
    (hmax : config.maxErrors = none) (htame : tame (words (tokenize source)))
    (herrors : (Program.parse source config).errors = []) :
    let found := (Node.walkAll (Program.parse source config).nodes).flatMap Node.comments
    found.Perm (commentsIn (tokenize source)) ∧ found.Nodup := by
  intro found
  have hstart : (conserving (commentsIn (tokenize source))).Holds [] (State.start source config) :=
    conserving_start hmax htame
  have hend := Survey.ended_file (whole_conserving _ _) trivial hstart
  have hperm : found.Perm (commentsIn (tokenize source)) :=
    Multiset.coe_eq_coe.mp (carried_of_ended hend herrors)
  have hoffsets := (Cursor.start source.toList).pairwise_tokens.1
  have hnodup : (commentsIn (tokenize source)).Nodup :=
    (hoffsets.filter _).imp fun hlt heq => absurd (heq ▸ hlt) (Nat.lt_irrefl _)
  exact ⟨hperm, hperm.nodup_iff.mpr hnodup⟩

/-- A text with comments in all places, and with attempts that are given up. -/
theorem comments_are_kept_around_attempts :
    let source := "// a\nInt32 x /* b */ = 1; x /* c */ < 2; Int32 /* d */ < 3; { y; /* e */ } // f"
    let found := (Node.walkAll (Program.parse source .standard).nodes).flatMap Node.comments
    found.length = 6 ∧ found.Perm (commentsIn (tokenize source)) ∧ found.Nodup :=
  ⟨by decide +kernel, comments_are_kept _ .standard rfl (by decide +kernel) (by decide +kernel)⟩

/-- Where a lambda is read in an attempt that is given up, a comment is lost; in another text, one
is lost and another one is there twice. -/
theorem comment_is_lost :
    let lost := "Int32 /* a */ < function() { x; };"
    let doubled := "Int32 /* a */ < function() { x; } /* b */;"
    let found (source : String) : List Token :=
      (Node.walkAll (Program.parse source .standard).nodes).flatMap Node.comments
    ((Program.parse lost .standard).errors = [] ∧
      ¬ (found lost).Perm (commentsIn (tokenize lost))) ∧
    ((Program.parse doubled .standard).errors = [] ∧ ¬ (found doubled).Nodup) := by
  decide +kernel

end SableFront
