import SableFront.Proofs.Progress.Reading
import SableFront.Proofs.Survey.Statement

/-!
# Surveys: lists of statements and whole texts

A list of statements turns the comments that wait before a statement into nodes; those that are
attached to the statement in the end are made into one node with it. The contracts of the productions
then close over the circles of the grammar.

Where rounds or circles run out, the lists of `rules` just end, wherever they are. For a survey that
lists have to be read to their end for, `halting` rules are halted there instead, so that their lists
always end where they should. On a text both do the same, since nothing runs out.
-/

namespace SableFront.Grammar

open Node

variable {L : Survey} {r : Rules} {before xs : List Piece} {s : State} {node : Node}
  {e : SyntaxError} {context : Context}

/-- Passing a token does not look at the table, nor at the note. -/
theorem State.advance_inTable (s : State) (table : SymbolTable) (note : Option ScopeId) :
    State.advance { s with symbols := table, templateScope := note } =
      { s.advance with symbols := table, templateScope := note } := by
  unfold advance
  by_cases heof : s.current.isEof
  · rw [if_pos heof]
    exact if_pos heof
  · rw [if_neg heof]
    exact if_neg heof

theorem trailingComments_perm (s : State) (n : Node) :
    ((trailingComments s n).1 ++ (trailingComments s n).2).Perm s.comments := by
  unfold trailingComments
  split
  · rw [List.partition_eq_filter_filter]
    exact List.filter_append_perm _ _
  · exact .refl _

namespace Survey

/-! ### Items -/

/-- Comments that wait may become nodes in hand. -/
theorem Has.collect (h : L.Has before xs s) (hC : L.Complete) {taken waiting : List Token}
    (hperm : (taken ++ waiting).Perm s.comments) :
    L.Has before (xs ++ taken.map .comment) { s with comments := waiting } := by
  have hsane : Sane (before ++ xs) { s with comments := waiting } :=
    h.kept.sane.congr rfl rfl (List.prefix_refl _) rfl
  have hcomment {p : Piece} (hp : p ∈ taken.map .comment) : ∃ t, p = .comment t :=
    let ⟨t, _, ht⟩ := List.mem_map.mp hp
    ⟨t, ht.symm⟩
  refine .intro ?_ (hsane.of_text fun p hp => ?_) h.idle fun n hn => ?_
  · rw [← List.append_assoc]
    exact hC.collect h.holds hperm
  · rw [← List.append_assoc, List.mem_append] at hp
    refine hp.imp_right fun hp => ?_
    obtain ⟨t, rfl⟩ := hcomment hp
    rfl
  · rcases List.mem_append.mp hn with hn | hn
    · exact h.bare n hn
    · obtain ⟨t, ht⟩ := hcomment hn
      cases ht
      exact isBare_build _ _ _ _ _

/-- An error is kept, and the token at fault is passed over. -/
theorem Has.recordPassing (h : L.Has before xs s) (hC : L.Complete) (he : L.Fit e.token) :
    L.Has before xs (s.record e).advance :=
  ⟨⟨(h.kept.left hC.toLawful).pass hC he, (State.lookaside_advance _).trans
    ((State.lookaside_record s e).trans h.idle)⟩, h.bare⟩

theorem Has.stepOver (h : L.Has before xs s) (hC : L.Complete) (start : Nat) :
    L.Has before xs (stepOver start s) := by
  unfold Grammar.stepOver
  split
  · exact h
  · exact h.recordPassing hC (h.fit_current hC.toLawful)

/-- The comments before a node and behind it are attached to it. -/
theorem Has.finishItem {leading : List Token} (h : L.Has before
    (xs ++ (leading.map .comment ++ [.node node])) s) (hC : L.Complete) (start : Nat) :
    L.Laid before (xs ++ [.node (finishItem start leading node s).1])
      (finishItem start leading node s).2 := by
  have hover := h.stepOver hC start
  have hattach {t : State} (ht : L.Has before (xs ++ (leading.map .comment ++ [.node node])) t) :
      L.Laid before (xs ++ [.node (withComments leading (trailingComments t node).1 node)])
        { t with comments := (trailingComments t node).2 } := by
    have hcollected := (ht.collect hC (trailingComments_perm t node)).toLaid
    have hall : L.Laid before (xs ++ ((leading.map .comment ++
        .node node :: (trailingComments t node).1.map .comment) ++ []))
        { t with comments := (trailingComments t node).2 } := by
      simpa using hcollected
    exact hall.makeIn xs hC.toLawful (.commented _ _ node (h.bare node (by simp)))
  unfold Grammar.finishItem
  dsimp only
  split
  · rename_i hat
    exact hattach (hover.stop hC hat)
  · exact hattach hover

/-- A statement is given up, and a name that waits becomes a node. -/
theorem Fails.recover (h : L.Fails before e s) (hC : L.Complete) {scope : ScopeId}
    (hscope : .scope scope ∈ before) :
    L.Has before ((recover e scope s).1.map .node) (recover e scope s).2 := by
  have hclear {t : State} (ht : L.Kept before t) : L.Kept before
      { t with symbols := t.symbols.enter scope, templateScope := none } :=
    (ht.enter hC.toLawful hscope).withNote hC.toLawful
      fun id hid => absurd hid (Option.not_mem_none id)
  unfold Grammar.recover
  dsimp only
  split
  · rename_i name hname
    exact (hclear (h.left.record hC.toLawful h.fit)).unstash hC.toLawful hname
  · rename_i hname
    split
    · exact (hclear (h.left.record hC.toLawful h.fit)).has hname
    · -- the error is kept and the token passed before the scope is entered, which comes to the same
      rw [State.advance_inTable, ← (s.record e).symbols_advance]
      exact (hclear (h.left.pass hC h.fit)).has ((State.lookaside_advance _).trans hname)

theorem yields_itemProduction (h : L.Whole r) (context : Context) (s : State) :
    L.Yields (itemProduction r context s) maybe := by
  unfold itemProduction
  split
  · exact yields_enumerator h.toTrusted
  · exact yields_statement h

/-- **One item of a list** keeps to the survey, whether it is read or given up. -/
theorem Has.item (hs : L.Has before [] s) (h : L.Whole r) (context : Context) :
    L.Laid before ((item r context s).1.map .node) (item r context s).2 := by
  have hC := h.complete
  rcases hlead : leadingComments s with ⟨leading, nodes⟩
  have hcomments : (nodes ++ leading.map Node.ofComment).map Piece.node =
      s.comments.map .comment := by
    unfold leadingComments at hlead
    split at hlead
    · cases hlead
      rw [List.nil_append, Piece.map_node_ofComment]
    · cases hlead
      rw [List.map_nil, List.append_nil, Piece.map_node_ofComment]
  have hstart : L.Has (before ++ [.scope s.symbols.current])
      ((nodes ++ leading.map Node.ofComment).map .node) { s with comments := [] } := by
    rw [hcomments]
    exact (hs.mindCurrent hC.toLawful).collect hC (by rw [List.append_nil])
  unfold Grammar.item
  rw [hlead]
  dsimp only
  rcases yields_itemProduction h context s hstart.aside with
    ⟨found, t, hp, -, ht⟩ | ⟨e, t, hp, -, ht⟩
  all_goals
    change (itemProduction r context s).run { s with comments := [] } = _ at hp
    rw [hp]
  · have hitem := (ht.pickUp hstart.bare).forget hC.toLawful (List.forall_mem_singleton.mpr rfl)
    cases found with
    | some node =>
      have hnode : L.Has before (nodes.map .node ++ (leading.map .comment ++ [.node node])) t := by
        rw [List.map_append, Piece.map_node_ofComment, List.append_assoc] at hitem
        exact hitem
      rw [List.map_append]
      exact hnode.finishItem hC _
    | none =>
      rw [maybe_none, List.append_nil] at hitem
      exact (hitem.recordPassing hC (hitem.fit_current hC.toLawful)).toLaid
  · have hscope : Piece.scope s.symbols.current ∈ before ++ [.scope s.symbols.current] ++
        (nodes ++ leading.map Node.ofComment).map .node := by simp
    have hdone := (ht.recover hC hscope).toLaid
    dsimp only
    rw [List.map_append]
    exact hdone.pickUp.forget hC.toLawful (List.forall_mem_singleton.mpr rfl)

/-! ### Lists -/

theorem Has.skipSemicolons (h : L.Has before xs s) (hC : L.Complete) (n : Nat) :
    L.Has before xs (skipSemicolons n s) := by
  induction n generalizing s with
  | zero => exact h
  | succ n ih =>
    unfold Grammar.skipSemicolons
    split
    · rename_i hat
      exact ih (h.stop hC hat)
    · exact h

/-- The nodes of a list lie aside. -/
theorem Laid.item {nodes : List Node} (hs : L.Has (before ++ nodes.map .node) [] s) (h : L.Whole r)
    (context : Context) : L.Laid before ((nodes ++ (Grammar.item r context s).1).map .node)
      (Grammar.item r context s).2 := by
  rw [List.map_append]
  exact (hs.item h context).pickUp

/-- The comments that are left over end a list. -/
theorem Laid.end {nodes : List Node} (hs : L.Has (before ++ nodes.map .node) [] s) (hC : L.Complete) :
    L.Laid before ((nodes ++ s.comments.map Node.ofComment).map .node)
      { s with comments := [] } := by
  rw [List.map_append, Piece.map_node_ofComment]
  exact (hs.collect hC (by rw [List.append_nil])).toLaid.pickUp

/-- **A list of statements** keeps to the survey. -/
theorem Laid.itemsAfter (h : L.Whole r) (context : Context) (n : Nat) {nodes : List Node}
    (hs : L.Laid before (nodes.map .node) s) :
    L.Laid before ((itemsAfter r context n nodes s).1.map .node)
      (itemsAfter r context n nodes s).2 := by
  -- on the rounds: an item adds its nodes to those that lie there
  induction n generalizing s nodes with
  | zero => exact hs
  | succ n ih =>
    have hskip := hs.aside.skipSemicolons h.complete r.rounds
    unfold Grammar.itemsAfter
    dsimp only
    generalize Grammar.skipSemicolons r.rounds s = t at hskip ⊢
    split
    · exact Laid.end hskip h.complete
    · exact ih (Laid.item hskip h context)

/-- A list that is left is halted. -/
def halt (nodes : List Node) (s : State) : List Node × State := (nodes, s.halted)

theorem Laid.halted {nodes : List Node} (h : L.Laid before (nodes.map .node) s) (hC : L.Complete)
    (hstrict : L.Strict) (context : Context) :
    L.Ended context before (halt nodes s).1 (halt nodes s).2 := by
  have hsane := h.kept.sane.record (s.error .unreachableState none)
  refine ⟨.intro (hC.halted hstrict h.holds) (hsane.congr rfl rfl (List.prefix_refl _) rfl)
    ((State.lookaside_record s _).trans h.idle), fun _ => ⟨rfl, rfl⟩⟩

/-- **A watched list** keeps to the survey and ends where it should. -/
theorem Laid.watchedAfter (h : L.Whole r) (hstrict : L.Strict) (context : Context) (n : Nat)
    {nodes : List Node} (hs : L.Laid before (nodes.map .node) s) :
    L.Ended context before (watchedAfter halt r context n nodes s).1
      (watchedAfter halt r context n nodes s).2 := by
  -- on the rounds: an item adds its nodes to those that lie there
  induction n generalizing s nodes with
  | zero => exact hs.halted h.complete hstrict context
  | succ n ih =>
    have hskip := hs.aside.skipSemicolons h.complete r.rounds
    unfold Grammar.watchedAfter
    dsimp only
    generalize Grammar.skipSemicolons r.rounds s = t at hskip ⊢
    split
    · rename_i hend
      exact ⟨Laid.end hskip h.complete, fun _ => ⟨hend, rfl⟩⟩
    · have hitem := Laid.item hskip h context
      split
      · exact hitem.halted h.complete hstrict context
      · exact ih hitem

/-! ### Circles -/

/-- The productions with some circles left, when lists are halted where these run out. -/
def halting : Nat → Rules
  | 0 => { exhausted with items := fun _ s => halt [] s }
  | n + 1 => (halting n).closed (n + 1) (watchedItems halt (halting n))

/-- With enough circles and rounds it makes no difference whether lists are halted. -/
theorem agree_halting {total n m m' : Nat} (hm : n < m) (hm' : n < m') :
    Agree total n (rules m) (halting m') :=
  agree_of_items (watchedItems halt) (fun _ => rfl) (fun h => keeps_watchedItems h halt) hm hm'

/-- With no circle left every production fails at once. -/
theorem links_exhausted (hL : L.Lawful) (items : Context → StateM State (List Node)) :
    L.Links { exhausted with items } := by
  have hfail : L.Yields (fail .unreachableState) maybe := fun _ _ hs => .fail (hs.fails hL _ _)
  exact ⟨hL, hfail, hfail, hfail, hfail, hfail, hfail⟩

/-- One more circle keeps to the survey. -/
theorem Circle.closed (h : L.Circle r) (rounds : Nat)
    (items : Context → StateM State (List Node)) : L.Links (r.closed rounds items) where
  lawful := h.lawful
  expression := (takes_expression h).yields
  shift := (takes_shift h).yields
  steps := (takes_steps h).yields
  deref := (takes_deref h).yields
  invert := (takes_invert h).yields
  typeRef := Turns.recast (turns_typeRef h.lawful h.arguments none) fun found => by
    cases found <;> rfl

/-- Lists keep to the survey, and end where they have to. -/
def KeepsItems (L : Survey) (items : Context → StateM State (List Node)) : Prop :=
  ∀ (context : Context) ⦃before s⦄, L.Has before [] s →
    L.Ended context before (items context s).1 (items context s).2

/-- With no circle left, lists are all that matters. -/
theorem keeps_exhausted (hC : L.Complete) {items : Context → StateM State (List Node)}
    (hitems : L.KeepsItems items) : L.Keeps { exhausted with items } where
  toLinks := links_exhausted hC.toLawful items
  complete := hC
  statement := fun _ _ hs => .fail (hs.fails hC.toLawful _ _)
  items := hitems

/-- **One more circle** keeps to the survey if all circles before, all attempts and the lists do. -/
theorem Whole.closed (h : L.Whole r) (rounds : Nat) {items : Context → StateM State (List Node)}
    (hitems : L.KeepsItems items) : L.Keeps (r.closed rounds items) where
  toLinks := h.circle.closed rounds items
  complete := h.complete
  statement := yields_statement h
  items := hitems

/-- **Where attempts keep to it, everything keeps to the survey**, however many circles are left, if
lists do with one circle more. -/
theorem whole_of_attempts {q : Nat → Rules} (hzero : L.Keeps (q 0))
    (hsucc : ∀ n, L.Whole (q n) → L.Keeps (q (n + 1)))
    (harguments : ∀ n, L.Keeps (q n) → L.KeepsArguments (q n))
    (hdeclaring : ∀ n, L.Trusted (q n) → L.KeepsDeclaring (q n)) (n : Nat) : L.Whole (q n) := by
  have hwhole {n : Nat} (h : L.Keeps (q n)) : L.Whole (q n) :=
    have htrusted : L.Trusted (q n) := ⟨h, harguments n h⟩
    ⟨htrusted, hdeclaring n htrusted⟩
  induction n with
  | zero => exact hwhole hzero
  | succ n ih => exact hwhole (hsucc n ih)

/-- Lists of `rules` keep to a survey that they need not be read to their end for. -/
theorem whole_rules (hC : L.Complete) (hloose : ¬L.Strict)
    (harguments : ∀ n, L.Keeps (rules n) → L.KeepsArguments (rules n))
    (hdeclaring : ∀ n, L.Trusted (rules n) → L.KeepsDeclaring (rules n)) (n : Nat) :
    L.Whole (rules n) := by
  have hended {items : Context → StateM State (List Node)} (hitems : ∀ (context : Context) ⦃before s⦄,
      L.Has before [] s → L.Laid before ((items context s).1.map .node) (items context s).2) :
      L.KeepsItems items := fun context _ _ hs => ⟨hitems context hs, fun h => absurd h hloose⟩
  have hzero : L.KeepsItems exhausted.items := hended fun _ _ _ hs => hs.toLaid
  refine whole_of_attempts (keeps_exhausted hC hzero) (fun n h => ?_) harguments hdeclaring n
  exact h.closed (n + 1) (hended fun context _ _ hs =>
    Laid.itemsAfter h context (rules n).rounds hs.toLaid)

/-- Lists that are halted keep to one that they have to be. -/
theorem whole_halting (hC : L.Complete) (hstrict : L.Strict)
    (harguments : ∀ n, L.Keeps (halting n) → L.KeepsArguments (halting n))
    (hdeclaring : ∀ n, L.Trusted (halting n) → L.KeepsDeclaring (halting n)) (n : Nat) :
    L.Whole (halting n) := by
  refine whole_of_attempts (keeps_exhausted hC fun context _ _ hs => ?_) (fun n h => ?_) harguments
    hdeclaring n
  · exact hs.toLaid.halted hC hstrict context
  · exact h.closed (n + 1) fun context _ _ hs =>
      Laid.watchedAfter h hstrict context (halting n).rounds hs.toLaid

/-- Where reading may always go back, attempts need not be looked at. -/
theorem Keeps.attempt (h : L.Keeps r) (hback : L.GoesBack fun _ _ => True) : L.KeepsArguments r :=
  h.keepsArguments hback fun _ _ _ _ => .any _ _

theorem Trusted.attempt (h : L.Trusted r) (hback : L.GoesBack fun _ _ => True) :
    L.KeepsDeclaring r :=
  h.keepsDeclaring hback fun _ _ _ => (Meets.any _ _).weaken fun _ _ _ _ => trivial

/-- Everything keeps to a loose survey. -/
theorem Loose.whole {Fit : Token → Prop} {Holds : List Piece → State → Prop} (h : Loose Fit Holds)
    (n : Nat) : (loose Fit Holds).Whole (rules n) :=
  whole_rules h.complete id (fun _ hkeeps => hkeeps.attempt h.goesBack)
    (fun _ hkeeps => hkeeps.attempt h.goesBack) n

/-! ### Whole texts -/

/-- Nothing is in hand before a text. -/
theorem has_start {source : String} {config : ParseConfig}
    (hstart : L.Holds [] (State.start source config)) : L.Has [] [] (State.start source config) := by
  have hsymbols : (State.start source config).symbols = .initial := by
    simp only [State.start, State.bump, State.unread]
  refine .intro hstart ⟨?_, fun id hid => absurd hid (Option.not_mem_none id), List.forall_mem_nil _,
    fun n hn => absurd hn (Option.not_mem_none n)⟩ rfl fun _ hn => absurd hn List.not_mem_nil
  rw [hsymbols]
  exact .initial

/-- What lies there when a text has been read. -/
theorem laid_items {source : String} {config : ParseConfig}
    (h : L.Whole (rules (Program.circles source))) (hstart : L.Holds [] (State.start source config)) :
    let found := (rules (Program.circles source)).items .file (State.start source config)
    L.Laid [] (found.1.map .node) found.2 := (h.items .file (has_start hstart)).laid

/-- **The reading of a text** keeps to the survey, and ends with a reachable table. -/
theorem reading_keeps {source : String} {config : ParseConfig}
    (h : L.Whole (rules (Program.circles source))) (hstart : L.Holds [] (State.start source config)) :
    ∃ s : State, L.Holds ((Program.parse source config).nodes.map .node) s ∧
      s.errors = (Program.parse source config).errors ∧
      s.symbols = (Program.parse source config).symbols ∧ s.symbols.Reached := by
  have hend := laid_items h hstart
  exact ⟨_, hend.holds, rfl, rfl, hend.kept.sane.reached⟩

/-- The reading of a text keeps to a survey that lists have to be read to their end for, and ends
with the text. -/
theorem ended_file {source : String} {config : ParseConfig}
    (h : L.Whole (halting (source.utf8ByteSize + 1))) (hstrict : L.Strict)
    (hstart : L.Holds [] (State.start source config)) :
    let found := (rules (Program.circles source)).items .file (State.start source config)
    L.Ended .file [] found.1 found.2 := by
  have hagree : Agree source.utf8ByteSize source.utf8ByteSize (rules (source.utf8ByteSize + 1))
      (halting (source.utf8ByteSize + 1)) :=
    agree_halting (Nat.lt_succ_self _) (Nat.lt_succ_self _)
  obtain ⟨hsame, -, -⟩ := (at_start source config).watchedAfter hagree (Nat.le_refl _)
    hagree.lt_rounds hagree.lt_rounds' halt .file []
  have hnone : L.Laid [] (([] : List Node).map .node) (State.start source config) :=
    (has_start hstart).toLaid
  have hended := hnone.watchedAfter h hstrict .file (halting (source.utf8ByteSize + 1)).rounds
  rw [hsame] at hended
  exact hended

end Survey

end SableFront.Grammar
