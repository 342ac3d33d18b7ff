import SableFront.Proofs.Survey.Law

/-!
# Surveys: the pieces in hand

`L.Has before xs s` says that in the state `s` the pieces `xs` are in hand, behind the pieces
`before` of whoever asked for the production, and that no comments are attached to the nodes among
them yet. Only idle pieces may be put away. After an error the pieces in hand are lost, and it stands
less well with those that remain until the error is kept: `L.Fails before e s`. The symbols and scopes
in hand, the current scope and the note of a template header are in the table all the time, whatever
the survey (`Sane`).
-/

namespace SableFront

namespace Grammar

open Node

namespace Survey

/-- The table is a reachable one, and what is kept in mind is there. -/
structure Sane (ps : List Piece) (s : State) : Prop where
  reached : s.symbols.Reached
  note : ∀ id ∈ s.templateScope, id < s.symbols.scopes.size
  pieces : ∀ p ∈ ps, p.InState s
  /-- No comments are attached to the name that waits. -/
  waiting : ∀ n ∈ s.lookaside, n.IsBare

variable (L : Survey)

/-- It stands well with the pieces and with a name that may wait behind them. -/
structure Kept (ps : List Piece) (s : State) : Prop where
  holds : L.Holds (ps ++ s.lookaside.toList.map .node) s
  sane : Sane ps s

/-- The pieces `xs` lie behind those in `before`, and no name waits. -/
structure Laid (before xs : List Piece) (s : State) : Prop where
  kept : L.Kept (before ++ xs) s
  idle : s.lookaside = none

/-- The pieces `xs` are in hand behind those in `before`: no comments are attached to the nodes among
them. -/
structure Has (before xs : List Piece) (s : State) : Prop extends Laid L before xs s where
  bare : ∀ n, .node n ∈ xs → n.IsBare

/-- Pieces are given up, and these are left, with a name that may wait. -/
structure Left (ps : List Piece) (s : State) : Prop where
  breaks : L.Breaks (ps ++ s.lookaside.toList.map .node) s
  sane : Sane ps s

/-- After an error, the pieces that were there before are left. -/
structure Fails (before : List Piece) (e : SyntaxError) (s : State) : Prop where
  left : L.Left before s
  fit : L.Fit e.token

/-- The production is handed pieces and hands on what its result carries. -/
def Turns {α : Type} (xs : List Piece) (p : Production α) (carry : α → List Piece) : Prop :=
  ∀ ⦃before s⦄, L.Has before xs s → Meets s p p (fun a => L.Has before (carry a)) (L.Fails before)

/-- Like `Turns`, where the current token is there for a use. -/
def Opens {α : Type} (use : Use) (xs : List Piece) (p : Production α) (carry : α → List Piece) :
    Prop :=
  ∀ ⦃before s⦄, L.Has before xs s → use.allows s.current.kind →
    Meets s p p (fun a => L.Has before (carry a)) (L.Fails before)

/-- The production needs nothing in hand and hands on what its result carries. -/
def Yields {α : Type} (p : Production α) (carry : α → List Piece) : Prop := L.Turns [] p carry

/-- Like `Yields`, where a name may wait to be read. -/
def Takes {α : Type} (p : Production α) (carry : α → List Piece) : Prop :=
  ∀ ⦃before s⦄, L.Kept before s → Meets s p p (fun a => L.Has before (carry a)) (L.Fails before)

end Survey

/-- A node in hand. -/
def one (n : Node) : List Piece := [.node n]

/-- A node in hand, if there is one. -/
def maybe (found : Option Node) : List Piece := found.toList.map .node

/-- The nodes of a list in hand, with the token that closes the list. -/
def listed (use : Use) (found : List Node × Token) : List Piece :=
  found.1.map .node ++ [.token use found.2]

variable {L : Survey} {before ps qs xs ys zs : List Piece} {s t : State} {e : SyntaxError} {n : Node}
  {use : Use}

@[simp] theorem maybe_some (n : Node) : maybe (some n) = [.node n] := rfl

@[simp] theorem maybe_none : maybe none = [] := rfl

@[simp] theorem flatMap_one (ns : List Node) : ns.flatMap one = ns.map .node := by
  induction ns with
  | nil => rfl
  | cons n ns ih => rw [List.flatMap_cons, ih, List.map_cons, one, List.singleton_append]

namespace Survey

namespace Sane

theorem sublist (h : Sane ps s) (hps : qs.Sublist ps) : Sane qs s :=
  ⟨h.reached, h.note, fun p hp => h.pieces p (hps.subset hp), h.waiting⟩

/-- Only the table, the note, the errors and the name that waits matter. -/
theorem congr (h : Sane ps s) (hsymbols : t.symbols = s.symbols)
    (hnote : t.templateScope = s.templateScope) (herrors : s.errors <+: t.errors)
    (hlookaside : t.lookaside = s.lookaside) : Sane ps t := by
  refine ⟨hsymbols ▸ h.reached, hnote ▸ hsymbols ▸ h.note, fun p hp => ?_, hlookaside ▸ h.waiting⟩
  have hin := h.pieces p hp
  cases p
  case faults => exact List.IsPrefix.trans hin herrors
  case scope | symbol =>
    rw [Piece.InState, hsymbols]
    exact hin
  all_goals trivial

/-- Another name may wait, or none. -/
theorem withLookaside (h : Sane ps s) {found : Option Node} (hfound : ∀ n ∈ found, n.IsBare) :
    Sane ps { s with lookaside := found } := ⟨h.reached, h.note, h.pieces, hfound⟩

/-- Pieces that are in the text do not matter. -/
theorem of_text (h : Sane ps s) (hqs : ∀ p ∈ qs, p ∈ ps ∨ p.isMental = false) : Sane qs s := by
  refine ⟨h.reached, h.note, fun p hp => ?_, h.waiting⟩
  rcases hqs p hp with hold | htext
  · exact h.pieces p hold
  · cases p
    case token | node => trivial
    all_goals cases htext

theorem advance (h : Sane ps s) : Sane ps s.advance := by
  unfold State.advance
  split
  · exact h
  · exact h.congr rfl rfl (List.prefix_refl _) rfl

theorem record (h : Sane ps s) (e : SyntaxError) : Sane ps (s.record e) := by
  unfold State.record
  split
  · exact h
  · exact h.congr rfl rfl (List.prefix_append _ _) rfl

theorem operate (h : Sane ps s) {op : SymbolTable.Operation} (hop : op.IsFor s.symbols) :
    Sane ps { s with symbols := op.apply s.symbols } := by
  have hsize := op.size_le_apply s.symbols
  refine ⟨.step op h.reached hop, fun id hid => Nat.lt_of_lt_of_le (h.note id hid) hsize.2,
    fun p hp => ?_, h.waiting⟩
  have hin := h.pieces p hp
  cases p
  case scope => exact Nat.lt_of_lt_of_le hin hsize.2
  case symbol => exact Nat.lt_of_lt_of_le hin hsize.1
  case faults => exact hin
  all_goals trivial

/-- What is there in both states is there where reading goes back. -/
theorem rewind (h : Sane ps s) (ht : Sane ps { t with symbols := t.symbols.enter s.symbols.current })
    (herrors : s.errors <+: t.errors) : Sane ps (t.rewind s) := by
  refine ⟨ht.reached, ht.note, fun p hp => ?_, h.waiting⟩
  have hin := ht.pieces p hp
  cases p
  case faults es =>
    change es <+: t.errors.take s.errors.length
    rw [← List.prefix_iff_eq_take.mp herrors]
    exact h.pieces _ hp
  case scope | symbol => exact hin
  all_goals trivial

end Sane

namespace Left

theorem sublist (h : L.Left ps s) (hL : L.Lawful) (hps : qs.Sublist ps) : L.Left qs s :=
  ⟨hL.lose h.breaks (hps.append (.refl _)), h.sane.sublist hps⟩

theorem withNote (h : L.Left ps s) (hL : L.Lawful) {note : Option ScopeId}
    (hnote : ∀ id ∈ note, id < s.symbols.scopes.size) :
    L.Left ps { s with templateScope := note } :=
  ⟨hL.breaks_congr h.breaks rfl rfl rfl rfl rfl, h.sane.reached, hnote, h.sane.pieces, h.sane.waiting⟩

/-- A scope that is in hand may be entered. -/
theorem enter (h : L.Left ps s) (hL : L.Lawful) {scope : ScopeId} (hscope : .scope scope ∈ ps) :
    L.Left ps { s with symbols := s.symbols.enter scope } :=
  have hop : (SymbolTable.Operation.enter scope).IsFor s.symbols := h.sane.pieces _ hscope
  ⟨hL.breaks_operate h.breaks h.sane.reached hop, h.sane.operate hop⟩

/-- An error is kept, and it stands well again. -/
theorem record (h : L.Left ps s) (hL : L.Lawful) (he : L.Fit e.token) : L.Kept ps (s.record e) := by
  refine ⟨?_, h.sane.record e⟩
  rw [State.lookaside_record]
  exact hL.record h.breaks he

/-- An error is kept, and a token is passed. -/
theorem pass (h : L.Left ps s) (hC : L.Complete) (he : L.Fit e.token) :
    L.Kept ps (s.record e).advance := by
  refine ⟨?_, (h.sane.record e).advance⟩
  rw [State.lookaside_advance, State.lookaside_record]
  exact hC.pass h.breaks he

end Left

namespace Kept

theorem left (h : L.Kept ps s) (hL : L.Lawful) : L.Left ps s := ⟨hL.breaks h.holds, h.sane⟩

/-- Idle pieces may be put away. -/
theorem tidy (h : L.Kept ps s) (hL : L.Lawful) (hps : Piece.Tidies ps qs) : L.Kept qs s :=
  ⟨hL.tidy h.holds (hps.append (.refl _)), h.sane.sublist hps.sublist⟩

/-- Newlines do not matter, and neither do notes but for being in the table. -/
theorem congr (h : L.Kept ps s) (hL : L.Lawful) (hlexer : t.lexer = s.lexer)
    (herrors : t.errors = s.errors) (hcomments : t.comments = s.comments)
    (hsymbols : t.symbols = s.symbols) (hconfig : t.config = s.config)
    (hlookaside : t.lookaside = s.lookaside) (hsane : Sane ps t) : L.Kept ps t := by
  refine ⟨?_, hsane⟩
  rw [hlookaside]
  exact hL.congr h.holds hlexer herrors hcomments hsymbols hconfig

theorem withNote (h : L.Kept ps s) (hL : L.Lawful) {note : Option ScopeId}
    (hnote : ∀ id ∈ note, id < s.symbols.scopes.size) :
    L.Kept ps { s with templateScope := note } :=
  h.congr hL rfl rfl rfl rfl rfl rfl ⟨h.sane.reached, hnote, h.sane.pieces, h.sane.waiting⟩

theorem record (h : L.Kept ps s) (hL : L.Lawful) (he : L.Fit e.token) :
    L.Kept ps (s.record e) := (h.left hL).record hL he

theorem operate (h : L.Kept ps s) (hL : L.Lawful) {op : SymbolTable.Operation}
    (hop : op.IsFor s.symbols) : L.Kept ps { s with symbols := op.apply s.symbols } :=
  ⟨hL.operate h.holds h.sane.reached hop, h.sane.operate hop⟩

/-- A scope that is in hand may be entered. -/
theorem enter (h : L.Kept ps s) (hL : L.Lawful) {scope : ScopeId} (hscope : .scope scope ∈ ps) :
    L.Kept ps { s with symbols := s.symbols.enter scope } :=
  have hop : (SymbolTable.Operation.enter scope).IsFor s.symbols := h.sane.pieces _ hscope
  h.operate hL hop

/-- The name that waits is taken in hand. -/
theorem unstash (h : L.Kept before s) (hL : L.Lawful) (hname : s.lookaside = some n) :
    L.Has before [.node n] { s with lookaside := none } := by
  have hholds := h.holds
  rw [hname] at hholds
  have hsane : Sane before { s with lookaside := none } :=
    h.sane.withLookaside fun n hn => absurd hn (Option.not_mem_none n)
  refine ⟨⟨⟨?_, hsane.of_text fun p hp => ?_⟩, rfl⟩, fun m hm => ?_⟩
  · rw [Option.toList_none, List.map_nil, List.append_nil]
    exact hL.congr hholds rfl rfl rfl rfl rfl
  · rcases List.mem_append.mp hp with hp | hp
    · exact .inl hp
    · rw [List.mem_singleton.mp hp]
      exact .inr rfl
  · cases List.mem_singleton.mp hm
    exact h.sane.waiting n hname

/-- Where no name waits, nothing need be in hand. -/
theorem has (h : L.Kept before s) (hidle : s.lookaside = none) : L.Has before [] s :=
  ⟨⟨(List.append_nil before).symm ▸ h, hidle⟩, fun _ hn => absurd hn List.not_mem_nil⟩

end Kept

namespace Laid

theorem holds (h : L.Laid before xs s) : L.Holds (before ++ xs) s := by
  have hholds := h.kept.holds
  rwa [h.idle, Option.toList_none, List.map_nil, List.append_nil] at hholds

theorem intro (hholds : L.Holds (before ++ xs) s) (hsane : Sane (before ++ xs) s)
    (hidle : s.lookaside = none) : L.Laid before xs s := by
  refine ⟨⟨?_, hsane⟩, hidle⟩
  rwa [hidle, Option.toList_none, List.map_nil, List.append_nil]

/-- All pieces may be put down. -/
theorem aside (h : L.Laid before ys s) : L.Has (before ++ ys) [] s := h.kept.has h.idle

theorem pickUp (h : L.Laid (before ++ ys) xs s) : L.Laid before (ys ++ xs) s := by
  refine ⟨?_, h.idle⟩
  rw [← List.append_assoc]
  exact h.kept

/-- What was kept in mind may be forgotten. -/
theorem forget (h : L.Laid (before ++ ys) xs s) (hL : L.Lawful) (hys : ∀ p ∈ ys, p.isIdle) :
    L.Laid before xs s :=
  ⟨h.kept.tidy hL ((Piece.Tidies.left hys).append (.refl xs)), h.idle⟩

/-- Pieces become a node, where they stand. -/
theorem makeIn (ys : List Piece) (h : L.Laid before (ys ++ (xs ++ zs)) s) (hL : L.Lawful)
    (hn : Makes s.symbols xs n) : L.Laid before (ys ++ .node n :: zs) s := by
  refine .intro ?_ (h.kept.sane.of_text fun p hp => ?_) h.idle
  · have hholds := h.holds
    rw [← List.append_assoc] at hholds ⊢
    exact hL.make hholds hn
  · simp only [List.mem_append, List.mem_cons] at hp
    rcases hp with hp | hp | rfl | hp
    · exact .inl (by simp [hp])
    · exact .inl (by simp [hp])
    · exact .inr rfl
    · exact .inl (by simp [hp])

/-- All pieces become a node. -/
theorem make (h : L.Laid before xs s) (hL : L.Lawful) (hn : Makes s.symbols xs n)
    (hbare : n.IsBare) : L.Has before [.node n] s := by
  have hall : L.Laid before ([] ++ (xs ++ [])) s := (List.append_nil xs).symm ▸ h
  refine ⟨hall.makeIn [] hL hn, fun m hm => ?_⟩
  cases List.mem_singleton.mp hm
  exact hbare

/-- A node is built from all pieces. -/
theorem build (h : L.Laid before xs s) (hL : L.Lawful) {form : Form} {anchor : Token}
    {children : List Node} {marks : List Token} {spans : List Span}
    (hxs : Assembled xs form anchor marks spans) (hchildren : Piece.nodes xs = children)
    (hspans : Spanned xs anchor marks spans) :
    L.Has before [.node (.build form anchor children marks spans)] s := by
  rw [← hchildren]
  exact h.make hL (.build hxs hspans) (isBare_build _ _ _ _ _)

/-- Like `build`, where all children are covered. -/
theorem branch (h : L.Laid before xs s) (hL : L.Lawful) {form : Form} {anchor : Token}
    {children : List Node} (hxs : Assembled xs form anchor [] (children.map span))
    (hchildren : Piece.nodes xs = children) : L.Has before [.node (.branch form anchor children)] s :=
  h.build hL hxs hchildren (.children hchildren)

end Laid

namespace Has

theorem intro (hholds : L.Holds (before ++ xs) s) (hsane : Sane (before ++ xs) s)
    (hidle : s.lookaside = none) (hbare : ∀ n, .node n ∈ xs → n.IsBare) : L.Has before xs s :=
  ⟨.intro hholds hsane hidle, hbare⟩

/-- Idle pieces in hand may be put away. -/
theorem tidy (h : L.Has before xs s) (hL : L.Lawful) (hxs : Piece.Tidies xs ys) :
    L.Has before ys s :=
  ⟨⟨h.kept.tidy hL ((Piece.Tidies.refl before).append hxs), h.idle⟩,
    fun n hn => h.bare n (hxs.sublist.subset hn)⟩

theorem bare_left (h : L.Has before (ys ++ xs) s) : ∀ n, .node n ∈ ys → n.IsBare :=
  fun n hn => h.bare n (List.mem_append_left _ hn)

/-- Pieces may be put down before the others. -/
theorem putDown (h : L.Has before (ys ++ xs) s) : L.Has (before ++ ys) xs s := by
  refine ⟨⟨?_, h.idle⟩, fun n hn => h.bare n (List.mem_append_right _ hn)⟩
  rw [List.append_assoc]
  exact h.kept

/-- And they may be picked up again. -/
theorem pickUp (h : L.Has (before ++ ys) xs s) (hys : ∀ n, .node n ∈ ys → n.IsBare) :
    L.Has before (ys ++ xs) s :=
  ⟨h.toLaid.pickUp, fun n hn => (List.mem_append.mp hn).elim (hys n) (h.bare n)⟩

/-- The current scope is in the table. -/
theorem current_lt (h : L.Has before xs s) : s.symbols.current < s.symbols.scopes.size :=
  h.kept.sane.reached.consistent.current

/-- What was kept in mind may be forgotten. -/
theorem forget (h : L.Has (before ++ ys) xs s) (hL : L.Lawful) (hys : ∀ p ∈ ys, p.isIdle) :
    L.Has before xs s := ⟨h.toLaid.forget hL hys, h.bare⟩

/-- What is in hand is given up. -/
theorem drop (h : L.Has before xs s) (hL : L.Lawful) : L.Left before s :=
  (h.kept.left hL).sublist hL (List.sublist_append_left before xs)

/-- The node in hand waits to be read as a name. -/
theorem stash (h : L.Has before [.node n] s) (hL : L.Lawful) :
    L.Kept before { s with lookaside := some n } := by
  have hsane : Sane before s := h.kept.sane.sublist (List.sublist_append_left before _)
  refine ⟨hL.congr h.holds rfl rfl rfl rfl rfl, hsane.withLookaside fun m hm => ?_⟩
  cases hm
  exact h.bare n List.mem_cons_self

theorem fit_current (h : L.Has before xs s) (hL : L.Lawful) : L.Fit s.current :=
  hL.fit_current (hL.breaks h.holds)

/-- Failing at the current token. -/
theorem fails (h : L.Has before xs s) (hL : L.Lawful) (kind : ErrorKind)
    (reason : Option Reason) : L.Fails before (s.error kind reason) s :=
  ⟨h.drop hL, h.fit_current hL⟩

/-- Failing at a token or node in hand. -/
theorem fit (h : L.Has before xs s) (hL : L.Lawful) {token : Token}
    (htoken : token ∈ Piece.anchors xs) : L.Fit token := by
  refine hL.fit (hL.breaks h.holds) ?_
  unfold Piece.anchors at htoken ⊢
  rw [List.filterMap_append]
  exact List.mem_append_right _ htoken

end Has

theorem Fails.sublist (h : L.Fails before e s) (hL : L.Lawful) (hps : qs.Sublist before) :
    L.Fails qs e s := ⟨h.left.sublist hL hps, h.fit⟩

theorem Fails.drop (h : L.Fails (before ++ xs) e s) (hL : L.Lawful) : L.Fails before e s :=
  h.sublist hL (List.sublist_append_left before xs)

/-! ### Steps -/

namespace Has

/-- One more piece is in hand. -/
theorem push {q : Piece} (h : L.Has before xs s) (hholds : L.Holds (before ++ xs ++ [q]) t)
    (hsane : Sane (before ++ xs ++ [q]) t) (hidle : t.lookaside = none)
    (hbare : ∀ n, q = .node n → n.IsBare) : L.Has before (xs ++ [q]) t := by
  refine .intro ?_ ?_ hidle fun n hn => ?_
  · rwa [← List.append_assoc]
  · rwa [← List.append_assoc]
  · rcases List.mem_append.mp hn with hn | hn
    · exact h.bare n hn
    · exact hbare n (List.mem_singleton.mp hn).symm

/-- A token is passed and in hand. -/
theorem pushToken {token : Token} (h : L.Has before xs s)
    (hholds : L.Holds (before ++ xs ++ [.token use token]) t.advance)
    (hsane : Sane (before ++ xs) t) (hidle : t.lookaside = none) :
    L.Has before (xs ++ [.token use token]) t.advance := by
  refine h.push hholds (hsane.advance.of_text fun p hp => ?_)
    ((State.lookaside_advance t).trans hidle) fun _ hn => Piece.noConfusion hn
  rcases List.mem_append.mp hp with hp | hp
  · exact .inl hp
  · exact .inr (List.mem_singleton.mp hp ▸ rfl)

/-- The current token is passed and in hand for a use. -/
theorem advance (h : L.Has before xs s) (hL : L.Lawful) (huse : use.allows s.current.kind) :
    L.Has before (xs ++ [.token use s.current]) s.advance :=
  h.pushToken (hL.advance h.holds huse) h.kept.sane h.idle

/-- Invalid text is passed where an error is in hand. -/
theorem junk (h : L.Has before xs s) (hL : L.Lawful) (hs : s.isAt .invalid) (he : .error e ∈ xs) :
    L.Has before (xs ++ [.token .plain s.current]) s.advance :=
  h.pushToken (hL.junk h.holds hs (List.mem_append_right _ he)) h.kept.sane h.idle

/-- The first `>` of the current token is passed, and the others are read again. -/
theorem closeAngle (h : L.Has before xs s) (hL : L.Lawful) (hs : isClosingAngle s.current.kind) :
    L.Has before (xs ++ [.token .angle (s.lexer.splitAngle?.getD s.lexer).token])
      (State.advance { s with lexer := s.lexer.splitAngle?.getD s.lexer }) :=
  h.pushToken (hL.close h.holds hs) (h.kept.sane.congr rfl rfl (List.prefix_refl _) rfl) h.idle

/-- What is idle is put away. -/
theorem putAway {q : Piece} (h : L.Has before (xs ++ [q]) s) (hL : L.Lawful) (hq : q.isIdle) :
    L.Has before xs s := h.tidy hL (.left (List.forall_mem_singleton.mpr hq))

/-- The current token is passed and not kept. -/
theorem skip (h : L.Has before xs s) (hL : L.Lawful) (hplain : Use.plain.allows s.current.kind) :
    L.Has before xs s.advance := (h.advance hL hplain).putAway hL rfl

/-- A semicolon is passed. -/
theorem stop (h : L.Has before xs s) (hC : L.Complete) (hs : s.isAt (.punctuation .semicolon)) :
    L.Has before xs s.advance :=
  .intro (hC.stop h.holds hs) h.kept.sane.advance ((State.lookaside_advance s).trans h.idle) h.bare

theorem record (h : L.Has before xs s) (hL : L.Lawful) (he : L.Fit e.token) :
    L.Has before xs (s.record e) :=
  ⟨⟨h.kept.record hL he, (s.lookaside_record e).trans h.idle⟩, h.bare⟩

theorem operate (h : L.Has before xs s) (hL : L.Lawful) {op : SymbolTable.Operation}
    (hop : op.IsFor s.symbols) : L.Has before xs { s with symbols := op.apply s.symbols } :=
  ⟨⟨h.kept.operate hL hop, h.idle⟩, h.bare⟩

theorem withNote (h : L.Has before xs s) (hL : L.Lawful) {note : Option ScopeId}
    (hnote : ∀ id ∈ note, id < s.symbols.scopes.size) :
    L.Has before xs { s with templateScope := note } := ⟨⟨h.kept.withNote hL hnote, h.idle⟩, h.bare⟩

theorem clearNote (h : L.Has before xs s) (hL : L.Lawful) :
    L.Has before xs { s with templateScope := none } :=
  h.withNote hL fun id hid => absurd hid (Option.not_mem_none id)

/-- What is in the table may be kept in mind. -/
theorem mind (h : L.Has before (xs ++ ys) s) (hL : L.Lawful) {q : Piece} (hmental : q.isMental)
    (herror : ∀ e, q ≠ .error e) (hq : q.InState s) : L.Has before (xs ++ q :: ys) s := by
  refine .intro ?_ ⟨h.kept.sane.reached, h.kept.sane.note, fun p hp => ?_, h.kept.sane.waiting⟩ h.idle
    fun n hn => ?_
  · have hholds := h.holds
    rw [← List.append_assoc] at hholds ⊢
    exact hL.mind hholds hmental herror
  · simp only [List.mem_append, List.mem_cons] at hp
    rcases hp with hp | hp | rfl | hp
    · exact h.kept.sane.pieces p (by simp [hp])
    · exact h.kept.sane.pieces p (by simp [hp])
    · exact hq
    · exact h.kept.sane.pieces p (by simp [hp])
  · simp only [List.mem_append, List.mem_cons] at hn
    rcases hn with hn | rfl | hn
    · exact h.bare n (by simp [hn])
    · cases hmental
    · exact h.bare n (by simp [hn])

/-- An error is kept, and kept in mind. -/
theorem note (h : L.Has before xs s) (hL : L.Lawful) (he : L.Fit e.token)
    (htimely : L.Strict → IsTimely e) : L.Has before (xs ++ [.error e]) (s.record e) := by
  have hrecord := h.record hL he
  have hmem (hmax : (s.record e).config.maxErrors = none) : e ∈ (s.record e).errors := by
    rw [s.config_record] at hmax
    rw [s.errors_record e hmax]
    exact List.mem_append_right _ List.mem_cons_self
  refine hrecord.push (hL.note hrecord.holds hmem htimely) ⟨hrecord.kept.sane.reached,
    hrecord.kept.sane.note, fun p hp => ?_, hrecord.kept.sane.waiting⟩ hrecord.idle
    fun _ hn => Piece.noConfusion hn
  rcases List.mem_append.mp hp with hp | hp
  · exact hrecord.kept.sane.pieces p hp
  · rw [List.mem_singleton.mp hp]
    trivial

/-- A scope may be kept in mind before all that is in hand. -/
theorem mindScope (h : L.Has before xs s) (hL : L.Lawful) {scope : ScopeId}
    (hscope : scope < s.symbols.scopes.size) : L.Has (before ++ [.scope scope]) xs s := by
  have hall : L.Has before ([] ++ xs) s := h
  have hmind : L.Has before ([.scope scope] ++ xs) s :=
    hall.mind hL rfl (fun _ => Piece.noConfusion) hscope
  exact hmind.putDown

/-- The current scope may be kept in mind. -/
theorem mindCurrent (h : L.Has before xs s) (hL : L.Lawful) :
    L.Has (before ++ [.scope s.symbols.current]) xs s := h.mindScope hL h.current_lt

/-- A symbol may be kept in mind behind all that is in hand. -/
theorem mindSymbol (h : L.Has before xs s) (hL : L.Lawful) {id : SymbolId}
    (hid : id < s.symbols.size) : L.Has before (xs ++ [.symbol id]) s := by
  have hall : L.Has before (xs ++ []) s := (List.append_nil xs).symm ▸ h
  exact hall.mind hL rfl (fun _ => Piece.noConfusion) hid

/-- A symbol in hand is in the table. -/
theorem symbol_lt (h : L.Has before xs s) {id : SymbolId} (hid : .symbol id ∈ xs) :
    id < s.symbols.size := h.kept.sane.pieces _ (List.mem_append_right _ hid)

/-- A scope in hand is in the table. -/
theorem scope_lt (h : L.Has before xs s) {id : ScopeId} (hid : .scope id ∈ before ++ xs) :
    id < s.symbols.scopes.size := h.kept.sane.pieces _ hid

/-! ### Nodes -/

/-- Pieces in hand become a node, where they stand. -/
theorem makeIn (ys : List Piece) (h : L.Has before (ys ++ (xs ++ zs)) s) (hL : L.Lawful)
    (hn : Makes s.symbols xs n) (hbare : n.IsBare) : L.Has before (ys ++ .node n :: zs) s := by
  refine ⟨h.toLaid.makeIn ys hL hn, fun m hm => ?_⟩
  simp only [List.mem_append, List.mem_cons, Piece.node.injEq] at hm
  rcases hm with hm | rfl | hm
  · exact h.bare m (by simp [hm])
  · exact hbare
  · exact h.bare m (by simp [hm])

/-- The last pieces in hand become a node. -/
theorem makeLast (h : L.Has before (ys ++ xs) s) (hL : L.Lawful) (hn : Makes s.symbols xs n)
    (hbare : n.IsBare) : L.Has before (ys ++ [.node n]) s := by
  rw [← List.append_nil xs] at h
  exact h.makeIn ys hL hn hbare

/-- The last piece in hand is a token that becomes a leaf. -/
theorem leaf {token : Token} (h : L.Has before (ys ++ [.token use token]) s) (hL : L.Lawful)
    {form : Form} (hleaf : form.isLeaf) (hfresh : form.isFresh) (huse : form.use? = some use)
    (hname : ∀ i, form = .ident i → i.name = token.name?.getD "") (hsound : form.isSound) :
    L.Has before (ys ++ [.node (.leaf form token)]) s :=
  h.makeLast hL (.branch (.leaf hleaf hfresh huse hname hsound)) (isBare_build _ _ _ _ _)

/-- A token in hand becomes a name that is spelled as it is. -/
theorem name {token : Token} (h : L.Has before (ys ++ [.token .name token]) s) (hL : L.Lawful)
    {text : String} (htext : text = token.name?.getD "") :
    L.Has before (ys ++ [.node (.name text token)]) s :=
  h.leaf hL rfl rfl rfl (fun _ hi => (congrArg Ident.name (Form.ident.inj hi)).symm.trans htext) rfl

/-- An empty node stands for an operand that is missing, and the error says so. -/
theorem missing (h : L.Has before xs s) (hL : L.Lawful) :
    L.Has before (xs ++ [.node s.placeholder]) (s.record (s.error .operatorWithNoRhs none)) := by
  have hnoted := h.note hL (e := s.error .operatorWithNoRhs none) (hL.fit_current (hL.breaks h.holds))
    fun _ hreason => by cases hreason
  have hcurrent : (s.record (s.error .operatorWithNoRhs none)).current = s.current :=
    congrArg Lexer.token (s.lexer_record _)
  have hplaceholder : (s.record (s.error .operatorWithNoRhs none)).placeholder = s.placeholder := by
    unfold State.placeholder
    rw [hcurrent]
  have hholds := hnoted.holds
  rw [← List.append_assoc] at hholds
  have hmade := hL.missing hholds rfl hcurrent.symm
  rw [hplaceholder] at hmade
  refine h.push hmade ((h.record hL (hL.fit_current (hL.breaks h.holds))).kept.sane.of_text
    fun p hp => ?_) hnoted.idle fun n hn => ?_
  · rcases List.mem_append.mp hp with hp | hp
    · exact .inl hp
    · exact .inr (List.mem_singleton.mp hp ▸ rfl)
  · cases hn
    exact isBare_build _ _ _ _ _

/-! ### Tokens of a kind -/

theorem eat (h : L.Has before xs s) (hL : L.Lawful) {k : Kind} (use : Use) (huse : use.allows k) :
    Meets s (eat k) (eat k) (fun found => L.Has before (xs ++ found.toList.map (.token use)))
      (L.Fails before) := by
  have hrun := outcome_eat s k
  split at hrun
  · rename_i hat
    rw [← beq_iff_eq.mp hat] at huse
    exact .result _ _ hrun hrun (h.advance hL huse)
  · refine .result _ _ hrun hrun ?_
    rw [Option.toList_none, List.map_nil, List.append_nil]
    exact h

/-- A token is read if it is of a kind, and not kept. -/
theorem eatSkip (h : L.Has before xs s) (hL : L.Lawful) {k : Kind} (hk : Use.plain.allows k) :
    Meets s (Grammar.eat k) (Grammar.eat k) (fun _ => L.Has before xs) (L.Fails before) := by
  refine (h.eat hL .plain hk).weaken fun found t ht => ?_
  cases found with
  | some token => exact ht.putAway hL rfl
  | none => exact List.append_nil xs ▸ ht

theorem expect (h : L.Has before xs s) (hL : L.Lawful) {k : Kind} (use : Use)
    (huse : use.allows k) (missing : ErrorKind) :
    Meets s (expect k missing) (expect k missing)
      (fun token => L.Has before (xs ++ [.token use token])) (L.Fails before) := by
  unfold Grammar.expect
  refine (h.eat hL use huse).bind fun found t ht => ?_
  cases found with
  | some token => exact .pure ht
  | none => exact .fail (ht.fails hL _ _)

/-- A token that must be there is read and not kept. -/
theorem expectSkip (h : L.Has before xs s) (hL : L.Lawful) {k : Kind} (hk : Use.plain.allows k)
    (missing : ErrorKind) :
    Meets s (Grammar.expect k missing) (Grammar.expect k missing) (fun _ => L.Has before xs)
      (L.Fails before) :=
  (h.expect hL .plain hk missing).weaken fun _ _ ht => ht.putAway hL rfl

/-- A semicolon that must be there is read. -/
theorem expectStop (h : L.Has before xs s) (hC : L.Complete) (missing : ErrorKind) :
    Meets s (Grammar.expect (.punctuation .semicolon) missing)
      (Grammar.expect (.punctuation .semicolon) missing) (fun _ => L.Has before xs)
      (L.Fails before) := by
  have hrun := outcome_eat s (.punctuation .semicolon)
  unfold Grammar.expect
  split at hrun
  · rename_i hat
    rw [meets_step hrun hrun]
    exact .pure (h.stop hC hat)
  · rw [meets_step hrun hrun]
    exact .fail (h.fails hC.toLawful _ _)

/-- An identifier is read and becomes a name. -/
theorem expectIdent (h : L.Has before xs s) (hL : L.Lawful) :
    Meets s expectIdent expectIdent
      (fun ident => L.Has before (xs ++ [.node (.name ident.1 ident.2)])) (L.Fails before) := by
  have hrun := outcome_expectIdent s
  split at hrun
  · rename_i hat
    have hident : s.current.kind = .ident := beq_iff_eq.mp hat
    have hname : s.current.name? = s.current.text? := by rw [Token.name?, hident]
    have hallows : Use.name.allows s.current.kind := by rw [hident]; rfl
    exact .result _ _ hrun hrun ((h.advance hL hallows).name hL (by rw [hname]))
  · exact .failure _ _ hrun hrun (h.fails hL _ _)

end Has

theorem Kept.operatorBefore (h : L.Kept before s) (hL : L.Lawful) {accepts : Kind → Bool}
    (haccepts : ∀ k, accepts k → Use.shown.allows k) :
    Meets s (operatorBefore accepts) (operatorBefore accepts)
      (fun found t => found.elim (L.Kept before t) fun op => L.Has before [.token .shown op] t)
      (L.Fails before) := by
  have hrun := outcome_operatorBefore s accepts
  split at hrun
  · rename_i hhere
    obtain ⟨hidle, hop⟩ := Bool.and_eq_true_iff.mp hhere
    have hhas : L.Has before [] s := h.has (Option.isNone_iff_eq_none.mp hidle)
    exact .result _ _ hrun hrun (hhas.advance hL (haccepts _ hop))
  · exact .result _ _ hrun hrun h

/-! ### Loose surveys -/

section Loose

variable {Fit : Token → Prop} {Holds : List Piece → State → Prop}

theorem Left.kept (h : (loose Fit Holds).Left ps s) : (loose Fit Holds).Kept ps s :=
  ⟨h.breaks, h.sane⟩

/-- Any pieces may be put away. -/
theorem Has.sublist (h : (loose Fit Holds).Has before xs s) (hL : (loose Fit Holds).Lawful)
    (hxs : ys.Sublist xs) : (loose Fit Holds).Has before ys s :=
  have hleft : (loose Fit Holds).Left (before ++ xs) s := ⟨h.kept.holds, h.kept.sane⟩
  ⟨⟨(hleft.sublist hL ((List.Sublist.refl before).append hxs)).kept, h.idle⟩,
    fun n hn => h.bare n (hxs.subset hn)⟩

/-- Any token may be passed. -/
theorem Has.pass (h : (loose Fit Holds).Has before xs s) (hloose : Loose Fit Holds) :
    (loose Fit Holds).Has before xs s.advance :=
  .intro (hloose.pass h.holds) h.kept.sane.advance ((State.lookaside_advance s).trans h.idle) h.bare

end Loose

end Survey

end Grammar

end SableFront
