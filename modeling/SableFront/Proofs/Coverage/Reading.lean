import SableFront.Proofs.Coverage.Node

/-!
# Coverage: no token is lost

While a text is read and no error is kept, each of its tokens that is highlighted is still ahead, or
one of the pieces in hand accounts for it: it is shown, or it goes with a bracket of a list of
generics, or it stands before a default. A token that is passed is in hand, and whatever becomes of
the pieces, none of them is lost, since only tokens that stand where they do may be put away.
-/

namespace SableFront

namespace Piece

variable {cs : List Char} {ps qs rs : List Piece} {p : Piece} {use : Use} {s t : Token}

theorem not_admits_plain {k : Kind} (h : k.isHighlighted) : Use.plain.admits k = false := by
  cases k <;> first | rfl | cases h

/-- A token that is highlighted is in hand for more than to stand where it does. -/
theorem accounts_token (huse : use.admits t.kind) (ht : t.kind.isHighlighted) :
    (token use t).Accounts cs t := by
  cases use with
  | name => exact .inl ⟨rfl, .inl rfl⟩
  | shown => exact .inl ⟨rfl, .inr rfl⟩
  | angle => exact .inr (.inl ⟨t, ⟨rfl, rfl⟩, .same rfl⟩)
  | equals => exact .inr (.inr ⟨rfl, rfl⟩)
  | comment =>
    have hcomment : t.kind.isComment := huse
    rw [Kind.isComment_eq_false ht] at hcomment
    cases hcomment
  | plain =>
    rw [not_admits_plain ht] at huse
    cases huse

/-- What bears nothing is no token. -/
theorem sound_of_not_bears (hp : ∀ t, ¬ p.Bears t) : p.Sound cs := by
  cases p with
  | token use t => exact absurd rfl (hp t)
  | node | scope | symbol | error | faults => trivial

/-- An empty node bears nothing. -/
theorem not_bears_placeholder (s : Grammar.State) : ¬ (node s.placeholder).Bears t := by
  rintro ⟨m, hm, ht, -, hsize⟩
  rw [eq_of_keeps_leaf (.node hm ht)] at hsize
  exact Nat.lt_irrefl 0 hsize

/-- Pieces that bear nothing may stand anywhere. -/
theorem pairwise_precedes_insert (h : (ps ++ rs).Pairwise Precedes)
    (hqs : ∀ q ∈ qs, ∀ t, ¬ q.Bears t) : (ps ++ (qs ++ rs)).Pairwise Precedes := by
  obtain ⟨hps, hrs, hpr⟩ := List.pairwise_append.mp h
  refine List.pairwise_append.mpr ⟨hps, List.pairwise_append.mpr ⟨?_, hrs, ?_⟩, fun p hp r hr => ?_⟩
  · exact List.pairwise_of_forall_mem_list fun q hq r _ t u ht => absurd ht (hqs q hq t)
  · exact fun q hq r _ t u ht => absurd ht (hqs q hq t)
  · rcases List.mem_append.mp hr with hr | hr
    · exact fun t u _ hu => absurd hu (hqs r hr u)
    · exact hpr p hp r hr

end Piece

namespace Grammar

open Node Piece

/-! ### States -/

/-- Reading with the standard options stands in the text, before a token that is well made. -/
structure State.Regular (cs : List Char) (s : State) : Prop where
  stands : s.StandsIn cs
  config : s.config = .standard
  made : s.current.WellMade

namespace State.Regular

variable {cs : List Char} {s t : State}

theorem start (source : String) : (State.start source .standard).Regular source.toList :=
  ⟨.start source .standard, rfl, Cursor.wellMade_significant _⟩

theorem congr (h : s.Regular cs) (hlexer : t.lexer = s.lexer) (hcomments : t.comments ⊆ s.comments)
    (hconfig : t.config = s.config) : t.Regular cs := by
  refine ⟨h.stands.congr hlexer hcomments, hconfig.trans h.config, ?_⟩
  unfold State.current
  rw [hlexer]
  exact h.made

theorem advance (h : s.Regular cs) : s.advance.Regular cs := by
  refine ⟨h.stands.advance.1, (State.config_advance s).trans h.config, ?_⟩
  unfold State.advance
  split
  · exact h.made
  · exact s.lexer.cursor.wellMade_significant

theorem split (h : s.Regular cs) (hs : isClosingAngle s.current.kind) :
    State.Regular cs { s with lexer := s.lexer.splitAngle?.getD s.lexer } := by
  have hgt := Survey.kind_splitAngle hs
  refine ⟨h.stands.split, h.config, Token.wellMade_of_kind ?_ ?_⟩
  · exact hgt ▸ rfl
  · exact hgt ▸ Kind.noConfusion

theorem rewind (h : s.Regular cs) (ht : t.Regular cs) : (t.rewind s).Regular cs :=
  ⟨h.stands.rewind ht.stands, ht.config, h.made⟩

theorem record (h : s.Regular cs) (e : SyntaxError) : (s.record e).Regular cs :=
  h.congr (s.lexer_record e) (fun _ hc => s.comments_record e ▸ hc) (s.config_record e)

/-- With the standard options each error is kept. -/
theorem errors_record (h : s.Regular cs) (e : SyntaxError) : (s.record e).errors ≠ [] := by
  have hnone : s.config.maxErrors = none := by rw [h.config]; rfl
  rw [State.record, hnone, Option.any_none, if_neg Bool.false_ne_true]
  simp

end State.Regular

/-- What is highlighted is not passed unseen. -/
theorem State.mem_ahead_bump {s : State} {t : Token} (ht : t ∈ s.lexer.cursor.tokens)
    (hkind : t.kind.isHighlighted) : t ∈ s.bump.current :: s.bump.lexer.ahead := by
  obtain ⟨passed, htrivia, -, -, htokens⟩ := s.lexer.cursor.tokens_significant
  rw [htokens] at ht
  refine (List.mem_append.mp ht).resolve_left fun hpassed => ?_
  have hmute := htrivia t hpassed
  rw [Kind.isTrivia_eq_false hkind] at hmute
  cases hmute

theorem State.mem_ahead_advance {s : State} {t : Token} (ht : t ∈ s.lexer.ahead)
    (hkind : t.kind.isHighlighted) : t ∈ s.advance.current :: s.advance.lexer.ahead := by
  unfold Lexer.ahead at ht
  split at ht
  · cases ht
  · rename_i heof
    have hadvance : s.advance = s.bump := if_neg heof
    rw [hadvance]
    exact State.mem_ahead_bump ht hkind

/-! ### The pieces in hand -/

/-- The pieces in hand lie one behind the other before the current token, and together with what is
ahead they account for all tokens of the text that are highlighted. -/
structure Covering (cs : List Char) (ps : List Piece) (s : State) : Prop where
  ordered : ps.Pairwise Precedes
  passed : ∀ p ∈ ps, ∀ t, p.Bears t → t.stop ≤ s.current.offset
  sound : ∀ p ∈ ps, p.Sound cs
  accounted : ∀ t ∈ (Cursor.start cs).tokens, t.kind.isHighlighted →
    t ∈ s.current :: s.lexer.ahead ∨ ∃ p ∈ ps, p.Accounts cs t

namespace Covering

variable {cs : List Char} {ps qs rs : List Piece} {s s' : State} {n : Node} {p : Piece} {use : Use}

/-- At the start all tokens are ahead. -/
theorem start (source : String) : Covering source.toList [] (State.start source .standard) :=
  ⟨.nil, List.forall_mem_nil _, List.forall_mem_nil _, fun _ ht hkind =>
    .inl (State.mem_ahead_bump (s := State.unread source .standard) ht hkind)⟩

theorem congr (h : Covering cs ps s) (hlexer : s'.lexer = s.lexer) : Covering cs ps s' := by
  have hpassed := h.passed
  have haccounted := h.accounted
  unfold State.current at hpassed haccounted
  rw [← hlexer] at hpassed haccounted
  exact ⟨h.ordered, hpassed, h.sound, haccounted⟩

/-- Idle pieces may be put away. -/
theorem tidy (h : Covering cs ps s) (hqs : Tidies ps qs) : Covering cs qs s := by
  refine ⟨h.ordered.sublist hqs.sublist, fun p hp => h.passed p (hqs.sublist.subset hp),
    fun p hp => h.sound p (hqs.sublist.subset hp),
    fun t ht hkind => (h.accounted t ht hkind).imp_right ?_⟩
  rintro ⟨p, hp, haccounts⟩
  refine ⟨p, (hqs.mem_or_isIdle hp).resolve_right fun hidle => ?_, haccounts⟩
  exact not_accounts_of_isIdle hidle haccounts

/-- Pieces that bear nothing may come among the others. -/
theorem insert (h : Covering cs (ps ++ rs) s) (hqs : ∀ q ∈ qs, ∀ t, ¬ q.Bears t) :
    Covering cs (ps ++ (qs ++ rs)) s := by
  have hcases (p : Piece) (hp : p ∈ ps ++ (qs ++ rs)) : p ∈ ps ++ rs ∨ p ∈ qs := by
    simp only [List.mem_append] at hp ⊢
    tauto
  refine ⟨pairwise_precedes_insert h.ordered hqs, fun p hp t ht => ?_, fun p hp => ?_,
    fun t ht hkind => (h.accounted t ht hkind).imp_right ?_⟩
  · exact (hcases p hp).elim (fun hp => h.passed p hp t ht) fun hp => absurd ht (hqs p hp t)
  · exact (hcases p hp).elim (h.sound p) fun hp => sound_of_not_bears (hqs p hp)
  · rintro ⟨p, hp, haccounts⟩
    refine ⟨p, ?_, haccounts⟩
    simp only [List.mem_append] at hp ⊢
    tauto

/-- Pieces that bear nothing may be added behind the others. -/
theorem append (h : Covering cs ps s) (hqs : ∀ q ∈ qs, ∀ t, ¬ q.Bears t) :
    Covering cs (ps ++ qs) s := by
  have hall : Covering cs (ps ++ []) s := (List.append_nil ps).symm ▸ h
  have hinsert := hall.insert hqs
  rwa [List.append_nil] at hinsert

/-- A token is passed that starts where the current one does, and takes all from what is ahead that
is not ahead any more. -/
theorem push (h : Covering cs ps s) {a : Token} (hsound : (Piece.token use a).Sound cs)
    (hstart : a.offset = s.current.offset) (hstop : a.stop ≤ s'.current.offset)
    (hahead : ∀ t ∈ s.current :: s.lexer.ahead, t.kind.isHighlighted →
      t ∈ s'.current :: s'.lexer.ahead ∨ (Piece.token use a).Accounts cs t) :
    Covering cs (ps ++ [.token use a]) s' := by
  refine ⟨?_, fun p hp t ht => ?_, fun p hp => ?_, fun t ht hkind => ?_⟩
  · refine List.pairwise_append.mpr ⟨h.ordered, List.pairwise_singleton _ _, fun p hp q hq => ?_⟩
    rw [List.mem_singleton.mp hq]
    rintro t u ht rfl
    exact hstart ▸ h.passed p hp t ht
  · rcases List.mem_append.mp hp with hp | hp
    · have hle := h.passed p hp t ht
      rw [← hstart] at hle
      exact Nat.le_trans hle (Nat.le_trans a.offset_le_stop hstop)
    · rw [List.mem_singleton.mp hp] at ht
      exact (show t = a from ht) ▸ hstop
  · rcases List.mem_append.mp hp with hp | hp
    · exact h.sound p hp
    · exact List.mem_singleton.mp hp ▸ hsound
  · rcases h.accounted t ht hkind with hmem | ⟨p, hp, haccounts⟩
    · exact (hahead t hmem hkind).imp_right fun haccounts => ⟨_, by simp, haccounts⟩
    · exact .inr ⟨p, List.mem_append_left _ hp, haccounts⟩

/-- The current token is passed. -/
theorem advance (h : Covering cs ps s) (hs : s.Regular cs) (huse : use.admits s.current.kind) :
    Covering cs (ps ++ [.token use s.current]) s.advance := by
  refine h.push ⟨hs.stands.lexer.cuts.token, huse, hs.made⟩ rfl hs.stands.advance.2
    fun t ht hkind => ?_
  rcases List.mem_cons.mp ht with rfl | ht
  · exact .inr (accounts_token huse hkind)
  · exact .inl (State.mem_ahead_advance ht hkind)

/-- The first `>` of the current token is passed, and what follows is cut anew. -/
theorem close (h : Covering cs ps s) (hs : s.Regular cs) (hangle : isClosingAngle s.current.kind) :
    Covering cs (ps ++ [.token .angle (s.lexer.splitAngle?.getD s.lexer).token])
      (State.advance { s with lexer := s.lexer.splitAngle?.getD s.lexer }) := by
  have hsplit := hs.split hangle
  have huse : Use.angle.admits (s.lexer.splitAngle?.getD s.lexer).token.kind := by
    rw [Survey.kind_splitAngle hangle]
    rfl
  cases hl : s.lexer.splitAngle? with
  | none =>
    rw [hl] at huse
    exact h.advance hs huse
  | some l =>
    rw [hl] at hsplit huse
    have hstands := hs.stands.lexer
    have hsingle := hstands.cuts.single_split hl
    have hoffset := (hstands.cuts.split hl).2
    refine h.push ⟨hsplit.stands.lexer.cuts.token, huse, hsplit.made⟩ hoffset
      hsplit.stands.advance.2 fun t ht hkind => ?_
    have haccounts (hgoes : t.GoesWith cs l.token) : (Piece.token .angle l.token).Accounts cs t :=
      .inr (.inl ⟨l.token, ⟨rfl, rfl⟩, hgoes⟩)
    rcases List.mem_cons.mp ht with rfl | ht
    · exact .inr (haccounts (.start hsingle hangle hoffset.symm))
    · by_cases hahead : t ∈ l.ahead
      · exact .inl (State.mem_ahead_advance (s := { s with lexer := l }) hahead hkind)
      · exact .inr (haccounts (.anew (hstands.cutAnew hl ht hahead)))

/-- **A node takes the place of the pieces that it is made from**, and accounts for what these
do. -/
theorem make (h : Covering cs (ps ++ (qs ++ rs)) s) {table : SymbolTable} (hn : Makes table qs n) :
    Covering cs (ps ++ .node n :: rs) s := by
  obtain ⟨hps, hqrs, hpqr⟩ := List.pairwise_append.mp h.ordered
  obtain ⟨hqs, hrs, hqr⟩ := List.pairwise_append.mp hqrs
  refine ⟨List.pairwise_append.mpr ⟨hps, List.pairwise_cons.mpr ⟨fun r hr t u ht hu => ?_, hrs⟩,
    fun p hp r hr => ?_⟩, fun p hp t ht => ?_, fun p hp => ?_, fun t ht hkind => ?_⟩
  · obtain ⟨q, hq, ht⟩ := hn.exists_bears ht
    exact hqr q hq r hr t u ht hu
  · rcases List.mem_cons.mp hr with rfl | hr
    · intro t u ht hu
      obtain ⟨q, hq, hu⟩ := hn.exists_bears hu
      exact hpqr p hp q (List.mem_append_left _ hq) t u ht hu
    · exact hpqr p hp r (List.mem_append_right _ hr)
  · simp only [List.mem_append, List.mem_cons] at hp
    rcases hp with hp | rfl | hp
    · exact h.passed p (by simp [hp]) t ht
    · obtain ⟨q, hq, ht⟩ := hn.exists_bears ht
      exact h.passed q (by simp [hq]) t ht
    · exact h.passed p (by simp [hp]) t ht
  · simp only [List.mem_append, List.mem_cons] at hp
    rcases hp with hp | rfl | hp
    · exact h.sound p (by simp [hp])
    · trivial
    · exact h.sound p (by simp [hp])
  · refine (h.accounted t ht hkind).imp_right ?_
    rintro ⟨p, hp, haccounts⟩
    simp only [List.mem_append] at hp
    rcases hp with hp | hp | hp
    · exact ⟨p, by simp [hp], haccounts⟩
    · exact ⟨.node n, by simp, hn.accounts (fun q hq => h.sound q (by simp [hq])) hqs hp haccounts⟩
    · exact ⟨p, by simp [hp], haccounts⟩

end Covering

/-! ### The survey of tokens -/

/-- What becomes of tokens, as long as no error is kept. -/
structure Accounting (cs : List Char) (ps : List Piece) (s : State) : Prop where
  regular : s.Regular cs
  covering : s.errors = [] → Covering cs ps s

namespace Accounting

variable {cs : List Char} {ps qs rs : List Piece} {s t : State} {use : Use} {e : SyntaxError}

/-- Once an error is kept, nothing more is said. -/
theorem of_errors (h : s.Regular cs) (herrors : s.errors ≠ []) : Accounting cs ps s :=
  ⟨h, fun hnone => absurd hnone herrors⟩

theorem congr (h : Accounting cs ps s) (hlexer : t.lexer = s.lexer) (herrors : t.errors = s.errors)
    (hcomments : t.comments ⊆ s.comments) (hconfig : t.config = s.config) : Accounting cs ps t :=
  ⟨h.regular.congr hlexer hcomments hconfig, fun hnone => (h.covering (herrors ▸ hnone)).congr hlexer⟩

theorem tidy (h : Accounting cs ps s) (hqs : Tidies ps qs) : Accounting cs qs s :=
  ⟨h.regular, fun hnone => (h.covering hnone).tidy hqs⟩

/-- Pieces that bear nothing may come among the others. -/
theorem insert (h : Accounting cs (ps ++ rs) s) (hqs : ∀ q ∈ qs, ∀ t, ¬ q.Bears t) :
    Accounting cs (ps ++ (qs ++ rs)) s := ⟨h.regular, fun hnone => (h.covering hnone).insert hqs⟩

theorem append (h : Accounting cs ps s) (hqs : ∀ q ∈ qs, ∀ t, ¬ q.Bears t) :
    Accounting cs (ps ++ qs) s := ⟨h.regular, fun hnone => (h.covering hnone).append hqs⟩

theorem mind (h : Accounting cs (ps ++ qs) s) {p : Piece} (hp : p.isMental) :
    Accounting cs (ps ++ p :: qs) s := by
  have hbears (q : Piece) (hq : q ∈ [p]) (t : Token) : ¬ q.Bears t := by
    rw [List.mem_singleton.mp hq]
    exact not_bears_of_isMental hp
  exact h.insert hbears

theorem advance (h : Accounting cs ps s) (huse : use.admits s.current.kind) :
    Accounting cs (ps ++ [.token use s.current]) s.advance := by
  refine ⟨h.regular.advance, fun hnone => ?_⟩
  rw [s.errors_advance] at hnone
  exact (h.covering hnone).advance h.regular huse

theorem close (h : Accounting cs ps s) (hangle : isClosingAngle s.current.kind) :
    Accounting cs (ps ++ [.token .angle (s.lexer.splitAngle?.getD s.lexer).token])
      (State.advance { s with lexer := s.lexer.splitAngle?.getD s.lexer }) := by
  refine ⟨(h.regular.split hangle).advance, fun hnone => ?_⟩
  rw [State.errors_advance] at hnone
  exact (h.covering hnone).close h.regular hangle

/-- A semicolon that is passed is no loss. -/
theorem stop (h : Accounting cs ps s) (hs : s.isAt (.punctuation .semicolon)) :
    Accounting cs ps s.advance := by
  have hplain : Use.plain.admits s.current.kind := beq_iff_eq.mp hs ▸ rfl
  exact (h.advance hplain).tidy (.left (by simp))

theorem collect (h : Accounting cs ps s) {taken waiting : List Token} (htaken : taken ⊆ s.comments)
    (hwaiting : waiting ⊆ s.comments) :
    Accounting cs (ps ++ taken.map .comment) { s with comments := waiting } := by
  refine (h.append fun q hq t => ?_).congr rfl rfl hwaiting rfl
  obtain ⟨c, hc, rfl⟩ := List.mem_map.mp hq
  exact not_bears_comment (List.mem_filter.mp (h.regular.stands.comments (htaken hc))).2

/-- Where reading goes back, the errors are kept that were there before. -/
theorem rewind (h : Accounting cs ps s) (ht : t.Regular cs) (herrors : s.errors <+: t.errors) :
    Accounting cs ps (t.rewind s) := by
  refine ⟨h.regular.rewind ht, fun hnone => (h.covering ?_).congr rfl⟩
  replace hnone : t.errors.take s.errors.length = [] := hnone
  rwa [← List.prefix_iff_eq_take.mp herrors] at hnone

end Accounting

/-- The survey of what becomes of tokens. -/
def accounting (cs : List Char) : Survey where
  Fit _ := True
  Holds := Accounting cs
  Breaks _ s := s.Regular cs
  Strict := False

theorem complete_accounting (cs : List Char) : (accounting cs).Complete where
  breaks h := h.regular
  fit_current _ := trivial
  fit _ _ := trivial
  congr h hlexer herrors hcomments _ hconfig :=
    Accounting.congr h hlexer herrors (hcomments ▸ List.Subset.refl _) hconfig
  breaks_congr h hlexer _ hcomments _ hconfig :=
    State.Regular.congr h hlexer (hcomments ▸ List.Subset.refl _) hconfig
  tidy h hqs := Accounting.tidy h hqs
  lose h _ := h
  mind h hp _ := Accounting.mind h hp
  note {ps e s} h _ _ := by
    have hall : Accounting cs (ps ++ []) s := (List.append_nil ps).symm ▸ h
    exact hall.mind rfl
  advance h huse := Accounting.advance h (Use.admits_of_takes (Use.takes_of_allows huse))
  junk h hs _ := Accounting.advance h (beq_iff_eq.mp hs ▸ rfl)
  close h hangle := Accounting.close h hangle
  record h _ := .of_errors (State.Regular.record h _) (State.Regular.errors_record h _)
  missing h _ _ := (Accounting.tidy h (.left (by simp))).append fun q hq _ =>
    List.mem_singleton.mp hq ▸ not_bears_placeholder _
  make h hn := ⟨h.regular, fun hnone => (h.covering hnone).make hn⟩
  operate h _ _ := Accounting.congr h rfl rfl (List.Subset.refl _) rfl
  breaks_operate h _ _ := State.Regular.congr h rfl (List.Subset.refl _) rfl
  stop h hs := Accounting.stop h hs
  pass {ps s e} h _ := by
    refine .of_errors (State.Regular.record h e).advance ?_
    rw [State.errors_advance]
    exact State.Regular.errors_record h e
  collect h hperm := Accounting.collect h (fun _ hc => hperm.subset (List.mem_append_left _ hc))
    fun _ hc => hperm.subset (List.mem_append_right _ hc)
  halted hstrict := hstrict.elim

/-- Reading never loses a token while no error is kept. -/
theorem whole_accounting (cs : List Char) (n : Nat) : (accounting cs).Whole (rules n) := by
  have hback : (accounting cs).GoesBack fun _ _ => True :=
    fun _ _ _ h ht herrors _ => Accounting.rewind h ht herrors
  exact Survey.whole_rules (complete_accounting cs) id (fun _ h => h.attempt hback)
    (fun _ h => h.attempt hback) n

/-- **No token is lost.** The nodes of a program that is read without an error account for all tokens
of the text that are highlighted. -/
theorem exists_accounts {source : String} (herrors : (Program.parse source .standard).errors = [])
    {t : Token} (ht : t ∈ tokenize source) (hkind : t.kind.isHighlighted) :
    ∃ n ∈ (Program.parse source .standard).nodes, (Piece.node n).Accounts source.toList t := by
  have hstart : Accounting source.toList [] (State.start source .standard) :=
    ⟨.start source, fun _ => .start source⟩
  have hend := Survey.laid_items (whole_accounting source.toList _) hstart
  obtain ⟨-, -, heof⟩ :=
    watched_start (fun nodes s => (nodes, s)) source .standard (Nat.lt_succ_self _)
  have hcovering : Covering _ _ _ := Accounting.covering hend.holds herrors
  rcases hcovering.accounted t ht hkind with hahead | ⟨p, hp, haccounts⟩
  · -- nothing is ahead of the end of the text
    have hnone : Lexer.ahead _ = [] := if_pos heof
    rw [hnone, List.mem_singleton] at hahead
    have hlast : t.kind = .eof := hahead ▸ beq_iff_eq.mp heof
    rw [hlast] at hkind
    cases hkind
  · obtain ⟨n, hn, rfl⟩ := List.mem_map.mp hp
    exact ⟨n, hn, haccounts⟩

end Grammar

end SableFront
