import SableFront.Proofs.Contract
import SableFront.Proofs.Simulation.Node

/-!
# Simulation: two readings side by side

A simulation relates the states of two readings and is kept by every step that both take. It is
given by a view, by the options of both readings, of which the first keeps all errors, and by a
relation between their lexers that is kept where they go on and where they split a token. Everything
else about related states is fixed: tables, notes and the newline before the token are the same, the
name in the lookaside and the waiting comments look alike, and the second reading has the first of
the errors that the first one has, as many as it may keep.

Two productions *match* if from related states both lead to related states, with results that look
alike or with errors that do. Each way to put productions together has one rule here.
-/

namespace SableFront

instance : Visible SyntaxError :=
  ⟨fun v e e' => e.kind = e'.kind ∧ v.Alike e.token e'.token ∧ v.reason e.reason = v.reason e'.reason⟩

/-- The first errors, as many as may be kept. -/
def keptErrors (limit : Option Nat) (es : List SyntaxError) : List SyntaxError :=
  match limit with
  | none => es
  | some n => es.take n

theorem keptErrors_nil (limit : Option Nat) : keptErrors limit [] = [] := by
  cases limit with
  | none => rfl
  | some => exact List.take_nil

theorem keptErrors_take (limit : Option Nat) (es fs : List SyntaxError) :
    keptErrors limit (es.take fs.length) =
      (keptErrors limit es).take (keptErrors limit fs).length := by
  cases limit with
  | none => rfl
  | some n =>
    rw [keptErrors, keptErrors, keptErrors, List.take_take, List.take_take, List.length_take]
    congr 1
    omega

/-- One more error is kept if there are not enough yet. -/
theorem keptErrors_concat (limit : Option Nat) (es : List SyntaxError) (e : SyntaxError) :
    keptErrors limit (es ++ [e]) =
      if limit.any (· ≤ (keptErrors limit es).length) then keptErrors limit es
      else keptErrors limit es ++ [e] := by
  cases limit with
  | none => rfl
  | some n =>
    have hlength : (es.take n).length = min n es.length := List.length_take
    rw [keptErrors, keptErrors, Option.any_some, hlength]
    split
    · rename_i hfull
      have hle : n ≤ es.length := Nat.le_trans (of_decide_eq_true hfull) (Nat.min_le_right _ _)
      exact List.take_append_of_le_length hle
    · rename_i hroom
      have hlt : es.length < n := by
        have hmin : ¬ n ≤ min n es.length := fun hle => hroom (decide_eq_true hle)
        omega
      rw [List.take_of_length_le (Nat.le_of_lt hlt), List.take_of_length_le]
      rw [List.length_append, List.length_singleton]
      exact hlt

/-- The lexer at a significant token that has been found. -/
def Significant.lexer (found : Significant) : Lexer := ⟨found.cursor, found.token⟩

namespace Grammar

variable {α β : Type}

/-- What relates two readings. -/
structure Simulation where
  view : View
  config : ParseConfig
  config' : ParseConfig
  lexer : Lexer → Lexer → Prop
  unlimited : config.maxErrors = none
  speculates : config'.speculateGenerics = config.speculateGenerics
  attaches : view.showsComments → config'.attachComments = config.attachComments
  token : ∀ {l l'}, lexer l l' → view.Alike l.token l'.token
  next : ∀ {l l'}, lexer l l' →
    lexer l.cursor.significant.lexer l'.cursor.significant.lexer ∧
      l.cursor.significant.newline = l'.cursor.significant.newline ∧
      view.comments l.cursor.significant.comments = view.comments l'.cursor.significant.comments
  split : ∀ {l l'}, lexer l l' →
    lexer (l.splitAngle?.getD l) (l'.splitAngle?.getD l')

namespace Simulation

/-- The states of the two readings are related. -/
structure Holds (S : Simulation) (s s' : State) : Prop where
  lexer : S.lexer s.lexer s'.lexer
  newlineBefore : s.newlineBefore = s'.newlineBefore
  symbols : s.symbols = s'.symbols
  errors : S.view.Alike (keptErrors S.config'.maxErrors s.errors) s'.errors
  lookaside : S.view.Alike s.lookaside s'.lookaside
  comments : S.view.comments s.comments = S.view.comments s'.comments
  templateScope : s.templateScope = s'.templateScope
  config : s.config = S.config
  config' : s'.config = S.config'

/-- Both readings have ended, in related states and with results that are related or with errors that
look alike. -/
inductive Ends (S : Simulation) (R : α → α → Prop) :
    Except SyntaxError α × State → Except SyntaxError α × State → Prop
  | result {a a' : α} {t t' : State} (ha : R a a') (ht : S.Holds t t') : Ends S R (.ok a, t) (.ok a', t')
  | failure {e e' : SyntaxError} {t t' : State} (he : S.view.Alike e e') (ht : S.Holds t t') :
    Ends S R (.error e, t) (.error e', t')

/-- From related states two productions end with related results, or with errors that look alike. -/
def MatchesBy (S : Simulation) (R : α → α → Prop) (p p' : Production α) : Prop :=
  ∀ ⦃s s'⦄, S.Holds s s' → S.Ends R (outcome p s) (outcome p' s')

/-- From related states two productions end with what looks alike. -/
def Matches [Visible α] (S : Simulation) (p p' : Production α) : Prop :=
  S.MatchesBy S.view.Alike p p'

variable {S : Simulation} {s s' t t' : State}

/-! ### Related states -/

namespace Holds

theorem current (h : S.Holds s s') : S.view.Alike s.current s'.current := S.token h.lexer

theorem kind (h : S.Holds s s') : s.current.kind = s'.current.kind := kind_alike h.current

theorem isAt (h : S.Holds s s') (k : Kind) : s.isAt k = s'.isAt k := by
  rw [State.isAt, State.isAt, h.kind]

theorem bump (h : S.Holds s s') : S.Holds s.bump s'.bump := by
  obtain ⟨hlexer, hnewline, hcomments⟩ := S.next h.lexer
  refine ⟨hlexer, hnewline, h.symbols, h.errors, h.lookaside, ?_, h.templateScope, h.config, h.config'⟩
  show S.view.comments (s.comments ++ _) = S.view.comments (s'.comments ++ _)
  rw [View.comments_append, View.comments_append, h.comments, hcomments]

theorem advance (h : S.Holds s s') : S.Holds s.advance s'.advance := by
  unfold State.advance
  rw [isEof_alike h.current]
  split
  · exact h
  · exact h.bump

/-- The second reading keeps the error unless it has enough, and has all if it has not. -/
theorem record (h : S.Holds s s') {e e' : SyntaxError} (he : S.view.Alike e e') :
    S.Holds (s.record e) (s'.record e') := by
  have hlength : (keptErrors S.config'.maxErrors s.errors).length = s'.errors.length :=
    h.errors.length_eq
  have hrecord : s.record e = { s with errors := s.errors ++ [e] } := by
    rw [State.record, h.config, S.unlimited]
    rfl
  rw [hrecord, State.record, h.config', ← hlength]
  have hconcat := keptErrors_concat S.config'.maxErrors s.errors e
  split at hconcat
  · rename_i hfull
    rw [if_pos hfull]
    exact { h with errors := hconcat ▸ h.errors }
  · rename_i hfull
    rw [if_neg hfull]
    exact { h with errors := hconcat ▸ alike_concat h.errors he, config' := rfl }

/-- Of the errors both readings go back to, the second one has as many as it may keep. -/
theorem rewind (h : S.Holds s s') (ht : S.Holds t t') : S.Holds (s.rewind t) (s'.rewind t') := by
  have hlength : (keptErrors S.config'.maxErrors t.errors).length = t'.errors.length :=
    ht.errors.length_eq
  have herrors : S.view.Alike (keptErrors S.config'.maxErrors (s.errors.take t.errors.length))
      (s'.errors.take t'.errors.length) := by
    rw [keptErrors_take, hlength]
    exact List.forall₂_take _ h.errors
  have hcomments : S.view.comments (s.comments.take t.comments.length) =
      S.view.comments (s'.comments.take t'.comments.length) :=
    S.view.comments_take h.comments ht.comments
  have hsymbols : s.symbols.enter t.symbols.current = s'.symbols.enter t'.symbols.current := by
    rw [h.symbols, ht.symbols]
  exact ⟨ht.lexer, ht.newlineBefore, hsymbols, herrors, ht.lookaside, hcomments, h.templateScope,
    h.config, h.config'⟩

theorem withSymbols (h : S.Holds s s') (symbols : SymbolTable) :
    S.Holds { s with symbols } { s' with symbols } :=
  { h with symbols := rfl }

theorem enter (h : S.Holds s s') (scope : ScopeId) :
    S.Holds { s with symbols := s.symbols.enter scope }
      { s' with symbols := s'.symbols.enter scope } := by
  rw [← h.symbols]
  exact h.withSymbols _

theorem withTemplate (h : S.Holds s s') (templateScope : Option ScopeId) :
    S.Holds { s with templateScope } { s' with templateScope } :=
  { h with templateScope := rfl }

theorem withLookaside (h : S.Holds s s') {name name' : Option Node} (hname : S.view.Alike name name') :
    S.Holds { s with lookaside := name } { s' with lookaside := name' } :=
  { h with lookaside := hname }

theorem clearLookaside (h : S.Holds s s') :
    S.Holds { s with lookaside := none } { s' with lookaside := none } := h.withLookaside .none

theorem withComments (h : S.Holds s s') {ts ts' : List Token}
    (hts : S.view.comments ts = S.view.comments ts') :
    S.Holds { s with comments := ts } { s' with comments := ts' } :=
  { h with comments := hts }

theorem clearComments (h : S.Holds s s') :
    S.Holds { s with comments := [] } { s' with comments := [] } := h.withComments rfl

theorem splitAngle (h : S.Holds s s') :
    S.Holds { s with lexer := s.lexer.splitAngle?.getD s.lexer }
      { s' with lexer := s'.lexer.splitAngle?.getD s'.lexer } :=
  { h with lexer := S.split h.lexer }

/-! ### What is worked out from a state -/

theorem error (h : S.Holds s s') (kind : ErrorKind) (reason : Option Reason) :
    S.view.Alike (s.error kind reason) (s'.error kind reason) := ⟨rfl, h.current, rfl⟩

theorem placeholder (h : S.Holds s s') : S.view.Alike s.placeholder s'.placeholder :=
  Node.alike_leaf .invalid (alike_placeholder h.current)

theorem speculates (h : S.Holds s s') :
    s.config.speculateGenerics = s'.config.speculateGenerics := by
  rw [h.config, h.config', S.speculates]

theorem currentSymbol? (h : S.Holds s s') : s.currentSymbol? = s'.currentSymbol? := by
  rw [State.currentSymbol?, State.currentSymbol?, name?_alike h.current, h.symbols]

theorem atTypeName (h : S.Holds s s') : s.atTypeName = s'.atTypeName := by
  rw [State.atTypeName, State.atTypeName, h.currentSymbol?, h.symbols]

theorem roleOf (h : S.Holds s s') (id : SymbolId) : s.roleOf id = s'.roleOf id := by
  rw [State.roleOf, State.roleOf, h.symbols]

theorem memberRole (h : S.Holds s s') (scope : ScopeId) : s.memberRole scope = s'.memberRole scope := by
  rw [State.memberRole, State.memberRole, h.symbols]

theorem bindName (h : S.Holds s s') {t t' : Token} (ht : S.view.Alike t t') :
    S.view.Alike (s.bindName t) (s'.bindName t') := by
  have hname := Node.alike_name (t.name?.getD "") ht
  unfold State.bindName
  dsimp only
  rw [← h.symbols, ← name?_alike ht]
  split
  · split
    · rw [h.roleOf]
      exact Node.attach_alike hname _ _ _
    · exact hname
  · exact hname

theorem membersOf (h : S.Holds s s') {n n' : Node} (hn : S.view.Alike n n') :
    s.membersOf n = s'.membersOf n' := by
  have hlast {o o' : Option Node} (ho : S.view.Alike o o') :
      o.bind Node.ident? = o'.bind Node.ident? := by
    cases ho with
    | none => rfl
    | some h => exact Node.ident?_alike h
  have hchildren : n.form = .dotted →
      (n.children.getLast?).bind Node.ident? = (n'.children.getLast?).bind Node.ident? := by
    intro hform
    refine hlast (getLast?_alike (Node.children_eq hn ?_))
    rw [hform]
    cases S.view <;> rfl
  unfold State.membersOf
  rw [← h.symbols, ← Node.form_eq hn, ← Node.ident?_alike hn]
  dsimp only
  split
  · rename_i hform
    rw [hchildren hform]
  · rfl

end Holds

/-! ### Steps -/

namespace MatchesBy

variable {R : α → α → Prop} {T : β → β → Prop} {p p' : Production α}

theorem pure {a a' : α} (h : R a a') : S.MatchesBy R (pure a) (pure a') := fun _ _ hs => .result h hs

theorem throw {e e' : SyntaxError} (h : S.view.Alike e e') :
    S.MatchesBy R (throw e) (throw e') := fun _ _ hs => .failure h hs

theorem fail (kind : ErrorKind) : S.MatchesBy R (fail kind) (fail kind) :=
  fun _ _ hs => .failure (hs.error kind none) hs

theorem failFor (kind : ErrorKind) (reason : Reason) :
    S.MatchesBy R (failFor kind reason) (failFor kind reason) :=
  fun _ _ hs => .failure (hs.error kind (some reason)) hs

/-- Behind reasons that look alike. -/
theorem failAbout (kind : ErrorKind) {reason reason' : Reason}
    (h : S.view.reason (some reason) = S.view.reason (some reason')) :
    S.MatchesBy R (Grammar.failFor kind reason) (Grammar.failFor kind reason') :=
  fun _ _ hs => .failure ⟨rfl, hs.current, h⟩ hs

theorem bind {f f' : α → Production β} (hp : S.MatchesBy R p p')
    (hf : ∀ a a', R a a' → S.MatchesBy T (f a) (f' a')) : S.MatchesBy T (p >>= f) (p' >>= f') := by
  intro s s' hs
  have hends := hp hs
  rw [outcome_bind, outcome_bind]
  generalize outcome p s = found at hends ⊢
  generalize outcome p' s' = found' at hends ⊢
  cases hends with
  | result ha ht => exact hf _ _ ha ht
  | failure he ht => exact .failure he ht

theorem map {f f' : α → β} (hp : S.MatchesBy R p p') (hf : ∀ a a', R a a' → T (f a) (f' a')) :
    S.MatchesBy T (f <$> p) (f' <$> p') := by
  rw [← bind_pure_comp, ← bind_pure_comp]
  exact hp.bind fun a a' ha => .pure (hf a a' ha)

end MatchesBy

theorem matches_get : S.MatchesBy S.Holds get get := fun _ _ hs => .result hs hs

theorem matches_set (h : S.Holds t t') : S.Matches (set t) (set t') := fun _ _ _ => .result rfl h

theorem matches_modify {f f' : State → State} (h : ∀ s s', S.Holds s s' → S.Holds (f s) (f' s')) :
    S.Matches (modify f) (modify f') := fun _ _ hs => .result rfl (h _ _ hs)

theorem matches_current : S.Matches current current := fun _ _ hs => .result hs.current hs

theorem matches_isAt (kind : Kind) : S.Matches (isAt kind) (isAt kind) :=
  fun _ _ hs => .result (hs.isAt kind) hs

theorem matches_isAt_bind {T : β → β → Prop} (kind : Kind) {f f' : Bool → Production β}
    (hf : ∀ here, S.MatchesBy T (f here) (f' here)) :
    S.MatchesBy T (isAt kind >>= f) (isAt kind >>= f') := by
  refine (matches_isAt kind).bind fun here here' hhere => ?_
  obtain rfl : here = here' := hhere
  exact hf here

theorem matches_advance : S.Matches advance advance := fun _ _ hs => .result hs.current hs.advance

theorem matches_record {e e' : SyntaxError} (he : S.view.Alike e e') :
    S.Matches (record e) (record e') := fun _ _ hs => .result rfl (hs.record he)

theorem matches_eat (kind : Kind) : S.Matches (eat kind) (eat kind) := by
  refine matches_isAt_bind kind fun here => ?_
  split
  · exact matches_advance.bind fun t t' ht => .pure (.some ht)
  · exact .pure .none

theorem matches_expect (kind : Kind) (missing : ErrorKind) :
    S.Matches (expect kind missing) (expect kind missing) := by
  refine (matches_eat kind).bind fun found found' hfound => ?_
  cases hfound with
  | none => exact .fail missing
  | some ht => exact .pure ht

theorem matches_expectIdent : S.Matches expectIdent expectIdent := by
  intro s s' hs
  rw [outcome_expectIdent, outcome_expectIdent, hs.isAt]
  split
  · rename_i hhere
    rw [← hs.isAt] at hhere
    have hkind : s.current.kind.isOpenEnded = false := by
      rw [beq_iff_eq.mp hhere]
      rfl
    exact .result ⟨congrArg (·.getD "") (text?_alike hs.current hkind), hs.current⟩ hs.advance
  · exact .failure (hs.error _ _) hs

/-- Behind an identifier, of which both readings have the same text. -/
theorem matches_expectIdent_bind {T : β → β → Prop} {f f' : String × Token → Production β}
    (hf : ∀ text token token', S.view.Alike token token' →
      S.MatchesBy T (f (text, token)) (f' (text, token'))) :
    S.MatchesBy T (expectIdent >>= f) (expectIdent >>= f') := by
  refine matches_expectIdent.bind fun ident ident' hident => ?_
  obtain ⟨text, token⟩ := ident
  obtain ⟨text', token'⟩ := ident'
  obtain ⟨rfl, htoken⟩ : text = text' ∧ S.view.Alike token token' := hident
  exact hf text token token' htoken

theorem matches_operatorBefore (accepts : Kind → Bool) :
    S.Matches (operatorBefore accepts) (operatorBefore accepts) := by
  refine matches_get.bind fun s s' hs => ?_
  have hhere : (s.lookaside.isNone && accepts s.current.kind) =
      (s'.lookaside.isNone && accepts s'.current.kind) := by
    rw [← Option.not_isSome, ← Option.not_isSome, isSome_alike hs.lookaside, hs.kind]
  rw [hhere]
  split
  · exact matches_advance.bind fun t t' ht => .pure (.some ht)
  · exact .pure .none

/-! ### Loops and lists -/

theorem matches_require [Visible α] {p p' : Production (Option α)} (hp : S.Matches p p')
    (missing : ErrorKind) : S.Matches (require p missing) (require p' missing) := by
  refine hp.bind fun found found' hfound => ?_
  cases hfound with
  | none => exact .fail missing
  | some ha => exact .pure ha

theorem matches_operand {p p' : Production (Option Node)} (hp : S.Matches p p') :
    S.Matches (operand p) (operand p') := by
  refine hp.bind fun found found' hfound => ?_
  cases hfound with
  | none =>
    refine matches_get.bind fun s s' hs => ?_
    exact (matches_record (hs.error _ _)).bind fun _ _ _ => .pure hs.placeholder
  | some hn => exact .pure hn

theorem matches_loop {R : α → α → Prop} {T : β → β → Prop} {round round' : α → Production (α ⊕ β)}
    (h : ∀ a a', R a a' → S.MatchesBy (Sum.LiftRel R T) (round a) (round' a')) (n : Nat) {a a' : α}
    (ha : R a a') : S.MatchesBy T (loop round n a) (loop round' n a') := by
  induction n generalizing a a' with
  | zero => exact .fail _
  | succ n ih =>
    refine (h a a' ha).bind fun next next' hnext => ?_
    cases hnext with
    | inl ha => exact ih ha
    | inr hb => exact .pure hb

/-- What ends a list is told alike in both readings. -/
structure Closes (S : Simulation) (closer : Closer) : Prop where
  close : S.Matches closer.close closer.close
  isNext : ∀ s s', S.Holds s s' → closer.isNext s = closer.isNext s'

theorem closes_mark (p : Punctuation) : S.Closes (.mark p) :=
  ⟨matches_eat _, fun _ _ hs => hs.isAt _⟩

theorem matches_commaList [Visible α] {item item' : Production α} {closer : Closer}
    {missing : State → ErrorKind} (hitem : S.Matches item item') (hcloser : S.Closes closer)
    (hmissing : ∀ s s', S.Holds s s' → missing s = missing s') (rounds : Nat) :
    S.Matches (commaList rounds closer missing item) (commaList rounds closer missing item') := by
  refine matches_loop (R := S.view.Alike) (fun items items' hitems => ?_) rounds List.Forall₂.nil
  refine hcloser.close.bind fun close close' hclose => ?_
  cases hclose with
  | some ht => exact .pure (.inr ⟨hitems, ht⟩)
  | none =>
    refine hitem.bind fun a a' ha => (matches_eat _).bind fun comma comma' hcomma => ?_
    refine matches_get.bind fun s s' hs => ?_
    rw [← Option.not_isSome, ← Option.not_isSome, isSome_alike hcomma, hcloser.isNext _ _ hs,
      hmissing _ _ hs]
    split
    · exact .fail _
    · exact .pure (.inl (alike_concat hitems ha))

theorem matches_commaItems [Visible α] {item item' : Production α} (hitem : S.Matches item item')
    (rounds : Nat) : S.Matches (commaItems rounds item) (commaItems rounds item') := by
  refine matches_loop (R := S.view.Alike) (fun items items' hitems => ?_) rounds List.Forall₂.nil
  refine hitem.bind fun a a' ha => (matches_eat _).bind fun comma comma' hcomma => ?_
  cases hcomma with
  | some => exact .pure (.inl (alike_concat hitems ha))
  | none => exact .pure (.inr (alike_concat hitems ha))

/-! ### Scopes and attempts -/

section Scopes

variable {R : α → α → Prop} {p p' : Production α}

theorem matches_ensuring {change change' : State → State} (hp : S.MatchesBy R p p')
    (h : ∀ s s', S.Holds s s' → S.Holds (change s) (change' s')) :
    S.MatchesBy R (ensuring change p) (ensuring change' p') := by
  intro s s' hs
  have hrun (change : State → State) (p : Production α) (s : State) :
      outcome (ensuring change p) s = ((outcome p s).1, change (outcome p s).2) := rfl
  have hends := hp hs
  rw [hrun, hrun]
  generalize outcome p s = found at hends ⊢
  generalize outcome p' s' = found' at hends ⊢
  cases hends with
  | result ha ht => exact .result ha (h _ _ ht)
  | failure he ht => exact .failure he (h _ _ ht)

theorem matches_inScope (enter : SymbolTable → SymbolTable) (hp : S.MatchesBy R p p') :
    S.MatchesBy R (inScope enter p) (inScope enter p') := by
  refine matches_get.bind fun s s' hs => ?_
  rw [← hs.symbols]
  refine (matches_modify fun t t' ht => ?_).bind fun _ _ _ =>
    matches_ensuring hp fun t t' ht => ht.enter _
  rw [← ht.symbols]
  exact ht.withSymbols _

theorem matches_inNewScope (hp : S.MatchesBy R p p') :
    S.MatchesBy R (inNewScope p) (inNewScope p') := matches_inScope _ hp

theorem matches_orNone [Visible α] {p p' : Production α} (hp : S.Matches p p') :
    S.Matches (orNone p) (orNone p') := by
  intro s s' hs
  have hends := hp hs
  rw [outcome_orNone, outcome_orNone]
  generalize outcome p s = found at hends ⊢
  generalize outcome p' s' = found' at hends ⊢
  cases hends with
  | result ha ht => exact .result (.some ha) ht
  | failure _ ht => exact .result .none ht

theorem matches_orRewind [Visible α] {p p' : Production (Option α)} (hp : S.Matches p p') :
    S.Matches (orRewind p) (orRewind p') := by
  refine matches_get.bind fun s s' hs => hp.bind fun found found' hfound => ?_
  cases hfound with
  | some ha => exact .pure (.some ha)
  | none =>
    exact (matches_modify fun t t' ht => ht.rewind hs).bind fun _ _ _ => .pure .none

end Scopes

/-! ### Circles -/

/-- The productions that circles lead through do the same in both readings. -/
structure Circles (S : Simulation) (r : Rules) : Prop where
  expression : S.Matches r.expression r.expression
  shift : S.Matches r.shift r.shift
  steps : S.Matches r.steps r.steps
  deref : S.Matches r.deref r.deref
  invert : S.Matches r.invert r.invert
  typeRef : S.Matches r.typeRef r.typeRef
  statement : S.Matches r.statement r.statement
  items (context : Context) :
    S.MatchesBy (Node.AlikeItems S.view) (liftM (r.items context)) (liftM (r.items context))

end Simulation

end Grammar

end SableFront
