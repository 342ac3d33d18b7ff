import SableFront.Grammar.Statement

/-!
# Contracts of productions

A contract `Meets s p q Q E` says what a production does when it is started in the state `s`: a
result satisfies `Q` together with the state that is reached, and an error satisfies `E`. It speaks
of two productions at once, which must do the same in `s`; so one proof shows what a production does
and that a change to the productions it refers to makes no difference. Where only one production
matters, `p` and `q` are the same.

Each way to put productions together has one rule here. A step that only looks at the state or
changes it in a known way is rewritten away (`meets_get`, `meets_set`, …); what follows a production
with a contract of its own is reached by `Meets.bind`.
-/

namespace SableFront.Grammar

variable {α β γ : Type}

/-! ### Parts of a state -/

namespace State

variable (s : State) (e : SyntaxError)

@[simp] theorem lookaside_advance : s.advance.lookaside = s.lookaside := by
  unfold advance
  split <;> rfl

@[simp] theorem errors_advance : s.advance.errors = s.errors := by
  unfold advance
  split <;> rfl

@[simp] theorem symbols_advance : s.advance.symbols = s.symbols := by
  unfold advance
  split <;> rfl

@[simp] theorem config_advance : s.advance.config = s.config := by
  unfold advance
  split <;> rfl

@[simp] theorem lexer_record : (s.record e).lexer = s.lexer := by
  unfold record
  split <;> rfl

@[simp] theorem lookaside_record : (s.record e).lookaside = s.lookaside := by
  unfold record
  split <;> rfl

@[simp] theorem comments_record : (s.record e).comments = s.comments := by
  unfold record
  split <;> rfl

@[simp] theorem config_record : (s.record e).config = s.config := by
  unfold record
  split <;> rfl

@[simp] theorem templateScope_advance : s.advance.templateScope = s.templateScope := by
  unfold advance
  split <;> rfl

/-- A header's note does not matter for what is read next. -/
theorem advance_withNote (note : Option ScopeId) :
    advance { s with templateScope := note } = { s.advance with templateScope := note } := by
  change (if s.current.isEof then { s with templateScope := note }
    else bump { s with templateScope := note }) = _
  unfold advance
  split <;> rfl

@[simp] theorem symbols_record : (s.record e).symbols = s.symbols := by
  unfold record
  split <;> rfl

@[simp] theorem templateScope_record : (s.record e).templateScope = s.templateScope := by
  unfold record
  split <;> rfl

/-- Without a limit every error is kept. -/
theorem errors_record (h : s.config.maxErrors = none) : (s.record e).errors = s.errors ++ [e] := by
  unfold record
  rw [h]
  rfl

end State

/-! ### Contracts -/

/-- The result of a production that is started in a state, and the state that is reached. -/
def outcome (p : Production α) (s : State) : Except SyntaxError α × State := p s

theorem outcome_bind (p : Production α) (f : α → Production β) (s : State) :
    outcome (p >>= f) s =
      match outcome p s with
      | (.ok a, t) => outcome (f a) t
      | (.error e, t) => (.error e, t) := by
  rcases h : outcome p s with ⟨_ | _, t⟩ <;>
  · change p s = _ at h
    change (p >>= f) s = _
    simp only [bind, ExceptT.bind, ExceptT.mk, StateT.bind, h]
    rfl

theorem outcome_orNone (p : Production α) (s : State) :
    outcome (orNone p) s =
      match outcome p s with
      | (.ok a, t) => (.ok (some a), t)
      | (.error _, t) => (.ok none, t) := rfl

theorem outcome_orRewind (p : Production (Option α)) (s : State) :
    outcome (orRewind p) s =
      match outcome p s with
      | (.ok none, t) => (.ok none, t.rewind s)
      | found => found := by
  have hget : outcome (get : Production State) s = (.ok s, s) := rfl
  unfold orRewind
  rw [outcome_bind, hget]
  dsimp only
  rw [outcome_bind]
  rcases outcome p s with ⟨_ | _ | _, t⟩ <;> rfl

/-- Started in `s`, the productions `p` and `q` do the same: they give a result that satisfies `Q`,
or fail with an error that satisfies `E`. -/
inductive Meets (s : State) (p q : Production α) (Q : α → State → Prop)
    (E : SyntaxError → State → Prop) : Prop
  | result (a : α) (t : State) (hp : outcome p s = (.ok a, t)) (hq : outcome q s = (.ok a, t))
      (h : Q a t)
  | failure (e : SyntaxError) (t : State) (hp : outcome p s = (.error e, t))
      (hq : outcome q s = (.error e, t)) (h : E e t)

namespace Meets

variable {s : State} {p q : Production α} {Q Q' : α → State → Prop}
  {E E' : SyntaxError → State → Prop}

theorem same (h : Meets s p q Q E) : outcome q s = outcome p s := by
  rcases h with ⟨a, t, hp, hq, -⟩ | ⟨e, t, hp, hq, -⟩
  · rw [hp, hq]
  · rw [hp, hq]

theorem of_ok (h : Meets s p q Q E) {a : α} {t : State} (hp : outcome p s = (.ok a, t)) :
    Q a t := by
  rcases h with ⟨a', t', hp', -, h⟩ | ⟨e, t', hp', -, -⟩
  · rw [hp'] at hp
    cases hp
    exact h
  · rw [hp'] at hp
    cases hp

theorem of_error (h : Meets s p q Q E) {e : SyntaxError} {t : State}
    (hp : outcome p s = (.error e, t)) : E e t := by
  rcases h with ⟨a, t', hp', -, -⟩ | ⟨e', t', hp', -, h⟩
  · rw [hp'] at hp
    cases hp
  · rw [hp'] at hp
    cases hp
    exact h

theorem mono (h : Meets s p q Q E) (hQ : ∀ a t, Q a t → Q' a t) (hE : ∀ e t, E e t → E' e t) :
    Meets s p q Q' E' := by
  rcases h with ⟨a, t, hp, hq, h⟩ | ⟨e, t, hp, hq, h⟩
  · exact .result a t hp hq (hQ a t h)
  · exact .failure e t hp hq (hE e t h)

/-- A production does what it does. -/
theorem any (p : Production α) (s : State) : Meets s p p (fun _ _ => True) fun _ _ => True := by
  rcases hp : outcome p s with ⟨e | a, t⟩
  · exact .failure e t hp hp trivial
  · exact .result a t hp hp trivial

/-- A contract may be weakened in what it says of results. -/
theorem weaken (h : Meets s p q Q E) (hQ : ∀ a t, Q a t → Q' a t) : Meets s p q Q' E :=
  h.mono hQ fun _ _ he => he

/-- Two contracts for the same productions hold together. -/
theorem and (h : Meets s p q Q E) (h' : Meets s p q Q' E') :
    Meets s p q (fun a t => Q a t ∧ Q' a t) fun e t => E e t ∧ E' e t := by
  rcases h with ⟨a, t, hp, hq, h⟩ | ⟨e, t, hp, hq, h⟩
  · exact .result a t hp hq ⟨h, h'.of_ok hp⟩
  · exact .failure e t hp hq ⟨h, h'.of_error hp⟩

theorem bind {Q : β → State → Prop} {f g : α → Production β} (h : Meets s p q Q' E)
    (hf : ∀ a t, Q' a t → Meets t (f a) (g a) Q E) : Meets s (p >>= f) (q >>= g) Q E := by
  rcases h with ⟨a, t, hp, hq, h⟩ | ⟨e, t, hp, hq, h⟩
  · have hp' : outcome (p >>= f) s = outcome (f a) t := by rw [outcome_bind, hp]
    have hq' : outcome (q >>= g) s = outcome (g a) t := by rw [outcome_bind, hq]
    rcases hf a t h with ⟨b, u, hf, hg, hb⟩ | ⟨e, u, hf, hg, he⟩
    · exact .result b u (hp'.trans hf) (hq'.trans hg) hb
    · exact .failure e u (hp'.trans hf) (hq'.trans hg) he
  · refine .failure e t ?_ ?_ h
    · rw [outcome_bind, hp]
    · rw [outcome_bind, hq]

theorem pure {a : α} (h : Q a s) : Meets s (pure a) (pure a) Q E := .result a s rfl rfl h

theorem throw {e : SyntaxError} (h : E e s) :
    Meets s (throw e : Production α) (throw e) Q E := .failure e s rfl rfl h

theorem fail {kind : ErrorKind} (h : E (s.error kind none) s) :
    Meets s (fail kind : Production α) (fail kind) Q E := .failure _ s rfl rfl h

theorem failFor {kind : ErrorKind} {reason : Reason} (h : E (s.error kind (some reason)) s) :
    Meets s (failFor kind reason : Production α) (failFor kind reason) Q E :=
  .failure _ s rfl rfl h

theorem map {Q : β → State → Prop} {f : α → β} (h : Meets s p q (fun a t => Q (f a) t) E) :
    Meets s (f <$> p) (f <$> q) Q E := by
  have hmap (p : Production α) : f <$> p = p >>= fun a => Pure.pure (f a) :=
    (bind_pure_comp f p).symm
  rw [hmap p, hmap q]
  exact h.bind fun a t ha => .pure ha

end Meets

/-! ### Steps with one outcome -/

section Steps

variable {s t : State} {f g : α → Production β} {Q : β → State → Prop}
  {E : SyntaxError → State → Prop}

/-- A step that is sure to give one result may be taken. -/
theorem meets_step {p q : Production α} {a : α} (hp : outcome p s = (.ok a, t))
    (hq : outcome q s = (.ok a, t)) :
    Meets s (p >>= f) (q >>= g) Q E ↔ Meets t (f a) (g a) Q E := by
  constructor
  · intro h
    rcases h with ⟨b, u, hf, hg, h⟩ | ⟨e, u, hf, hg, h⟩
    all_goals
      rw [outcome_bind, hp] at hf
      rw [outcome_bind, hq] at hg
    · exact .result b u hf hg h
    · exact .failure e u hf hg h
  · intro h
    have hstep : Meets s p q (fun b u => b = a ∧ u = t) E := .result a t hp hq ⟨rfl, rfl⟩
    refine hstep.bind fun b u hb => ?_
    obtain ⟨rfl, rfl⟩ := hb
    exact h

variable {k k' : State → Production β} {j j' : PUnit → Production β} {m m' : Token → Production β}

@[simp] theorem meets_pure_bind {a : α} :
    Meets s (pure a >>= f) (pure a >>= g) Q E ↔ Meets s (f a) (g a) Q E := meets_step rfl rfl

@[simp] theorem meets_get :
    Meets s (get >>= k) (get >>= k') Q E ↔ Meets s (k s) (k' s) Q E := meets_step rfl rfl

@[simp] theorem meets_set :
    Meets s (set t >>= j) (set t >>= j') Q E ↔ Meets t (j ⟨⟩) (j' ⟨⟩) Q E := meets_step rfl rfl

@[simp] theorem meets_modify {change : State → State} :
    Meets s (modify change >>= j) (modify change >>= j') Q E ↔
      Meets (change s) (j ⟨⟩) (j' ⟨⟩) Q E := meets_step rfl rfl

@[simp] theorem meets_record {e : SyntaxError} :
    Meets s (record e >>= j) (record e >>= j') Q E ↔ Meets (s.record e) (j ⟨⟩) (j' ⟨⟩) Q E :=
  meets_step rfl rfl

@[simp] theorem meets_current :
    Meets s (current >>= m) (current >>= m') Q E ↔ Meets s (m s.current) (m' s.current) Q E :=
  meets_step rfl rfl

@[simp] theorem meets_isAt {kind : Kind} {c c' : Bool → Production β} :
    Meets s (isAt kind >>= c) (isAt kind >>= c') Q E ↔
      Meets s (c (s.isAt kind)) (c' (s.isAt kind)) Q E := meets_step rfl rfl

@[simp] theorem meets_advance :
    Meets s (advance >>= m) (advance >>= m') Q E ↔
      Meets s.advance (m s.current) (m' s.current) Q E := meets_step rfl rfl

theorem outcome_eat (s : State) (kind : Kind) :
    outcome (eat kind) s = if s.isAt kind then (.ok (some s.current), s.advance)
      else (.ok none, s) := by
  show (if s.isAt kind then _ else _ : Production _) s = _
  split <;> rfl

@[simp] theorem meets_takeTemplateScope {c c' : Option ScopeId → Production β} :
    Meets s (takeTemplateScope >>= c) (takeTemplateScope >>= c') Q E ↔
      Meets { s with templateScope := none } (c s.templateScope) (c' s.templateScope) Q E :=
  meets_step rfl rfl

theorem outcome_operatorBefore (s : State) (accepts : Kind → Bool) :
    outcome (operatorBefore accepts) s =
      if s.lookaside.isNone && accepts s.current.kind then (.ok (some s.current), s.advance)
      else (.ok none, s) := by
  change (if s.lookaside.isNone && accepts s.current.kind then _ else _ : Production _) s = _
  split <;> rfl

theorem outcome_expectIdent (s : State) :
    outcome expectIdent s =
      if s.isAt .ident then (.ok (s.current.text?.getD "", s.current), s.advance)
      else (.error (s.error .missingIdent none), s) := by
  change (if s.isAt .ident then _ else _ : Production _) s = _
  split <;> rfl

end Steps

/-! ### Scopes and attempts -/

namespace Meets

variable {s : State} {p q : Production α} {Q : α → State → Prop} {E : SyntaxError → State → Prop}

theorem ensuring {change : State → State}
    (h : Meets s p q (fun a t => Q a (change t)) fun e t => E e (change t)) :
    Meets s (ensuring change p) (ensuring change q) Q E := by
  have hrun (p : Production α) : outcome (Grammar.ensuring change p) s =
      ((outcome p s).1, change (outcome p s).2) := rfl
  rcases h with ⟨a, t, hp, hq, h⟩ | ⟨e, t, hp, hq, h⟩
  · exact .result a (change t) (by rw [hrun, hp]) (by rw [hrun, hq]) h
  · exact .failure e (change t) (by rw [hrun, hp]) (by rw [hrun, hq]) h

theorem inScope {enter : SymbolTable → SymbolTable}
    (h : Meets { s with symbols := enter s.symbols } p q
      (fun a t => Q a { t with symbols := t.symbols.enter s.symbols.current })
      fun e t => E e { t with symbols := t.symbols.enter s.symbols.current }) :
    Meets s (inScope enter p) (inScope enter q) Q E := by
  unfold Grammar.inScope
  rw [meets_get, meets_modify]
  exact .ensuring h

theorem orNone {Q : Option α → State → Prop}
    (h : Meets s p q (fun a t => Q (some a) t) fun _ t => Q none t) :
    Meets s (orNone p) (orNone q) Q E := by
  rcases h with ⟨a, t, hp, hq, h⟩ | ⟨e, t, hp, hq, h⟩
  · exact .result (some a) t (by rw [outcome_orNone, hp]) (by rw [outcome_orNone, hq]) h
  · exact .result none t (by rw [outcome_orNone, hp]) (by rw [outcome_orNone, hq]) h

theorem orRewind {p q : Production (Option α)} {Q : Option α → State → Prop}
    (h : Meets s p q (fun r t => r.elim (Q none (t.rewind s)) fun a => Q (some a) t) E) :
    Meets s (orRewind p) (orRewind q) Q E := by
  unfold Grammar.orRewind
  rw [meets_get]
  refine h.bind fun r t hr => ?_
  cases r with
  | none =>
    rw [meets_modify]
    exact .pure hr
  | some a => exact .pure hr

end Meets

/-! ### Loops -/

/-- What holds before every round of a loop leads from the first to the last. -/
theorem meets_loop {s : State} {round : α → Production (α ⊕ β)} {P : α → State → Prop}
    {Q : β → State → Prop} {E : SyntaxError → State → Prop}
    (hround : ∀ a s, P a s →
      Meets s (round a) (round a) (fun next t => next.elim (P · t) (Q · t)) E)
    (hstop : ∀ a s, P a s → E (s.error .unreachableState none) s) (n : Nat) (a : α) (h : P a s) :
    Meets s (loop round n a) (loop round n a) Q E := by
  induction n generalizing a s with
  | zero => exact .fail (hstop a s h)
  | succ n ih =>
    unfold Grammar.loop
    refine (hround a s h).bind fun next t ht => ?_
    cases next with
    | inl a => exact ih a ht
    | inr b => exact .pure ht

end SableFront.Grammar
