import SableFront.Proofs.Progress.Reading

/-!
# Progress: alternatives

Whoever tries one production after the other relies on three things: a production that gives nothing
has touched nothing, one that gives a node has read something and leaves no name waiting, and one
that fails has read something as well, so that it is not tried for nothing again.

The states in question are those that reading a text can get to, `State.Reached`: by the single
steps that productions are put together from, in any order. The three things hold in each of them
for statements, for every level of expressions, for values and for type references.
-/

namespace SableFront.Grammar

/-- The states that reading a text can get to, by single steps. -/
inductive State.Reached (source : String) (config : ParseConfig) : State → Prop
  | start : Reached source config (.start source config)
  | advance {s} (h : Reached source config s) : Reached source config s.advance
  /-- A token of several `>` is split. -/
  | split {s} (h : Reached source config s) :
      Reached source config { s with lexer := s.lexer.splitAngle?.getD s.lexer }
  /-- An error is kept. None of them is ever internal. -/
  | record {s e} (h : Reached source config s) (he : e.kind.isInternal = false) :
      Reached source config (s.record e)
  /-- Reading goes back to an earlier state. -/
  | rewind {s t} (h : Reached source config s) (ht : Reached source config t) :
      Reached source config (s.rewind t)
  /-- Names are declared, scopes entered, and comments and notes left or taken. -/
  | note {s} (h : Reached source config s) (symbols : SymbolTable) (lookaside : Option Node)
      (comments : List Token) (templateScope : Option ScopeId) :
      Reached source config { s with symbols, lookaside, comments, templateScope }

/-- The productions that are tried as alternatives. -/
inductive Alternative
  | statement | expression
  | logical | relational | bitwise | shift | additive | multiplicative
  | steps | deref | invert
  | postfixed | value
  | typeRef (storage : Option Node)

/-- The production itself, with a number of circles left. -/
def Alternative.production (rules : Rules) : Alternative → Production (Option Node)
  | statement => Grammar.statement rules
  | expression => Grammar.expression rules
  | logical => Grammar.logical rules
  | relational => Grammar.relational rules
  | bitwise => Grammar.bitwise rules
  | shift => Grammar.shift rules
  | additive => Grammar.additive rules
  | multiplicative => Grammar.multiplicative rules
  | steps => Grammar.steps rules
  | deref => Grammar.deref rules
  | invert => Grammar.invert rules
  | postfixed => Grammar.postfixed rules
  | value => Grammar.value rules
  | typeRef storage => Grammar.typeRef rules storage

variable {total n m : Nat} {s t : State} {r r' : Rules} {source : String} {config : ParseConfig}

/-- Each step keeps what all states have. -/
theorem State.Reached.sound (h : s.Reached source config) : s.Sound source.utf8ByteSize := by
  induction h with
  | start => exact (at_start source config).sound
  | advance _ ih => exact ih.advance
  | @split s _ ih =>
    cases hl : s.lexer.splitAngle? with
    | none => exact ih
    | some l => exact ⟨(ih.lexer.split hl).1, ih.errors⟩
  | record _ he ih => exact ih.record he
  | rewind _ _ ih iht => exact ih.rewind iht
  | note _ _ _ _ _ ih => exact ⟨ih.lexer, ih.errors⟩

/-! ### One contract for all of them -/

theorem takes_relational (h : Agree total n r r') :
    Takes total n NoValue (relational r) (relational r') :=
  (takes_bitwise h).level .relational (keeps_comparison h) h.rounds h.rounds'

theorem takes_multiplicative (h : Agree total n r r') :
    Takes total n NoValue (multiplicative r) (multiplicative r') :=
  (takes_steps h).level .multiplicative keeps_binary h.rounds h.rounds'

theorem takes_additive (h : Agree total n r r') :
    Takes total n NoValue (additive r) (additive r') :=
  (takes_multiplicative h).level .additive keeps_binary h.rounds h.rounds'

theorem reads_alternative (h : Agree total n r r') (a : Alternative) :
    Reads total (n + 1) (fun _ => True) (a.production r) (a.production r') := by
  cases a with
  | statement => exact (reads_statement h).forget
  | expression => exact (takes_expression h).reads.forget
  | logical => exact (takes_logical h).reads.forget
  | relational => exact (takes_relational h).reads.forget
  | bitwise => exact (takes_bitwise h).reads.forget
  | shift => exact (takes_shift h).reads.forget
  | additive => exact (takes_additive h).reads.forget
  | multiplicative => exact (takes_multiplicative h).reads.forget
  | steps => exact (takes_steps h).reads.forget
  | deref => exact (takes_deref h).reads.forget
  | invert => exact (takes_invert h).reads.forget
  | postfixed => exact (takes_postfixed h).reads.forget
  | value => exact (takes_value h).reads.forget
  | typeRef storage => exact (reads_typeRef h storage).forget

/-- The number of circles makes no difference as soon as there are more of them than bytes left. -/
theorem Alternative.outcome_production (a : Alternative) (hs : At total (s.left + 1) s)
    (hn : s.left < n) (hm : s.left < m) :
    outcome (a.production (rules m)) s = outcome (a.production (rules n)) s := by
  -- both do what they do with watched lists
  have hwatched {k : Nat} (hk : s.left < k) :
      Agree total s.left (rules k) (watched (fun nodes s => (nodes, s)) (s.left + 1)) :=
    agree_watched _ hk (Nat.lt_succ_self _)
  exact (reads_alternative (hwatched hm) a hs).same.symm.trans
    (reads_alternative (hwatched hn) a hs).same

/-- **An alternative reads something or leaves everything as it is.** In each state that reading a
text can get to, with no name waiting, there are three ways for an alternative to end. It gives
nothing, and no part of the state has changed. Or it gives a node, no name waits, and the current
token is one further on in the text. Or it fails, and the current token is one further on, too. It
ends in the same way with any number of circles that is greater than the number of bytes left. -/
theorem alternatives_read_or_leave (hs : s.Reached source config) (hidle : s.lookaside = none)
    (a : Alternative) (hn : s.left < n) :
    (outcome (a.production (rules n)) s = (.ok none, s) ∨
      (∃ node t, outcome (a.production (rules n)) s = (.ok (some node), t) ∧
        t.lookaside = none ∧ s.current.offset < t.current.offset) ∨
      ∃ e t, outcome (a.production (rules n)) s = (.error e, t) ∧
        s.current.offset < t.current.offset) ∧
    ∀ m, s.left < m →
      outcome (a.production (rules m)) s = outcome (a.production (rules n)) s := by
  have hat : At source.utf8ByteSize (s.left + 1) s := ⟨hs.sound, hidle, Nat.lt_succ_self _⟩
  have hagree : Agree source.utf8ByteSize s.left (rules n)
      (watched (fun nodes s => (nodes, s)) (s.left + 1)) :=
    agree_watched _ hn (Nat.lt_succ_self _)
  refine ⟨?_, fun m hm => a.outcome_production hat hn hm⟩
  have further {t : State} (ht : t.Sound source.utf8ByteSize) (hleft : t.left < s.left) :
      s.current.offset < t.current.offset := by
    have h1 := hs.sound.offset_add_left
    have h2 := ht.offset_add_left
    omega
  rcases reads_alternative hagree a hat with ⟨v, t, hp, -, hv⟩ | ⟨e, t, hp, -, he⟩
  · cases v with
    | none =>
      obtain ⟨rfl, -⟩ := hv
      exact .inl hp
    | some node => exact .inr (.inl ⟨node, t, hp, hv.clear, further hv.sound hv.left⟩)
  · exact .inr (.inr ⟨e, t, hp, further he.sound he.left⟩)

/-- A statement whose start is tried as a declaration first, with generic arguments that turn out to
be none. -/
theorem statement_reads_or_leaves :
    let s := State.start "Int32 < 3;" .standard
    s.Reached "Int32 < 3;" .standard ∧ s.lookaside = none ∧ s.left < 11 ∧
      (outcome (statement (rules 11)) s = (.ok none, s) ∨
        (∃ node t, outcome (statement (rules 11)) s = (.ok (some node), t) ∧
          t.lookaside = none ∧ s.current.offset < t.current.offset) ∨
        ∃ e t, outcome (statement (rules 11)) s = (.error e, t) ∧
          s.current.offset < t.current.offset) ∧
      ∀ m, s.left < m → outcome (statement (rules m)) s = outcome (statement (rules 11)) s := by
  intro s
  have hs : s.Reached "Int32 < 3;" .standard := .start
  have hleft : s.left < 11 := by decide +kernel
  exact ⟨hs, rfl, hleft, alternatives_read_or_leave hs rfl .statement hleft⟩

end SableFront.Grammar
