import SableFront.Proofs.Simulation.Plain

/-!
# Simulation: the line of the first token

A newline counts between two tokens: it keeps what follows from belonging to what has been read.
Before the first token of a text nothing has been read, so there it does not count. A production that
is started without a name in the lookaside reads a token before it looks for a newline, and then
finds the newline before another token; or it gives nothing, and has not looked for one.
-/

namespace SableFront.Grammar

/-- The state with another note on the newline before the current token. -/
def State.reline (s : State) (newline : Bool) : State := { s with newlineBefore := newline }

theorem State.reline_self (s : State) : s.reline s.newlineBefore = s := rfl

/-- What is found with one note and with the other: the same, or nothing, in states that still differ
in the note. -/
inductive SameFind {α : Type} (newline : Bool) :
    Except SyntaxError (Option α) × State → Except SyntaxError (Option α) × State → Prop
  | same (found : Except SyntaxError (Option α) × State) : SameFind newline found found
  | none (t : State) (h : t.lookaside = none) :
    SameFind newline (.ok none, t) (.ok none, t.reline newline)

/-- The production does the same whatever the note on the newline is. -/
def Blind {α : Type} (p : Production α) (s : State) : Prop :=
  ∀ newline, outcome p (s.reline newline) = outcome p s

/-- The production finds the same whatever the note on the newline is. -/
def Heedless {α : Type} (p : Production (Option α)) (s : State) : Prop :=
  ∀ newline, SameFind newline (outcome p s) (outcome p (s.reline newline))

variable {α β : Type} {s : State}

/-! ### Steps -/

theorem State.advance_reline (h : s.current.isEof = false) (newline : Bool) :
    (s.reline newline).advance = s.advance := by
  unfold State.advance
  rw [h, show (s.reline newline).current.isEof = false from h]
  rfl

theorem State.record_reline (s : State) (e : SyntaxError) (newline : Bool) :
    (s.reline newline).record e = (s.record e).reline newline := by
  unfold State.record
  split
  all_goals
    rename_i hfull
    rw [reline] at hfull
  · rw [if_pos hfull]
  · rw [if_neg hfull]
    rfl

/-- Where a token is read, the newline that counts then is the one before the next token. -/
theorem blind_advance (h : s.current.isEof = false) : Blind advance s := by
  intro newline
  have hrun (s : State) : outcome advance s = (.ok s.current, s.advance) := rfl
  rw [hrun, hrun, State.advance_reline h]
  rfl

theorem Blind.bind {p : Production α} (h : Blind p s) (f : α → Production β) :
    Blind (p >>= f) s := by
  intro newline
  rw [outcome_bind, outcome_bind, h newline]

theorem Blind.map {p : Production α} (h : Blind p s) (f : α → β) : Blind (f <$> p) s := by
  rw [← bind_pure_comp]
  exact h.bind _

theorem Blind.heedless {p : Production (Option α)} (h : Blind p s) : Heedless p s := by
  intro newline
  rw [h newline]
  exact .same _

/-- What looks at the state, but at no newline in it. -/
theorem heedless_get {k : State → Production (Option α)}
    (hk : ∀ newline, k (s.reline newline) = k s) (h : Heedless (k s) s) : Heedless (get >>= k) s := by
  intro newline
  have hrun (s : State) : outcome (get >>= k) s = outcome (k s) s := rfl
  rw [hrun, hrun, hk newline]
  exact h newline

theorem heedless_current {k : Token → Production (Option α)} (h : Heedless (k s.current) s) :
    Heedless (current >>= k) s := fun newline => h newline

theorem heedless_none (h : s.lookaside = none) : Heedless (pure none : Production (Option α)) s :=
  fun _ => .none s h

/-- What follows something that was found does not look back; if nothing was found, what follows then
must be heedless itself. -/
theorem Heedless.bind {p : Production (Option α)} {f : Option α → Production (Option β)}
    (h : Heedless p s) (hf : ∀ t, t.lookaside = none → Heedless (f none) t) :
    Heedless (p >>= f) s := by
  intro newline
  have hfind := h newline
  rw [outcome_bind, outcome_bind]
  generalize outcome p s = found at hfind ⊢
  generalize outcome p (s.reline newline) = found' at hfind ⊢
  cases hfind with
  | same => exact .same _
  | none t ht => exact hf t ht newline

theorem Heedless.orRewind {p : Production (Option α)} (h : Heedless p s)
    (hs : s.lookaside = none) : Heedless (orRewind p) s := by
  intro newline
  have hfind := h newline
  rw [outcome_orRewind, outcome_orRewind]
  generalize outcome p s = found at hfind ⊢
  generalize outcome p (s.reline newline) = found' at hfind ⊢
  cases hfind with
  | none t ht => exact .none (t.rewind s) hs
  | same =>
    rcases found with ⟨_ | _ | _, t⟩
    · exact .same _
    · exact .none (t.rewind s) hs
    · exact .same _

/-! ### Expressions -/

variable (r : Rules)

theorem isEof_eq_false {k : Kind} (h : s.current.kind = k) (hk : k ≠ .eof) :
    s.current.isEof = false := by
  rw [Token.isEof, h]
  exact beq_eq_false_iff_ne.mpr hk

theorem heedless_operatorBefore {accepts : Kind → Bool} (haccepts : accepts .eof = false)
    (hs : s.lookaside = none) : Heedless (operatorBefore accepts) s := by
  refine heedless_get (fun _ => rfl) ?_
  split
  · rename_i hhere
    rw [Bool.and_eq_true] at hhere
    have heof : s.current.isEof = false := by
      refine isEof_eq_false rfl fun heof => ?_
      rw [heof, haccepts] at hhere
      cases hhere.2
    exact ((blind_advance heof).map some).heedless
  · exact heedless_none hs

theorem heedless_nameValue (h : s.current.isEof = false) : Heedless (some <$> nameValue r) s := by
  rw [nameValue, map_bind]
  refine heedless_get (fun _ => rfl) ?_
  exact (((blind_advance h).bind _).map some).heedless

theorem heedless_valueAt (hs : s.lookaside = none) : Heedless (valueAt r s.current.kind) s := by
  have hread {α : Type} (f : Token → Production α) (h : s.current.isEof = false) :
      Blind (advance >>= f) s := (blind_advance h).bind f
  cases heof : s.current.isEof
  case true =>
    rw [beq_iff_eq.mp heof]
    exact heedless_none hs
  unfold valueAt
  split
  · exact heedless_nameValue r heof
  · exact ((hread _ heof).map some).heedless
  · exact ((hread _ heof).map some).heedless
  · split
    · exact heedless_nameValue r heof
    · exact heedless_none hs
  · exact ((hread _ heof).map some).heedless
  · exact ((hread _ heof).map some).heedless
  · exact ((hread _ heof).map some).heedless
  · exact ((hread _ heof).map some).heedless
  · split
    · exact ((blind_advance heof).map _).heedless
    · exact heedless_none hs

theorem heedless_value (hs : s.lookaside = none) : Heedless (value r) s := by
  refine heedless_get (fun newline => ?_) ?_
  · rw [show (s.reline newline).lookaside = none from hs, hs]
    rfl
  rw [hs]
  exact heedless_valueAt r hs

theorem heedless_postfixed (hs : s.lookaside = none) : Heedless (postfixed r) s :=
  (heedless_value r hs).bind fun _ ht => heedless_none ht

theorem heedless_invert (hs : s.lookaside = none) : Heedless (invert r) s :=
  (heedless_operatorBefore rfl hs).bind fun _ ht => heedless_postfixed r ht

theorem heedless_deref (hs : s.lookaside = none) : Heedless (deref r) s :=
  (heedless_operatorBefore rfl hs).bind fun _ ht => heedless_invert r ht

theorem heedless_steps (hs : s.lookaside = none) : Heedless (steps r) s :=
  (heedless_operatorBefore rfl hs).bind fun _ ht =>
    (heedless_deref r ht).bind fun _ hu => heedless_none hu

theorem heedless_level {rounds : Nat} {cls : Operator.Class} {next : Production (Option Node)}
    {combine : Node → Token → Node → Production Node} (h : Heedless next s) :
    Heedless (level rounds cls next combine) s := h.bind fun _ ht => heedless_none ht

theorem heedless_expression (hs : s.lookaside = none) : Heedless (expression r) s := by
  have hshift : Heedless (shift r) s :=
    heedless_level (heedless_level (heedless_level (heedless_steps r hs)))
  have hlogical : Heedless (logical r) s := heedless_level (heedless_level (heedless_level hshift))
  exact hlogical.bind fun _ ht => heedless_none ht

/-! ### Declarations and statements -/

theorem isEof_of_atTypeName (h : s.atTypeName) : s.current.isEof = false := by
  refine isEof_eq_false rfl fun heof => ?_
  have hname : s.current.name? = none := by rw [Token.name?, heof]
  rw [State.atTypeName, State.currentSymbol?, hname] at h
  cases h

theorem heedless_typeRef (hs : s.lookaside = none) : Heedless (typeRef r none) s := by
  refine heedless_get (fun _ => rfl) ?_
  split
  · rename_i hname
    exact ((blind_advance (isEof_of_atTypeName hname)).bind _).heedless
  · exact heedless_none hs

theorem heedless_declaration (hs : s.lookaside = none) : Heedless (declaration r none) s :=
  (heedless_typeRef r hs).bind fun _ ht => heedless_none ht

theorem heedless_nameStatement (hs : s.lookaside = none) (heof : s.current.isEof = false) :
    Heedless (nameStatement r) s := by
  refine heedless_get (fun _ => rfl) ?_
  split
  · exact ((heedless_declaration r hs).orRewind hs).bind fun t ht => heedless_expression r ht
  · split
    · exact ((blind_advance heof).bind _).heedless
    · exact heedless_expression r hs

theorem heedless_keywordStatement (hs : s.lookaside = none) (heof : s.current.isEof = false)
    (k : Keyword) : Heedless (keywordStatement r k) s := by
  have hread (f : Token → Production Node) : Heedless (some <$> (advance >>= f)) s :=
    (((blind_advance heof).bind f).map some).heedless
  unfold keywordStatement
  split
  case h_11 =>
    refine heedless_get (fun _ => rfl) ?_
    split
    · exact heedless_expression r hs
    · exact hread _
  case h_14 =>
    split
    · exact hread _
    · split
      · exact heedless_nameStatement r hs heof
      · split
        · exact ((((blind_advance heof).bind _).bind _).map some).heedless
        · exact heedless_expression r hs
  all_goals exact hread _

theorem heedless_statement (hs : s.lookaside = none) : Heedless (statement r) s := by
  refine heedless_current ?_
  split
  · rename_i k hk
    exact heedless_keywordStatement r hs (isEof_eq_false hk Kind.noConfusion) k
  · rename_i hk
    have heof := isEof_eq_false hk Kind.noConfusion
    exact (((blind_advance heof).bind _).map some).heedless
  · rename_i hk
    exact heedless_nameStatement r hs (isEof_eq_false hk Kind.noConfusion)
  · exact heedless_expression r hs

/-! ### Lists of statements -/

/-- A list has got on alike, or it has not got past the token where the notes differ. -/
inductive SameList (newline : Bool) : List Node × State → List Node × State → Prop
  | same (found : List Node × State) : SameList newline found found
  | here (nodes : List Node) (t : State) (h : t.lookaside = none) :
    SameList newline (nodes, t) (nodes, t.reline newline)

theorem sameList_advance (hs : s.lookaside = none) (newline : Bool) (nodes : List Node) :
    SameList newline (nodes, s.advance) (nodes, (s.reline newline).advance) := by
  cases heof : s.current.isEof
  · rw [State.advance_reline heof]
    exact .same _
  · have hstay (s : State) (h : s.current.isEof) : s.advance = s := if_pos h
    rw [hstay s heof, hstay (s.reline newline) heof]
    exact .here nodes s hs

theorem sameList_skipSemicolons (hs : s.lookaside = none) (newline : Bool) (n : Nat)
    (nodes : List Node) :
    SameList newline (nodes, skipSemicolons n s) (nodes, skipSemicolons n (s.reline newline)) := by
  cases n with
  | zero => exact .here nodes s hs
  | succ n =>
    unfold skipSemicolons
    rw [show (s.reline newline).isAt (.punctuation .semicolon) = s.isAt (.punctuation .semicolon)
      from rfl]
    split
    · rename_i hhere
      rw [State.advance_reline (isEof_eq_false (beq_iff_eq.mp hhere) Kind.noConfusion)]
      exact .same _
    · exact .here nodes s hs

theorem sameList_plainItem (hs : s.lookaside = none) (newline : Bool) :
    SameList newline (plainItem r .file s) (plainItem r .file (s.reline newline)) := by
  have hfind : SameFind newline ((statement r).run { s with comments := [] })
      ((statement r).run { s.reline newline with comments := [] }) :=
    heedless_statement r (s := { s with comments := [] }) hs newline
  have hproduction (s : State) : itemProduction r .file s = statement r := rfl
  unfold plainItem
  rw [hproduction, hproduction]
  dsimp only
  generalize (statement r).run _ = found at hfind ⊢
  generalize (statement r).run _ = found' at hfind ⊢
  cases hfind with
  | same => exact .same _
  | none t ht =>
    have hrecord : (t.record (t.error .incorrectToken none)).lookaside = none := by
      rw [State.lookaside_record, ht]
    show SameList newline (_, (t.record _).advance) (_, ((t.reline newline).record _).advance)
    rw [State.record_reline]
    exact sameList_advance hrecord newline _

/-- The newline before the first token of a list makes no difference to what is read. -/
theorem sameList_plainAfter (hs : s.lookaside = none) (newline : Bool) (n : Nat)
    (nodes : List Node) :
    SameList newline (plainAfter r .file n nodes s)
      (plainAfter r .file n nodes (s.reline newline)) := by
  induction n generalizing s nodes with
  | zero => exact .here nodes s hs
  | succ n ih =>
    have hskip := sameList_skipSemicolons hs newline r.rounds nodes
    unfold plainAfter
    dsimp only
    generalize skipSemicolons r.rounds s = t at hskip ⊢
    generalize skipSemicolons r.rounds (s.reline newline) = t' at hskip ⊢
    cases hskip with
    | same => exact .same _
    | here _ _ ht =>
      rw [show endsItems .file (t.reline newline) = endsItems .file t from rfl]
      split
      · exact .here _ _ ht
      · have hitem := sameList_plainItem r ht newline
        generalize plainItem r .file t = found at hitem ⊢
        generalize plainItem r .file (t.reline newline) = found' at hitem ⊢
        cases hitem with
        | same => exact .same _
        | here _ _ hu => exact ih hu _

/-- **The newline before the first token of a text does not count.** -/
theorem plain_reline (source : String) (config : ParseConfig) (newline : Bool) :
    let found := (plainItems r .file).run (.start source config)
    let found' := (plainItems r .file).run ((State.start source config).reline newline)
    found'.1 = found.1 ∧ found'.2.errors = found.2.errors ∧ found'.2.symbols = found.2.symbols := by
  have hsame : SameList newline ((plainItems r .file).run (.start source config))
      ((plainItems r .file).run ((State.start source config).reline newline)) :=
    sameList_plainAfter r (s := .start source config) rfl newline r.rounds []
  dsimp only
  generalize (plainItems r .file).run _ = found at hsame ⊢
  generalize (plainItems r .file).run _ = found' at hsame ⊢
  cases hsame with
  | same => exact ⟨rfl, rfl, rfl⟩
  | here => exact ⟨rfl, rfl, rfl⟩

end SableFront.Grammar
