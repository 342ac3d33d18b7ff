import SableFront.Grammar.Statement
import SableFront.Proofs.Progress.Contract

/-!
# Progress: lists, scopes and circles

The contracts of what productions are put together from, and `Agree`, the contract of a pair of
rules: for texts with fewer than `n` bytes left both have the productions do the same, whatever
their circles and rounds beyond that.
-/

namespace SableFront.Grammar

variable {α β : Type} {total n b : Nat} {s : State}

/-- A token of a kind that is told from the end of the text is not the end. -/
theorem not_isEof_of {f : Kind → Bool} (hs : f s.current.kind = true) (h0 : f .eof = false) :
    s.current.isEof = false := by
  cases heof : s.current.isEof
  · rfl
  · rw [Token.isEof, beq_iff_eq] at heof
    rw [heof, h0] at hs
    cases hs

theorem not_isEof_of_isAt {kind : Kind} (hs : s.isAt kind) (h0 : kind ≠ .eof) :
    s.current.isEof = false :=
  not_isEof_of (f := (· == kind)) hs (beq_false_of_ne h0.symm)

/-! ### Lists -/

variable {k k' : Nat} {item item' : Production α}

theorem Moves.commaList (hitem : Moves total n item item') {closer : Closer}
    (hclose : Keeps total n closer.close closer.close) (missing : State → ErrorKind)
    (hmissing : ∀ s, (missing s).isInternal = false) (hk : n ≤ k) (hk' : n ≤ k') :
    Keeps total n (commaList k closer missing item) (commaList k' closer missing item') := by
  unfold Grammar.commaList
  refine Rounds.loop (fun items s hs => ?_) hk hk' []
  refine (hclose hs.left hs.self).bind fun r t ht => ?_
  have hle : t.left ≤ s.left := Nat.le_of_lt_succ ht.left
  cases r with
  | some close => exact .pure ht
  | none =>
    refine ((hitem (ht.mono hs.left)).loosen ht.left).bind fun a u hu => ?_
    refine (((hu.mono hle).eat _).loosen (Nat.le_succ _)).bind fun comma v hv => ?_
    rw [meets_get]
    split
    · exact .fail ((hv.mono (Nat.le_succ _)).failing (hmissing v))
    · exact .pure hv

theorem Moves.commaItems (hitem : Moves total n item item') (hk : n ≤ k) (hk' : n ≤ k') :
    Keeps total n (commaItems k item) (commaItems k' item') := by
  unfold Grammar.commaItems
  refine Rounds.loop (fun items s hs => ?_) hk hk' []
  refine (hitem hs).bind fun a t ht => ?_
  refine ((ht.eat _).loosen (Nat.le_succ _)).bind fun comma u hu => ?_
  cases comma with
  | some tok => exact .pure hu
  | none => exact .pure (hu.mono (Nat.le_succ _))

theorem keeps_mark (p : Punctuation) : Keeps total n (Closer.mark p).close (Closer.mark p).close :=
  fun _ _ _ hs => hs.eat _

/-- Splitting a token of several `>` leaves as many bytes as before. -/
theorem At.splitAngle (h : At total b s) :
    At total b { s with lexer := s.lexer.splitAngle?.getD s.lexer } := by
  cases hl : s.lexer.splitAngle? with
  | none => exact h
  | some l =>
    obtain ⟨hsound, hoff⟩ := h.sound.lexer.split hl
    have hs : State.Sound total { s with lexer := l } := ⟨hsound, h.sound.errors⟩
    refine ⟨hs, h.clear, ?_⟩
    have h1 := h.sound.offset_add_left
    have h2 := hs.offset_add_left
    have h3 : ({ s with lexer := l } : State).current.offset = s.current.offset := hoff
    have := h.left
    change ({ s with lexer := l } : State).left < b
    omega

theorem keeps_angle : Keeps total n angle.close angle.close := by
  intro b hb s hs
  change Meets s closeAngle closeAngle _ _
  unfold closeAngle
  rw [meets_current]
  split
  · rw [meets_modify]
    change Meets _ (some <$> advance) (some <$> advance) _ _
    exact .map (.result _ _ rfl rfl hs.splitAngle.advance)
  · exact .pure hs

/-! ### Scopes and attempts -/

theorem At.rewind {t : State} (h : At total b s) (ht : t.Sound total) :
    At total b (t.rewind s) := ⟨ht.rewind h.sound, h.clear, h.left⟩

theorem Keeps.inScope {p q : Production α} (h : Keeps total n p q)
    (enter : SymbolTable → SymbolTable) : Keeps total n (inScope enter p) (inScope enter q) := by
  intro b hb s hs
  have hp := h hb (hs.of_eq (t := { s with symbols := enter s.symbols }) rfl rfl rfl)
  refine Meets.inScope (hp.mono (fun a t ht => ?_) fun e t he => ?_)
  · exact ht.of_eq rfl rfl rfl
  · exact he.of_eq rfl rfl

/-! ### Circles -/

/-- Below `n` bytes the two rules do the same, reading something wherever they give something; a
statement is given wherever an item of a template may start. -/
structure Agree (total n : Nat) (r r' : Rules) : Prop where
  lt_rounds : n < r.rounds
  lt_rounds' : n < r'.rounds
  expression : Reads total n (fun _ => True) r.expression r'.expression
  shift : Reads total n (fun _ => True) r.shift r'.shift
  steps : Reads total n (fun _ => True) r.steps r'.steps
  deref : Reads total n (fun _ => True) r.deref r'.deref
  invert : Reads total n (fun _ => True) r.invert r'.invert
  typeRef : Reads total n (fun _ => True) r.typeRef r'.typeRef
  statement : Reads total n (fun s => isTemplatable s.current.kind = false) r.statement r'.statement
  items (context : Context) :
    Keeps total n (liftM (r.items context) : Production _) (liftM (r'.items context))

theorem Agree.rounds {r r' : Rules} (h : Agree total n r r') : n ≤ r.rounds :=
  Nat.le_of_lt h.lt_rounds

theorem Agree.rounds' {r r' : Rules} (h : Agree total n r r') : n ≤ r'.rounds :=
  Nat.le_of_lt h.lt_rounds'

end SableFront.Grammar
