import SableFront.Proofs.Discipline.Statement

/-!
# Rollback: frames

A frame says what must not be lost while something is attempted: the symbol table at its beginning
and the errors kept by then. It asks nothing of trees, but much of states: that the table lies beyond
the one at the beginning, so the scopes that are new are those where names may be declared, and that
the current scope is the one of the place. The note of a template header belongs to this, since the
item after the header is declared where the note says: if a note waits, it names a new scope.

So to stay in a frame is a discipline, which all productions keep to (`framed_rules`): expressions
everywhere, and statements in new scopes.
-/

namespace SableFront.Grammar

/-- What must not be lost. -/
structure Frame where
  base : SymbolTable
  errors : List SyntaxError

namespace Frame

/-- The frame holds of a state at a place: the table lies beyond the base, the errors are still
kept, a note waits only where one may and names a new scope, and the scope of the place is
current. -/
structure Holds (f : Frame) (w : Place) (s : State) : Prop where
  table : f.base.Beyond s.symbols
  errors : f.errors <+: s.errors
  note : ∀ outer ∈ s.templateScope, w.noted ∧ f.base.scopes.size ≤ outer
  current : s.symbols.current = w.scope

/-- Nothing is asked of trees. Names may be declared in new scopes, and new symbols may be
changed. -/
def discipline (f : Frame) : Discipline where
  Holds := f.Holds
  Open := (f.base.scopes.size ≤ ·)
  Own := (f.base.size ≤ ·)
  Value _ := True
  Typing _ := True
  Definition _ _ := True

variable {f : Frame} {w : Place} {s t : State}

namespace Holds

theorem of_eq (h : f.Holds w s) (hs : t.symbols = s.symbols) (he : t.errors = s.errors)
    (hn : t.templateScope = s.templateScope) : f.Holds w t :=
  ⟨hs ▸ h.table, he ▸ h.errors, hn ▸ h.note, hs ▸ h.current⟩

theorem advance (h : f.Holds w s) : f.Holds w s.advance :=
  h.of_eq s.symbols_advance s.errors_advance s.templateScope_advance

theorem record (h : f.Holds w s) (e : SyntaxError) : f.Holds w (s.record e) := by
  unfold State.record
  split
  · exact h
  · exact ⟨h.table, List.prefix_append_of_prefix h.errors, h.note, h.current⟩

/-- Another table beyond the base may be put in, if the same scope is current. -/
theorem withSymbols (h : f.Holds w s) {symbols : SymbolTable} (ht : f.base.Beyond symbols)
    (hc : symbols.current = s.symbols.current) : f.Holds w { s with symbols } :=
  ⟨ht, h.errors, h.note, hc.trans h.current⟩

/-- Going back to a state of the frame drops none of the errors of the frame. -/
theorem rewind (h : f.Holds w s) (ht : f.Holds w t) : f.Holds w (t.rewind s) :=
  ⟨ht.table.enter _, List.prefix_take_iff.mpr ⟨ht.errors, h.errors.length_le⟩, ht.note, h.current⟩

theorem withoutNote (h : f.Holds w s) : f.Holds w { s with templateScope := none } :=
  ⟨h.table, h.errors, fun _ hn => absurd hn (Option.not_mem_none _), h.current⟩

end Holds

instance : f.discipline.Lawful where
  invariant _ :=
    { advance := fun h => h.advance
      record := fun e h => h.record e
      split := fun h _ => h.of_eq rfl rfl rfl
      rewind := fun h ht => h.rewind ht }
  waiting _ _ _ := trivial
  idle h := h.of_eq rfl rfl rfl
  stash h _ := h.of_eq rfl rfl rfl
  comments _ h := h.of_eq rfl rfl rfl
  withoutNote h := h.withoutNote
  here h hopen := h.current.symm ▸ hopen
  note h outer houter := (h.note outer houter).2
  push h := ⟨⟨h.table.push, h.errors, h.note, rfl⟩, h.table.scopes_le⟩
  enter h := ⟨h.table.enter _, h.errors, h.note, rfl⟩
  back h ht := ⟨ht.table.enter _, ht.errors, ht.note, h.current⟩
  addIn h hopen hadd := by
    obtain ⟨hbeyond, hnew⟩ := h.table.addIn hopen hadd
    exact ⟨h.withSymbols hbeyond (SymbolTable.current_of_addIn hadd), hnew⟩
  insert symbol h hopen := by
    obtain ⟨hbeyond, hnew⟩ := h.table.insert (h.current.symm ▸ hopen) symbol
    exact ⟨h.withSymbols hbeyond (SymbolTable.current_insert _ _), hnew⟩
  change f h hid := h.withSymbols (h.table.modifySymbol hid f) rfl
  members h hid hmembers := by
    obtain ⟨hbeyond, hscope⟩ := h.table.allocateStruct hid hmembers
    exact ⟨h.withSymbols hbeyond (SymbolTable.current_allocateStruct _ _), hscope⟩
  congr _ _ _ := trivial
  bind _ _ := trivial
  part _ _ _ _ := trivial
  plain _ _ := trivial
  typed _ _ _ _ := trivial
  typing _ _ _ _ _ := trivial
  value _ := trivial
  guess _ _ _ := trivial
  call _ _ _ _ := trivial
  function _ _ _ _ _ := trivial
  operator _ _ := trivial
  classes _ _ _ _ _ _ _ _ := trivial
  defined _ _ := trivial

instance : f.discipline.Notes where
  template _ _ := trivial
  await h := ⟨h.table, h.errors, fun outer ho => ⟨rfl, (h.note outer ho).2⟩, h.current⟩
  leave hnoted h hopen := by
    refine ⟨h.table, h.errors, fun outer ho => ?_, h.current⟩
    cases ho
    exact ⟨hnoted, hopen⟩
  forget h := ⟨h.table, h.errors, fun _ hn => absurd hn (Option.not_mem_none _), h.current⟩

/-- A note can wait only where one may. -/
theorem Holds.quiet {scope : ScopeId} (h : f.Holds ⟨scope, false⟩ s) : s.Quiet :=
  Option.eq_none_iff_forall_not_mem.mpr fun outer ho => Bool.false_ne_true (h.note outer ho).1

end Frame

/-- The place of a state where no note may wait. -/
def State.place (s : State) : Place := ⟨s.symbols.current, false⟩

/-- The frame of everything there is in a state. -/
def Frame.ofState (s : State) : Frame := ⟨s.symbols, s.errors⟩

theorem Frame.holds_ofState {s : State} (hs : s.Quiet) : (ofState s).Holds s.place s := by
  refine ⟨.refl _, List.prefix_rfl, fun outer ho => ?_, rfl⟩
  rw [hs] at ho
  exact absurd ho (Option.not_mem_none _)

/-! ### All productions -/

/-- The rules stay in all frames. -/
def Rules.Framed (r : Rules) : Prop := ∀ f : Frame, f.discipline.Governs r

namespace Rules.Framed

variable {r : Rules}

/-- What stays in the frame where it begins leaves all symbols alone. -/
theorem leaves (h : r.Framed) : r.LeavesSymbols := fun s hs =>
  (obeys_bases (h (.ofState s)) (Frame.holds_ofState hs)).mono (fun _ _ ht => ht.1.table.symbol)
    fun _ _ _ => trivial

/-- **One circle more stays in all frames.** -/
theorem succ {n : Nat} (h : (rules n).Framed) : (rules (n + 1)).Framed := fun f =>
  Discipline.Trains.succ
    { toGoverns := h f
      leaves := h.leaves
      template := fun _ _ hopen hs _ => obeys_template (h f) hopen hs }

end Rules.Framed

/-- However many circles are left, all productions stay in all frames. -/
theorem framed_rules (n : Nat) : (rules n).Framed := by
  induction n with
  | zero => exact fun _ => Discipline.exhausted
  | succ n ih => exact ih.succ

end SableFront.Grammar
