import SableFront.Proofs.Survey.Node

/-!
# Surveys: what a step does

A survey watches the pieces in hand while a program is read. The productions of the grammar are
proved once to keep to any survey that is *lawful*, which says what each single step of an expression
does to it: passing a token, making a node from pieces side by side, keeping an error, changing the
symbol table. What is watched is up to the survey: where nodes lie in the text, that they are nested
in each other, what their names are bound to, that no token and no comment is lost, that what is
wrong has its error. A survey is *complete* if it also knows what lists of statements do: they pass
any token, turn comments that wait into nodes, note what went wrong, and go on. What becomes of it
where reading goes back is said apart (`GoesBack`), since comments may be lost there.

A survey that pieces may be taken from at any time is *loose*. It makes no difference between pieces
that are kept and pieces that are lost with an error.
-/

namespace SableFront

namespace SymbolTable

variable {t : SymbolTable}

/-- No operation removes symbols or scopes. -/
theorem Operation.size_le_apply (t : SymbolTable) (op : Operation) :
    t.size ≤ (op.apply t).size ∧ t.scopes.size ≤ (op.apply t).scopes.size := by
  have hbind (scope : ScopeId) (s : Symbol) : t.size ≤ (t.bindNew scope s).size ∧
      t.scopes.size ≤ (t.bindNew scope s).scopes.size := by
    simp [bindNew, size]
  have haddIn (scope : ScopeId) (s : Symbol) : t.size ≤ ((Operation.addIn scope s).apply t).size ∧
      t.scopes.size ≤ ((Operation.addIn scope s).apply t).scopes.size := by
    rcases apply_addIn t scope s with hsame | hnew
    · rw [hsame]
      exact ⟨Nat.le_refl _, Nat.le_refl _⟩
    · rw [hnew]
      exact hbind scope s
  cases op with
  | add s => exact haddIn t.current s
  | addIn scope s => exact haddIn scope s
  | insert s =>
    simp only [apply, SymbolTable.insert]
    split
    · simp [size]
    · exact hbind _ s
  | push => simp [apply, SymbolTable.push, newScope, size]
  | pop =>
    simp only [apply, SymbolTable.pop]
    split <;> exact ⟨Nat.le_refl _, Nat.le_refl _⟩
  | enter scope => exact ⟨Nat.le_refl _, Nat.le_refl _⟩
  | allocateStruct id =>
    simp only [apply, SymbolTable.allocateStruct]
    split
    · exact ⟨Nat.le_refl _, Nat.le_refl _⟩
    · simp [modifySymbol, newScope, size]
  | updateType id type => simp [apply, SymbolTable.updateType, modifySymbol, size]
  | setMembers id scope => simp [apply, SymbolTable.setMembers, modifySymbol, size]
  | setReturns id type => simp [apply, SymbolTable.setReturns, modifySymbol, size]

end SymbolTable

namespace Grammar

open Node

/-- It makes no difference whether an error is kept before or behind a token that is passed. -/
theorem State.advance_record (s : State) (e : SyntaxError) : (s.record e).advance = s.advance.record e := by
  have hcurrent : (s.record e).current = s.current := congrArg Lexer.token (s.lexer_record e)
  unfold advance
  by_cases heof : s.current.isEof
  · rw [hcurrent, if_pos heof, if_pos heof]
  · rw [hcurrent, if_neg heof, if_neg heof]
    by_cases hfull : s.config.maxErrors.any (· ≤ s.errors.length)
    · rw [show s.record e = s from if_pos hfull]
      exact (if_pos hfull).symm
    · rw [show s.record e = { s with errors := s.errors ++ [e] } from if_neg hfull]
      exact (if_neg hfull).symm

/-- The state at the end of the text, given up with an error. -/
def State.halted (s : State) : State :=
  let c := s.lexer.cursor
  { s.record (s.error .unreachableState none) with
    lexer := ⟨⟨[], c.offset, c.position⟩, .eof c.position c.offset⟩
    comments := [] }

/-- An error about a missing brace is found at the end of the text. -/
def IsTimely (e : SyntaxError) : Prop := e.reason = some .unclosedBrace → e.token.isEof

/-- What is watched while a program is read. -/
structure Survey where
  /-- What an error may be about. -/
  Fit : Token → Prop
  /-- It stands well with the pieces in the state. -/
  Holds : List Piece → State → Prop
  /-- It stands well with the pieces as soon as an error is kept. -/
  Breaks : List Piece → State → Prop
  /-- Lists of statements have to be read to their end. -/
  Strict : Prop

namespace Survey

/-- What each single step of an expression does to a survey. -/
structure Lawful (L : Survey) : Prop where
  breaks {ps s} : L.Holds ps s → L.Breaks ps s
  fit_current {ps s} : L.Breaks ps s → L.Fit s.current
  fit {ps s t} : L.Breaks ps s → t ∈ Piece.anchors ps → L.Fit t
  /-- Only the lexer, the errors, the comments, the table and the configuration matter. -/
  congr {ps s t} : L.Holds ps s → t.lexer = s.lexer → t.errors = s.errors →
    t.comments = s.comments → t.symbols = s.symbols → t.config = s.config → L.Holds ps t
  breaks_congr {ps s t} : L.Breaks ps s → t.lexer = s.lexer → t.errors = s.errors →
    t.comments = s.comments → t.symbols = s.symbols → t.config = s.config → L.Breaks ps t
  /-- Idle pieces may be put away. -/
  tidy {ps qs s} : L.Holds ps s → Piece.Tidies ps qs → L.Holds qs s
  /-- After an error any piece may. -/
  lose {ps qs s} : L.Breaks ps s → qs.Sublist ps → L.Breaks qs s
  /-- Anything but an error may be kept in mind at any time. -/
  mind {ps qs p s} : L.Holds (ps ++ qs) s → p.isMental → (∀ e, p ≠ .error e) →
    L.Holds (ps ++ p :: qs) s
  /-- So may an error that has been kept. -/
  note {ps e s} : L.Holds ps s → (s.config.maxErrors = none → e ∈ s.errors) →
    (L.Strict → IsTimely e) → L.Holds (ps ++ [.error e]) s
  advance {ps s use} : L.Holds ps s → use.allows s.current.kind →
    L.Holds (ps ++ [.token use s.current]) s.advance
  /-- Invalid text is passed where an error is kept in mind. -/
  junk {ps s e} : L.Holds ps s → s.isAt .invalid → .error e ∈ ps →
    L.Holds (ps ++ [.token .plain s.current]) s.advance
  /-- The first `>` of the token is passed. -/
  close {ps s} : L.Holds ps s → isClosingAngle s.current.kind →
    L.Holds (ps ++ [.token .angle (s.lexer.splitAngle?.getD s.lexer).token])
      (State.advance { s with lexer := s.lexer.splitAngle?.getD s.lexer })
  record {ps s e} : L.Breaks ps s → L.Fit e.token → L.Holds ps (s.record e)
  /-- An empty node stands for a missing operand, where the error about it is kept in mind. -/
  missing {ps s e} : L.Holds (ps ++ [.error e]) s → e.kind = .operatorWithNoRhs →
    e.token = s.current → L.Holds (ps ++ [.node s.placeholder]) s
  make {ps qs rs n s} : L.Holds (ps ++ (qs ++ rs)) s → Makes s.symbols qs n →
    L.Holds (ps ++ .node n :: rs) s
  operate {ps s} {op : SymbolTable.Operation} : L.Holds ps s → s.symbols.Reached →
    op.IsFor s.symbols → L.Holds ps { s with symbols := op.apply s.symbols }
  breaks_operate {ps s} {op : SymbolTable.Operation} : L.Breaks ps s → s.symbols.Reached →
    op.IsFor s.symbols → L.Breaks ps { s with symbols := op.apply s.symbols }

/-- What lists of statements do to a survey. -/
structure Complete (L : Survey) : Prop extends Lawful L where
  stop {ps s} : L.Holds ps s → s.isAt (.punctuation .semicolon) → L.Holds ps s.advance
  /-- After an error that is kept, any token may be passed. -/
  pass {ps s e} : L.Breaks ps s → L.Fit e.token → L.Holds ps (s.record e).advance
  /-- Comments that wait may become nodes. -/
  collect {ps taken waiting s} : L.Holds ps s → (taken ++ waiting).Perm s.comments →
    L.Holds (ps ++ taken.map .comment) { s with comments := waiting }
  halted {ps s} : L.Strict → L.Holds ps s → L.Holds ps s.halted

/-- Reading may go back from states that are so related to the one that it goes back to. -/
def GoesBack (L : Survey) (R : State → State → Prop) : Prop :=
  ∀ ⦃ps s t⦄, L.Holds ps s → L.Breaks ps t → s.errors <+: t.errors → R s t → L.Holds ps (t.rewind s)

/-- A survey that stands as well after an error as before. -/
def loose (Fit : Token → Prop) (Holds : List Piece → State → Prop) : Survey :=
  ⟨Fit, Holds, Holds, False⟩

/-- What each single step does to a survey that pieces may be taken from at any time. -/
structure Loose (Fit : Token → Prop) (Holds : List Piece → State → Prop) : Prop where
  fit_current {ps s} : Holds ps s → Fit s.current
  fit {ps s t} : Holds ps s → t ∈ Piece.anchors ps → Fit t
  congr {ps s t} : Holds ps s → t.lexer = s.lexer → t.errors = s.errors →
    t.comments = s.comments → t.symbols = s.symbols → t.config = s.config → Holds ps t
  sublist {ps qs s} : Holds ps s → qs.Sublist ps → Holds qs s
  mind {ps qs p s} : Holds (ps ++ qs) s → p.isMental → Holds (ps ++ p :: qs) s
  advance {ps s use} : Holds ps s → use.takes s.current.kind →
    Holds (ps ++ [.token use s.current]) s.advance
  split {ps s} : Holds ps s → isClosingAngle s.current.kind →
    Holds ps { s with lexer := s.lexer.splitAngle?.getD s.lexer }
  record {ps s e} : Holds ps s → Fit e.token → Holds ps (s.record e)
  missing {ps s} : Holds ps s → Holds (ps ++ [.node s.placeholder]) s
  make {ps qs rs n s} : Holds (ps ++ (qs ++ rs)) s → Makes s.symbols qs n →
    Holds (ps ++ .node n :: rs) s
  collect {ps taken waiting s} : Holds ps s → taken ⊆ s.comments → waiting ⊆ s.comments →
    Holds (ps ++ taken.map .comment) { s with comments := waiting }
  operate {ps s} {op : SymbolTable.Operation} : Holds ps s → s.symbols.Reached →
    op.IsFor s.symbols → Holds ps { s with symbols := op.apply s.symbols }
  rewind {ps s t} : Holds ps s → Holds ps t → Holds ps (t.rewind s)

theorem kind_splitAngle {s : State} (hs : isClosingAngle s.current.kind) :
    (s.lexer.splitAngle?.getD s.lexer).token.kind = .operator .gt := by
  unfold Lexer.splitAngle?
  unfold isClosingAngle at hs
  split at hs
  case h_5 => cases hs
  all_goals
    rename_i hkind
    rw [show s.lexer.token.kind = _ from hkind]
  · exact hkind
  all_goals rfl

namespace Loose

variable {Fit : Token → Prop} {Holds : List Piece → State → Prop}

/-- A token of any kind may be passed. -/
theorem pass (h : Loose Fit Holds) {ps : List Piece} {s : State} (hs : Holds ps s) :
    Holds ps s.advance := by
  obtain ⟨use, huse⟩ := Use.exists_takes s.current.kind
  exact h.sublist (h.advance hs huse) (List.sublist_append_left ps _)

theorem complete (h : Loose Fit Holds) : (loose Fit Holds).Complete where
  breaks h := h
  fit_current := h.fit_current
  fit := h.fit
  congr := h.congr
  breaks_congr := h.congr
  tidy hps hqs := h.sublist hps hqs.sublist
  lose := h.sublist
  mind hps hp _ := h.mind hps hp
  note {ps e s} hps _ _ := by
    have hall : Holds (ps ++ []) s := (List.append_nil ps).symm ▸ hps
    exact h.mind hall rfl
  advance hps huse := h.advance hps (Use.takes_of_allows huse)
  junk hps hinvalid _ := h.advance hps (beq_iff_eq.mp hinvalid ▸ rfl)
  close {ps s} hps hangle := by
    refine h.advance (h.split hps hangle) ?_
    change Use.angle.takes (s.lexer.splitAngle?.getD s.lexer).token.kind
    rw [kind_splitAngle hangle]
    rfl
  record := h.record
  missing {ps _ _} hps _ _ := h.missing (h.sublist hps (List.sublist_append_left ps _))
  make := h.make
  operate := h.operate
  breaks_operate := h.operate
  stop hps _ := h.pass hps
  pass hps he := h.pass (h.record hps he)
  collect hps hperm := h.collect hps
    (fun _ hc => hperm.subset (List.mem_append_left _ hc))
    fun _ hc => hperm.subset (List.mem_append_right _ hc)
  halted hstrict := hstrict.elim

theorem goesBack (h : Loose Fit Holds) : (loose Fit Holds).GoesBack fun _ _ => True :=
  fun _ _ _ hs ht _ _ => h.rewind hs ht

end Loose

end Survey

end Grammar

end SableFront
