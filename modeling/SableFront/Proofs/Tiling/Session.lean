import SableFront.Proofs.Tiling.Refinement

/-!
# Tiling: sessions with a lexer

A lexer is used in any order: the next token is read, the lexer is remembered, it goes back to where
it was remembered, and a token of several `>` is split. A lexer that goes back may stand behind the
rest of a token that was split, and splitting moves it back into a token that has been read.

All that is kept from one use to the next is that the lexer follows a cursor that stands right behind
the token, which is cut from the text (`Session.Refined`). From it follows how the parts of a lexer
stand to each other and to the text at any time (`LexerState.InStep`).
-/

namespace SableFront

namespace LexerState

/-- What a lexer can be used for. -/
inductive Use
  | next
  | snapshot
  /-- Go back to one of the snapshots, in the order in which they were taken. -/
  | restore (i : Nat)
  | split
  deriving DecidableEq

/-- A lexer in use, with the snapshots that were taken of it. -/
structure Session where
  lexer : LexerState
  snapshots : List LexerState

namespace Session

/-- The lexer of a text, of which no snapshot has been taken. -/
def start (cs : List Char) : Session := ⟨.start cs, []⟩

/-- After one more use. A snapshot that was not taken changes nothing. -/
def after (cs : List Char) (s : Session) : Use → Session
  | .next => { s with lexer := s.lexer.next cs }
  | .snapshot => { s with snapshots := s.snapshots ++ [s.lexer] }
  | .restore i => { s with lexer := (s.snapshots[i]?).getD s.lexer }
  | .split => { s with lexer := (s.lexer.splitAngle cs).2 }

/-- After some uses, one after the other. -/
def run (source : String) (uses : List Use) : Session :=
  uses.foldl (after source.toList) (start source.toList)

end Session

/-- The parts of a lexer are in step with each other and with the text. -/
structure InStep (cs : List Char) (s : LexerState) : Prop where
  boundary : Text.IsBoundary cs s.offset
  offset_le : s.offset ≤ byteSize cs
  /-- However the text is split at the offset, the current character is the first one behind it. -/
  current : ∀ before after, cs = before ++ after → byteSize before = s.offset → s.current = after.head?
  eof : s.eof ↔ s.offset = byteSize cs
  position : s.position = Text.positionAt cs s.offset
  token : s.token.LiesIn cs
  /-- No count exceeds the UTF-16 units of the text, that of the position neither. -/
  counts : s.token.CountsTo (unitSize cs)
  token_stop : s.token.stop = s.offset
  span_stop : s.token.span.stop = s.position

variable {cs : List Char} {s : LexerState}

/-! ### What every use keeps -/

/-- All lexers of a session follow a cursor, and their tokens are cut from the text. -/
structure Session.Refined (cs : List Char) (s : Session) : Prop where
  lexer : ∃ l, s.lexer.Refines cs l
  snapshots : ∀ t ∈ s.snapshots, ∃ l, t.Refines cs l

theorem Session.Refined.after {s : Session} (h : s.Refined cs) (use : Use) :
    (s.after cs use).Refined cs := by
  obtain ⟨l, hl⟩ := h.lexer
  cases use with
  | next => exact ⟨⟨_, hl.next⟩, h.snapshots⟩
  | snapshot =>
    refine ⟨h.lexer, fun t ht => ?_⟩
    rcases List.mem_append.mp ht with ht | ht
    · exact h.snapshots t ht
    · rw [List.mem_singleton.mp ht]
      exact h.lexer
  | restore i =>
    refine ⟨?_, h.snapshots⟩
    change ∃ l, ((s.snapshots[i]?).getD s.lexer).Refines cs l
    cases hi : s.snapshots[i]? with
    | none => exact h.lexer
    | some t => exact h.snapshots t (List.mem_of_getElem? hi)
  | split => exact ⟨⟨_, hl.split.2⟩, h.snapshots⟩

theorem Session.run_append (source : String) (uses uses' : List Use) :
    run source (uses ++ uses') = uses'.foldl (after source.toList) (run source uses) :=
  List.foldl_append

theorem Session.refined_run (source : String) (uses : List Use) :
    (Session.run source uses).Refined source.toList := by
  have hfold (s : Session) (h : s.Refined source.toList) :
      (uses.foldl (Session.after source.toList) s).Refined source.toList := by
    induction uses generalizing s with
    | nil => exact h
    | cons use uses ih => exact ih _ (h.after use)
  exact hfold _ ⟨⟨_, .start _⟩, List.forall_mem_nil _⟩

/-! ### What follows from it -/

theorem fst_splitAngle (cs : List Char) (s : LexerState) :
    (s.splitAngle cs).1 = canSplit s.token.kind := by
  unfold splitAngle
  split
  · exact (‹canSplit s.token.kind = true›).symm
  · exact (Bool.eq_false_iff.mpr ‹_›).symm

theorem snd_splitAngle (cs : List Char) (hs : canSplit s.token.kind) :
    let start := s.token.span.start
    let position : Position := ⟨start.line, start.character + 1⟩
    (s.splitAngle cs).2 = ⟨s.token.offset + 1, position, charAt? cs (s.token.offset + 1),
      (charAt? cs (s.token.offset + 1)).isNone,
      ⟨.operator .gt, .none, ⟨start, position⟩, s.token.offset, 1, 1⟩⟩ := by
  rw [splitAngle, if_pos hs]
  rfl

theorem canSplit_iff (kind : Kind) : canSplit kind ↔
    kind = .operator .shr ∨ kind = .operator .shrEq ∨ kind = .operator .gtEq := by
  unfold canSplit
  split <;> simp_all

namespace Refines

variable {l : Lexer}

theorem inStep (h : Refines cs s l) : s.InStep cs := by
  obtain ⟨⟨before, hbehind⟩, hstop⟩ := h.cuts.behind
  have hlies := h.cuts.token.toLiesIn
  refine ⟨?_, ?_, fun passed rest htext hsize => ?_, ?_, ?_, ?_, ?_, ?_, ?_⟩
  · rw [h.offset]
    exact hbehind.isBoundary
  · rw [h.offset]
    exact hbehind.offset_le
  · rw [h.current, hbehind.rest_eq_dropBytes, ← h.offset, ← hsize, htext, Text.dropBytes_byteSize]
  · rw [h.eof, List.isEmpty_iff, h.offset]
    exact hbehind.rest_eq_nil_iff
  · rw [h.position, h.offset]
    exact hbehind.positionAt_eq.symm
  · rw [h.token]
    exact hlies
  · rw [h.token]
    exact hlies.countsTo
  · rw [h.token, h.offset]
    exact hstop.symm
  · rw [h.token, h.position, hlies.span, ← hbehind.positionAt_eq, hstop]

/-- The next token starts where the lexer stands. -/
theorem offset_next (h : Refines cs s l) : (s.next cs).token.offset = s.offset := by
  rw [h.next.token, h.offset]
  exact l.cursor.next_offset.1

/-- One `>` of a token that is split is left, and the rest of the token is read again. -/
theorem token_split (h : Refines cs s l) (hs : (s.splitAngle cs).1) :
    (s.splitAngle cs).2.token = ⟨.operator .gt, .none,
      ⟨s.token.span.start, Text.positionAt cs (s.token.offset + 1)⟩, s.token.offset, 1, 1⟩ ∧
    ((s.splitAngle cs).2.next cs).token.offset = s.token.offset + 1 := by
  have hposition := h.split.2.inStep.position
  have hnext := h.split.2.offset_next
  rw [fst_splitAngle] at hs
  have hsplit := snd_splitAngle cs hs
  rw [hsplit] at hposition hnext ⊢
  dsimp only at hposition
  rw [hposition] at hnext ⊢
  exact ⟨rfl, hnext⟩

/-- Behind the end-of-file token nothing changes any more. -/
theorem next_next_of_eof (h : Refines cs s l) (heof : (s.next cs).token.kind = .eof) :
    (s.next cs).next cs = s.next cs := by
  have hrest : l.cursor.rest = [] := by
    rw [h.next.token] at heof
    exact (Cursor.kind_next_eq_eof _).mp heof
  have hover : s.eof := by rw [h.eof, hrest]; rfl
  have hnext : s.next cs = { s with token := .eof s.position s.offset } := by
    rw [LexerState.next, scanToken, if_pos hover]
  rw [hnext, LexerState.next, scanToken, if_pos hover]

end Refines

theorem Session.foldl_next {s : Session} (h : s.lexer.next cs = s.lexer) (n : Nat) :
    (List.replicate n Use.next).foldl (Session.after cs) s = s := by
  induction n with
  | zero => rfl
  | succ n ih =>
    have hs : s.after cs .next = s := congrArg (fun l => (⟨l, s.snapshots⟩ : Session)) h
    rw [List.replicate_succ, List.foldl_cons, hs, ih]

/-- **A lexer is in step with its text however it is used.** After any uses the offset lies between
two characters of the text, the current character is the one that stands there, and there is none only
at the end; the position is that of the offset, and the token ends there. A token is split if it is one
of `>>`, `>>=` and `>=`: then the token is the first `>` alone, and the next one starts right behind
it. Once the end-of-file token has been read, reading on changes nothing. -/
theorem lexer_stays_in_step (source : String) (uses : List Use) :
    let cs := source.toList
    let s := (Session.run source uses).lexer
    s.InStep cs ∧
    ((s.splitAngle cs).1 = true ↔ s.token.kind = .operator .shr ∨ s.token.kind = .operator .shrEq ∨
      s.token.kind = .operator .gtEq) ∧
    ((s.splitAngle cs).1 = false → (s.splitAngle cs).2 = s) ∧
    ((s.splitAngle cs).1 = true →
      (s.splitAngle cs).2.token = ⟨.operator .gt, .none,
        ⟨s.token.span.start, Text.positionAt cs (s.token.offset + 1)⟩, s.token.offset, 1, 1⟩ ∧
      ((s.splitAngle cs).2.next cs).token.offset = s.token.offset + 1) ∧
    ((s.next cs).token.kind = .eof → ∀ n,
      (Session.run source (uses ++ .next :: List.replicate n .next)).lexer = s.next cs) := by
  intro cs s
  obtain ⟨l, h⟩ := (Session.refined_run source uses).lexer
  refine ⟨h.inStep, ?_, ?_, ?_, fun heof n => ?_⟩
  · rw [fst_splitAngle, canSplit_iff]
  · intro hno
    rw [fst_splitAngle] at hno
    rw [splitAngle, if_neg (Bool.eq_false_iff.mp hno)]
  · exact h.token_split
  · rw [Session.run_append, List.foldl_cons, Session.foldl_next (h.next_next_of_eof heof)]
    rfl

/-- With two splits a token of three characters is read one by one. -/
example : (Session.run ">>= x" [.next, .split, .next, .split, .next]).lexer.token.kind =
    .operator .eq := by
  decide +kernel

end LexerState

end SableFront
