import SableFront.Proofs.Contract
import SableFront.Proofs.Progress.Token

/-!
# Progress: contracts by bytes left

How far reading has come is measured by the bytes that are left from the current token on; going to
the next token makes them fewer. A state is *at* a bound if it is sound, no name waits in the
lookaside, and fewer bytes are left than the bound says. The contracts here bound what is left
after a production: one that `Keeps` a bound may read nothing, one that `Moves` or `Starts` reads
something, and one that `Reads` does so unless it gives nothing. `Takes` is the same for a
production that may find a name waiting, which counts as read.

An error is *internal* if its kind stands for a mistake of the reader and not of the program.
-/

namespace SableFront

/-- The kind stands for a mistake of the reader itself. -/
def ErrorKind.isInternal (k : ErrorKind) : Bool := k == .unreachableState || k == .parsingFailed

namespace Grammar

/-- The bytes from the current token to the end of the text. -/
def State.left (s : State) : Nat := s.current.size + byteSize s.lexer.cursor.rest

/-- The lexer is sound for a text of so many bytes, and no internal error has been kept. -/
structure State.Sound (total : Nat) (s : State) : Prop where
  lexer : s.lexer.Sound total
  errors : ∀ e ∈ s.errors, e.kind.isInternal = false

variable {α β : Type} {total n b c : Nat} {s t : State}

namespace State

theorem Sound.offset_add_left (h : s.Sound total) : s.current.offset + s.left = total := by
  have hstop := h.lexer.stop
  have htotal := h.lexer.total
  change s.lexer.token.offset + (s.lexer.token.size + byteSize s.lexer.cursor.rest) = total
  omega

theorem Sound.record (h : s.Sound total) {e : SyntaxError} (he : e.kind.isInternal = false) :
    (s.record e).Sound total := by
  unfold State.record
  split
  · exact h
  · refine ⟨h.lexer, fun d hd => ?_⟩
    rcases List.mem_append.mp hd with hd | hd
    · exact h.errors d hd
    · rw [List.mem_singleton.mp hd]
      exact he

theorem Sound.rewind (h : s.Sound total) (ht : t.Sound total) : (s.rewind t).Sound total :=
  ⟨ht.lexer, fun e he => h.errors e (List.mem_of_mem_take he)⟩

theorem Sound.bump (h : s.Sound total) : s.bump.Sound total :=
  ⟨(Cursor.significant_sound h.lexer.total).1, h.errors⟩

theorem Sound.left_bump (h : s.Sound total) : s.bump.left ≤ byteSize s.lexer.cursor.rest := by
  have hle : s.lexer.cursor.offset ≤ s.bump.current.offset :=
    (Cursor.significant_sound h.lexer.total).2
  have hsum := h.bump.offset_add_left
  have htotal := h.lexer.total
  omega

/-- Going past a token leaves fewer bytes. -/
theorem Sound.left_advance_lt (h : s.Sound total) (hs : s.current.isEof = false) :
    s.advance.left < s.left := by
  have hpos : 0 < s.current.size := by
    refine Nat.pos_of_ne_zero fun h0 => ?_
    have heof := h.lexer.size_eq_zero.mp h0
    simp [Token.isEof, current, heof] at hs
  have hbump := h.left_bump
  rw [advance, hs, if_neg Bool.false_ne_true]
  unfold left at hbump ⊢
  omega

theorem Sound.advance (h : s.Sound total) : s.advance.Sound total := by
  unfold State.advance
  split
  · exact h
  · exact h.bump

end State

/-! ### States at a bound -/

/-- The state is sound, no name waits, and fewer than `b` bytes are left. -/
structure At (total b : Nat) (s : State) : Prop where
  sound : s.Sound total
  clear : s.lookaside = none
  left : s.left < b

/-- The state is sound with fewer than `b` bytes left, and the error is not internal. -/
structure Failing (total b : Nat) (e : SyntaxError) (s : State) : Prop where
  sound : s.Sound total
  proper : e.kind.isInternal = false
  left : s.left < b

namespace At

theorem mono (h : At total b s) (hbc : b ≤ c) : At total c s := ⟨h.sound, h.clear, by
  have := h.left
  omega⟩

/-- The bytes left are themselves a bound that is not met yet. -/
theorem self (h : At total b s) : At total (s.left + 1) s :=
  ⟨h.sound, h.clear, Nat.lt_succ_self _⟩

theorem of_eq (h : At total b s) (hl : t.lexer = s.lexer) (he : t.errors = s.errors)
    (hk : t.lookaside = s.lookaside) : At total b t := by
  refine ⟨⟨hl ▸ h.sound.lexer, he ▸ h.sound.errors⟩, hk ▸ h.clear, ?_⟩
  have := h.left
  unfold State.left State.current at this ⊢
  rwa [hl]

/-- The symbol table does not matter. -/
theorem withSymbols (h : At total b s) (symbols : SymbolTable) :
    At total b { s with symbols } := h.of_eq rfl rfl rfl

/-- Neither does the note of a template header. -/
theorem withTemplate (h : At total b s) (templateScope : Option ScopeId) :
    At total b { s with templateScope } := h.of_eq rfl rfl rfl

theorem advance (h : At total b s) : At total b s.advance := by
  refine ⟨h.sound.advance, (s.lookaside_advance).trans h.clear, ?_⟩
  have hlt := h.left
  cases hs : s.current.isEof
  · have := h.sound.left_advance_lt hs
    omega
  · rw [State.advance, hs, if_pos rfl]
    exact hlt

/-- Going past a token that is not the end leaves fewer bytes than before. -/
theorem advance_of_not_eof (h : At total b s) (hs : s.current.isEof = false) :
    At total s.left s.advance :=
  ⟨h.sound.advance, (s.lookaside_advance).trans h.clear, h.sound.left_advance_lt hs⟩

theorem advance_of_isAt (h : At total b s) {k : Kind} (hk : s.isAt k) (hne : k ≠ .eof) :
    At total s.left s.advance := by
  refine h.advance_of_not_eof ?_
  have hk : s.current.kind = k := by simpa [State.isAt] using hk
  simpa [Token.isEof, hk] using hne

theorem record (h : At total b s) {e : SyntaxError} (he : e.kind.isInternal = false) :
    At total b (s.record e) := by
  refine ⟨h.sound.record he, (s.lookaside_record e).trans h.clear, ?_⟩
  have := h.left
  unfold State.left State.current at this ⊢
  rwa [s.lexer_record e]

theorem failing (h : At total b s) {e : SyntaxError} (he : e.kind.isInternal = false) :
    Failing total b e s := ⟨h.sound, he, h.left⟩

end At

theorem Failing.mono {e : SyntaxError} (h : Failing total b e s) (hbc : b ≤ c) :
    Failing total c e s := ⟨h.sound, h.proper, by
  have := h.left
  omega⟩

theorem Failing.of_eq {e : SyntaxError} (h : Failing total b e s) (hl : t.lexer = s.lexer)
    (he : t.errors = s.errors) : Failing total b e t := by
  refine ⟨⟨hl ▸ h.sound.lexer, he ▸ h.sound.errors⟩, h.proper, ?_⟩
  have := h.left
  unfold State.left State.current at this ⊢
  rwa [hl]

theorem Meets.loosen {p q : Production α} {Q : α → State → Prop}
    (h : Meets s p q Q (Failing total b)) (hbc : b ≤ c) : Meets s p q Q (Failing total c) :=
  h.mono (fun _ _ ht => ht) fun _ _ he => he.mono hbc

/-! ### The contracts -/

/-- The productions read no less than nothing below `n`. -/
def Keeps (total n : Nat) (p q : Production α) : Prop :=
  ∀ ⦃b⦄, b ≤ n → ∀ ⦃s⦄, At total b s → Meets s p q (fun _ => At total b) (Failing total b)

/-- A result means that something has been read. -/
def Moves (total n : Nat) (p q : Production α) : Prop :=
  ∀ ⦃s⦄, At total n s → Meets s p q (fun _ => At total s.left) (Failing total (s.left + 1))

/-- Away from the end of the text something is read in any case. -/
def Starts (total n : Nat) (p q : Production α) : Prop :=
  ∀ ⦃s⦄, At total n s → s.current.isEof = false →
    Meets s p q (fun _ => At total s.left) (Failing total s.left)

/-- Something is read, unless nothing is given; then the state is as before, and `N` holds of it. -/
def Reads (total n : Nat) (N : State → Prop) (p q : Production (Option α)) : Prop :=
  ∀ ⦃s⦄, At total n s →
    Meets s p q (fun r t => r.elim (t = s ∧ N s) fun _ => At total s.left t) (Failing total s.left)

/-- The state is sound with at most `b` bytes left, and a name that waits makes them fewer. -/
structure Ready (total b : Nat) (s : State) : Prop where
  sound : s.Sound total
  left : s.left ≤ b
  waiting : s.lookaside ≠ none → s.left < b

/-- Like `Reads`, but a name may wait at first; it is taken then. -/
def Takes (total n : Nat) (N : State → Prop) (p q : Production (Option α)) : Prop :=
  ∀ ⦃b⦄, b ≤ n → ∀ ⦃s⦄, Ready total b s →
    Meets s p q (fun r t => r.elim (t = s ∧ s.lookaside = none ∧ N s) fun _ => At total b t)
      (Failing total b)

theorem At.ready (h : At total b s) : Ready total s.left s :=
  ⟨h.sound, Nat.le_refl _, fun hne => absurd h.clear hne⟩

theorem Takes.reads {N : State → Prop} {p q : Production (Option α)}
    (h : Takes total n N p q) : Reads total (n + 1) N p q := by
  intro s hs
  have hle : s.left ≤ n := Nat.le_of_lt_succ hs.left
  refine (h hle hs.ready).weaken fun r t hr => ?_
  cases r with
  | none => exact ⟨hr.1, hr.2.2⟩
  | some a => exact hr

theorem Reads.mono {N : State → Prop} {p q : Production (Option α)} (h : Reads total n N p q)
    (hbn : b ≤ n) : Reads total b N p q := fun _ hs => h (hs.mono hbn)

theorem Reads.keeps {N : State → Prop} {p q : Production (Option α)} (h : Reads total n N p q) :
    Keeps total n p q := by
  intro b hb s hs
  refine (h (hs.mono hb)).mono (fun r t hr => ?_) fun e t he => he.mono (Nat.le_of_lt hs.left)
  cases r with
  | none => exact hr.1 ▸ hs
  | some a => exact hr.mono (Nat.le_of_lt hs.left)

theorem Starts.keeps {p q : Production α} (h : Starts total n p q) (hb : b ≤ n)
    (hs : At total b s) (heof : s.current.isEof = false) :
    Meets s p q (fun _ => At total b) (Failing total b) :=
  ((h (hs.mono hb) heof).weaken fun _ _ ht => ht.mono (Nat.le_of_lt hs.left)).loosen
    (Nat.le_of_lt hs.left)

theorem Starts.reads {N : State → Prop} {p q : Production α} (h : Starts total n p q)
    (hs : At total n s) (heof : s.current.isEof = false) :
    Meets s (some <$> p) (some <$> q)
      (fun r t => r.elim (t = s ∧ N s) fun _ => At total s.left t) (Failing total s.left) := by
  refine Meets.map ?_
  exact h hs heof

/-! ### Single steps -/

theorem At.eat (h : At total b s) (k : Kind) :
    Meets s (eat k) (eat k) (fun _ => At total b) (Failing total b) := by
  have hk := outcome_eat s k
  split at hk
  · exact .result _ _ hk hk h.advance
  · exact .result _ _ hk hk h

theorem At.expect (h : At total b s) (k : Kind) {missing : ErrorKind}
    (hm : missing.isInternal = false) :
    Meets s (expect k missing) (expect k missing) (fun _ => At total b) (Failing total b) := by
  unfold Grammar.expect
  refine (h.eat k).bind fun r t ht => ?_
  cases r with
  | none => exact .fail (ht.failing hm)
  | some tok => exact .pure ht

theorem moves_expectIdent : Moves total n expectIdent expectIdent := by
  intro s h
  have he := outcome_expectIdent s
  split at he
  · rename_i hk
    exact .result _ _ he he (h.advance_of_isAt hk (by decide))
  · exact .failure _ _ he he (h.self.failing rfl)

theorem Moves.keeps {p q : Production α} (h : Moves total n p q) : Keeps total n p q := by
  intro b hb s hs
  exact (h (hs.mono hb)).mono (fun _ t ht => ht.mono (Nat.le_of_lt hs.left)) fun e t he => he.mono hs.left

theorem Reads.require {N : State → Prop} {p q : Production (Option α)} (h : Reads total n N p q)
    {missing : ErrorKind} (hm : missing.isInternal = false) :
    Moves total n (require p missing) (require q missing) := by
  intro s hs
  unfold Grammar.require
  refine ((h hs).loosen (Nat.le_succ _)).bind fun r t hr => ?_
  cases r with
  | none => exact .fail (hr.1 ▸ hs.self.failing hm)
  | some a => exact .pure hr

/-- Where something is sure to be given, asking for it does not fail. -/
theorem Reads.require_of {N : State → Prop} {p q : Production (Option α)}
    (h : Reads total n N p q) (hs : At total n s) (hN : ¬ N s) (missing : ErrorKind) :
    Meets s (Grammar.require p missing) (Grammar.require q missing) (fun _ => At total s.left)
      (Failing total s.left) := by
  unfold Grammar.require
  refine (h hs).bind fun r t hr => ?_
  cases r with
  | none => exact absurd hr.2 hN
  | some a => exact .pure hr

theorem reads_eat {kind : Kind} (hkind : kind ≠ .eof) :
    Reads total n (fun _ => True) (eat kind) (eat kind) := by
  intro s hs
  have he := outcome_eat s kind
  split at he
  · rename_i hk
    exact .result _ _ he he (hs.advance_of_isAt hk hkind)
  · exact .result _ _ he he ⟨rfl, trivial⟩

theorem Reads.operand {N : State → Prop} {p q : Production (Option Node)}
    (h : Reads total n N p q) : Keeps total n (operand p) (operand q) := by
  intro b hb s hs
  unfold Grammar.operand
  refine (h.keeps hb hs).bind fun r t ht => ?_
  cases r with
  | none =>
    rw [meets_get, meets_record]
    exact .pure (ht.record rfl)
  | some node => exact .pure ht

/-! ### Loops and lists -/

/-- A round that is to be followed by another reads something. -/
def Rounds (total n : Nat) (round round' : α → Production (α ⊕ β)) : Prop :=
  ∀ a, ∀ ⦃s⦄, At total n s → Meets s (round a) (round' a)
    (fun r t => r.elim (fun _ => At total s.left t) fun _ => At total (s.left + 1) t)
    (Failing total (s.left + 1))

/-- As many rounds as bytes may be left are enough. -/
theorem Rounds.loop {round round' : α → Production (α ⊕ β)} (h : Rounds total n round round')
    {k k' : Nat} (hk : n ≤ k) (hk' : n ≤ k') (a : α) :
    Keeps total n (loop round k a) (loop round' k' a) := by
  intro b hb
  replace hk : b ≤ k := Nat.le_trans hb hk
  replace hk' : b ≤ k' := Nat.le_trans hb hk'
  -- on the bound: a further round starts below it, with one round less to go
  induction b generalizing k k' a with
  | zero => exact fun s hs => absurd hs.left (Nat.not_lt_zero _)
  | succ b ih =>
    intro s hs
    have hle : s.left ≤ b := Nat.le_of_lt_succ hs.left
    obtain ⟨k, rfl⟩ : ∃ j, k = j + 1 := ⟨k - 1, by omega⟩
    obtain ⟨k', rfl⟩ : ∃ j, k' = j + 1 := ⟨k' - 1, by omega⟩
    have hround := h a (hs.mono hb)
    unfold Grammar.loop
    refine (hround.loosen (Nat.succ_le_succ hle)).bind fun r t hr => ?_
    cases r with
    | inl a' =>
      have hrest := ih a' (Nat.le_of_succ_le hb) (Nat.le_of_succ_le_succ hk)
        (Nat.le_of_succ_le_succ hk') (hr.mono hle)
      exact hrest.mono (fun _ _ hu => hu.mono (Nat.le_succ b)) fun _ _ he => he.mono (Nat.le_succ b)
    | inr x => exact .pure (hr.mono (Nat.succ_le_succ hle))

end Grammar

end SableFront
