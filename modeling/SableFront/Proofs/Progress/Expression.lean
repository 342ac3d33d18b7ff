import SableFront.Proofs.Progress.TypeReference

/-!
# Progress: expressions

Each level reads something or gives nothing, and the latter only where no value starts. A name that
waits in the lookaside is taken by the first value.
-/

namespace SableFront.Grammar

variable {total n k k' : Nat} {s : State} {r r' : Rules}

/-- The kinds of token that a value is sure to be read from. -/
def startsValue : Kind → Bool
  | .ident | .keyword .functionKw => true
  | .keyword k => k.isTypeName
  | _ => false

/-- No value is sure to start here. -/
def NoValue (s : State) : Prop := startsValue s.current.kind = false

theorem not_isEof_of_kind {kind : Kind} (hs : s.current.kind = kind) (h0 : kind ≠ .eof) :
    s.current.isEof = false :=
  not_isEof_of_isAt (beq_iff_eq.mpr hs) h0

/-! ### Calls, subscripts and members -/

theorem keeps_expressions (h : Agree total n r r') (close : Punctuation) {unclosed : ErrorKind}
    (hu : unclosed.isInternal = false) :
    Keeps total n (expressions r close unclosed) (expressions r' close unclosed) := by
  unfold expressions
  dsimp only
  refine Moves.commaList (fun s hs => ?_) (keeps_mark close) _ ?_ h.rounds h.rounds'
  · refine ((h.expression hs).loosen (Nat.le_succ _)).bind fun item t ht => ?_
    cases item with
    | some item => exact .pure ht
    | none =>
      rw [ht.1, meets_get]
      refine .fail (hs.self.failing ?_)
      split
      · exact hu
      · rfl
  · intro s
    split
    · exact hu
    · rfl

theorem starts_call (h : Agree total n r r') (callee : Node) (generics : List Node) :
    Starts total (n + 1) (call r callee generics) (call r' callee generics) := by
  intro s hs heof
  have hle : s.left ≤ n := Nat.le_of_lt_succ hs.left
  unfold call
  rw [meets_advance]
  refine (keeps_expressions h _ rfl hle (hs.advance_of_not_eof heof)).bind fun args t ht => ?_
  exact .pure ht

theorem starts_subscript (h : Agree total n r r') (target : Node) :
    Starts total (n + 1) (subscript r target) (subscript r' target) := by
  intro s hs heof
  have hle : s.left ≤ n := Nat.le_of_lt_succ hs.left
  unfold subscript
  rw [meets_advance]
  refine (h.expression.keeps hle (hs.advance_of_not_eof heof)).bind fun start t ht => ?_
  refine (ht.eat _).bind fun colon u hu => ?_
  dsimp only
  split
  · refine (h.expression.keeps hle hu).bind fun stop v hv => ?_
    rw [meets_pure_bind]
    exact (hv.expect _ rfl).bind fun close w hw => .pure hw
  · rw [meets_pure_bind]
    exact (hu.expect _ rfl).bind fun close v hv => .pure hv
  · exact (Meets.fail (hu.failing rfl)).bind fun x v hv => hv

theorem starts_member (base : Node) : Starts total (n + 1) (member base) (member base) := by
  intro s hs heof
  have hle : s.left ≤ n := Nat.le_of_lt_succ hs.left
  unfold member
  rw [meets_advance]
  have hident := moves_expectIdent.keeps hle (hs.advance_of_not_eof heof)
  refine hident.bind fun ident t ht => ?_
  dsimp only
  rw [meets_get]
  split
  · split <;> exact .pure ht
  · exact .pure ht

/-! ### Values -/

theorem starts_dict (h : Agree total n r r') : Starts total (n + 1) (dict r) (dict r') := by
  intro s hs heof
  have hle : s.left ≤ n := Nat.le_of_lt_succ hs.left
  unfold dict
  rw [meets_advance]
  refine (Moves.commaList (fun t ht => ?_) (keeps_mark .rBrace) (fun _ => .missingComma)
    (fun _ => rfl) h.rounds h.rounds' hle (hs.advance_of_not_eof heof)).bind
    fun entries t ht => .pure ht
  have hlt : t.left ≤ n := Nat.le_of_lt ht.left
  have hvalue : Moves total n (require r.expression .missingValue)
      (require r'.expression .missingValue) := h.expression.require rfl
  refine (hvalue ht).bind fun key u hu => ?_
  refine Meets.loosen ?_ (Nat.le_succ _)
  refine (hu.expect _ rfl).bind fun colon v hv => ?_
  exact (hvalue.keeps hlt hv).bind fun value w hw => .pure hw

theorem starts_list (h : Agree total n r r') : Starts total (n + 1) (list r) (list r') := by
  intro s hs heof
  have hle : s.left ≤ n := Nat.le_of_lt_succ hs.left
  unfold list
  rw [meets_advance]
  refine (keeps_expressions h _ rfl hle (hs.advance_of_not_eof heof)).bind fun items t ht => ?_
  exact .pure ht

theorem starts_parenthesized (h : Agree total n r r') :
    Starts total (n + 1) (parenthesized r) (parenthesized r') := by
  intro s hs heof
  have hle : s.left ≤ n := Nat.le_of_lt_succ hs.left
  unfold parenthesized
  rw [meets_advance]
  refine ((h.expression.require rfl).keeps hle (hs.advance_of_not_eof heof)).bind
    fun inner t ht => ?_
  exact (ht.expect _ rfl).bind fun close u hu => .pure hu

theorem starts_newObject (h : Agree total n r r') :
    Starts total (n + 1) (newObject r) (newObject r') := by
  intro s hs heof
  have hle : s.left ≤ n := Nat.le_of_lt_succ hs.left
  have htype := (reads_typeRef h none).mono (Nat.le_succ n)
  unfold newObject
  rw [meets_advance]
  refine ((htype.require rfl).keeps hle (hs.advance_of_not_eof heof)).bind fun type t ht => ?_
  refine (ht.eat _).bind fun paren u hu => ?_
  cases paren with
  | none => exact .pure hu
  | some paren => exact (keeps_expressions h _ rfl hle hu).bind fun args v hv => .pure hv

theorem starts_lambda (h : Agree total n r r') : Starts total (n + 1) (lambda r) (lambda r') := by
  intro s hs heof
  have hle : s.left ≤ n := Nat.le_of_lt_succ hs.left
  unfold lambda
  rw [meets_advance]
  refine ((keeps_signatureAndBody h none).inScope _ hle (hs.advance_of_not_eof heof)).bind
    fun parts t ht => ?_
  exact .pure ht

theorem starts_invalidRun (hk : n ≤ k) (hk' : n ≤ k') :
    Starts total (n + 1) (invalidRun k) (invalidRun k') := by
  intro s hs heof
  have hle : s.left ≤ n := Nat.le_of_lt_succ hs.left
  have hrecord := (hs.advance_of_not_eof heof).record
    (e := ⟨.invalidTokenSequence, s.current, some (.about s.current.describe)⟩) rfl
  unfold invalidRun
  rw [meets_advance, meets_record]
  refine (Rounds.loop (n := n) (fun spans t ht => ?_) hk hk' [] hle hrecord).bind
    fun spans t ht => .pure ht
  rw [meets_get]
  split
  · rename_i hinvalid
    rw [Bool.and_eq_true] at hinvalid
    rw [meets_advance]
    exact .pure (ht.advance_of_isAt hinvalid.1 (by decide))
  · exact .pure ht.self

theorem starts_nameValue (h : Agree total n r r') :
    Starts total (n + 1) (nameValue r) (nameValue r') := by
  intro s hs heof
  have hle : s.left ≤ n := Nat.le_of_lt_succ hs.left
  have hnext := hs.advance_of_not_eof heof
  unfold nameValue
  rw [meets_get, meets_advance]
  dsimp only
  rw [meets_isAt]
  split
  · refine (keeps_genericArguments h hle hnext).bind fun args t ht => ?_
    cases args with
    | none => exact .pure ht
    | some args =>
      dsimp only
      rw [meets_isAt]
      split
      · rename_i hparen
        exact (starts_call h _ _).keeps (Nat.le_succ_of_le hle) ht
          (not_isEof_of_isAt hparen (by decide))
      · exact .pure ht
  · exact .pure hnext

theorem reads_valueAt (h : Agree total n r r') {kind : Kind} (hs : At total (n + 1) s)
    (hkind : s.current.kind = kind) :
    Meets s (valueAt r kind) (valueAt r' kind)
      (fun v t => v.elim (t = s ∧ NoValue s) fun _ => At total s.left t)
      (Failing total s.left) := by
  have heof (h0 : kind ≠ .eof) : s.current.isEof = false := not_isEof_of_kind hkind h0
  unfold valueAt
  split
  · exact (starts_nameValue h).reads hs (heof (by decide))
  · exact (starts_newObject h).reads hs (heof (by decide))
  · exact (starts_lambda h).reads hs (heof (by decide))
  · rename_i k hnew hfunction
    split
    · exact (starts_nameValue h).reads hs (heof (by simp))
    · rename_i hname
      refine .pure ⟨rfl, ?_⟩
      rw [NoValue, hkind]
      unfold startsValue
      split <;> simp_all
  · exact (starts_parenthesized h).reads hs (heof (by decide))
  · exact (starts_list h).reads hs (heof (by decide))
  · exact (starts_dict h).reads hs (heof (by decide))
  · exact (starts_invalidRun h.rounds h.rounds').reads hs (heof (by decide))
  · split
    · rename_i hliteral
      refine Meets.map (.result _ _ rfl rfl (hs.advance_of_not_eof (heof ?_)))
      rintro rfl
      cases hliteral
    · refine .pure ⟨rfl, ?_⟩
      rw [NoValue, hkind]
      unfold startsValue
      split <;> simp_all

theorem takes_value (h : Agree total n r r') : Takes total n NoValue (value r) (value r') := by
  intro b hb s hs
  unfold value
  rw [meets_get]
  cases hname : s.lookaside with
  | some name =>
    dsimp only
    rw [meets_set]
    have hlt := hs.waiting (by simp [hname])
    exact .pure ⟨⟨hs.sound.lexer, hs.sound.errors⟩, rfl, hlt⟩
  | none =>
    have hat : At total (n + 1) s := ⟨hs.sound, hname, by have := hs.left; omega⟩
    refine ((reads_valueAt h hat rfl).weaken fun v t hv => ?_).loosen hs.left
    cases v with
    | none => exact ⟨hv.1, rfl, hv.2⟩
    | some node => exact hv.mono hs.left

theorem rounds_postfixRound (h : Agree total n r r') :
    Rounds total n (postfixRound r) (postfixRound r') := by
  intro node s hs
  have hlt : At total (n + 1) s := hs.mono (Nat.le_succ n)
  unfold postfixRound
  rw [meets_current]
  split
  · rename_i hparen
    exact .map (((starts_call h _ _) hlt (not_isEof_of_kind hparen (by decide))).loosen
      (Nat.le_succ _))
  · rename_i hbracket
    exact .map (((starts_subscript h _) hlt (not_isEof_of_kind hbracket (by decide))).loosen
      (Nat.le_succ _))
  · rename_i hdot
    exact .map (((starts_member _) hlt (not_isEof_of_kind hdot (by decide))).loosen
      (Nat.le_succ _))
  · exact .pure hs.self

theorem takes_postfixed (h : Agree total n r r') :
    Takes total n NoValue (postfixed r) (postfixed r') := by
  intro b hb s hs
  unfold postfixed
  refine (takes_value h hb hs).bind fun v t hv => ?_
  cases v with
  | none => exact .pure hv
  | some node => exact .map ((rounds_postfixRound h).loop h.rounds h.rounds' node hb hv)

/-! ### Operators -/

variable {accepts : Kind → Bool}

/-- An operator before its operand, or else what binds tighter. -/
theorem Takes.orAfter {next next' : Production (Option Node)}
    (hnext : Takes total n NoValue next next') (haccepts : accepts .eof = false) {form : Form}
    {inner inner' : Production (Option Node)}
    (hinner : Reads total n (fun _ => True) inner inner') :
    Takes total n NoValue
      (do
        match ← operatorBefore accepts with
        | some op => return some (.branch form op [← operand inner])
        | none => next)
      (do
        match ← operatorBefore accepts with
        | some op => return some (.branch form op [← operand inner'])
        | none => next') := by
  intro b hb s hs
  have hop := outcome_operatorBefore s accepts
  split at hop
  · rename_i hbefore
    rw [Bool.and_eq_true, Option.isNone_iff_eq_none] at hbefore
    have hat : At total (s.left + 1) s := ⟨hs.sound, hbefore.1, Nat.lt_succ_self _⟩
    have hadv := (hat.advance_of_not_eof (not_isEof_of hbefore.2 haccepts)).mono hs.left
    rw [meets_step hop hop]
    exact (hinner.operand hb hadv).bind fun node t ht => .pure ht
  · rw [meets_step hop hop]
    exact hnext hb hs

theorem takes_invert (h : Agree total n r r') :
    Takes total n NoValue (invert r) (invert r') :=
  (takes_postfixed h).orAfter rfl h.invert

theorem takes_deref (h : Agree total n r r') : Takes total n NoValue (deref r) (deref r') :=
  (takes_invert h).orAfter rfl h.deref

theorem rounds_stepRound : Rounds total n stepRound stepRound := by
  intro node s hs
  unfold stepRound
  rw [meets_get]
  split
  · rename_i hstep
    rw [Bool.and_eq_true] at hstep
    rw [meets_advance]
    exact .pure (hs.advance_of_not_eof
      (not_isEof_of (f := fun kind => kind.opClass? == some .incDec) hstep.1 rfl))
  · exact .pure hs.self

theorem keeps_stepsAfter (hk : n ≤ k) (hk' : n ≤ k') (node : Node) :
    Keeps total n (stepsAfter k node) (stepsAfter k' node) := rounds_stepRound.loop hk hk' node

theorem takes_steps (h : Agree total n r r') : Takes total n NoValue (steps r) (steps r') := by
  refine Takes.orAfter (fun b hb s hs => ?_) rfl h.steps
  refine (takes_deref h hb hs).bind fun v t hv => ?_
  cases v with
  | none => exact .pure hv
  | some node => exact .map (keeps_stepsAfter h.rounds h.rounds' node hb hv)

theorem Takes.operatorRound {next next' : Production (Option Node)}
    (hnext : Takes total n NoValue next next') (cls : Operator.Class)
    {combine combine' : Node → Token → Node → Production Node}
    (hcombine : ∀ left op right, Keeps total n (combine left op right) (combine' left op right)) :
    Rounds total n (operatorRound cls next combine) (operatorRound cls next' combine') := by
  intro left s hs
  have hle : s.left ≤ n := Nat.le_of_lt hs.left
  unfold Grammar.operatorRound
  rw [meets_current]
  split
  · rename_i hop
    have heof := not_isEof_of (f := fun kind => kind.opClass? == some cls) hop rfl
    rw [meets_advance]
    refine Meets.loosen ?_ (Nat.le_succ _)
    refine (hnext.reads.operand (Nat.le_succ_of_le hle) (hs.advance_of_not_eof heof)).bind
      fun right t ht => ?_
    exact .map (hcombine left _ right hle ht)
  · exact .pure hs.self

theorem Takes.level {next next' : Production (Option Node)}
    (hnext : Takes total n NoValue next next') (cls : Operator.Class)
    {combine combine' : Node → Token → Node → Production Node}
    (hcombine : ∀ left op right, Keeps total n (combine left op right) (combine' left op right))
    (hk : n ≤ k) (hk' : n ≤ k') :
    Takes total n NoValue (level k cls next combine) (level k' cls next' combine') := by
  intro b hb s hs
  unfold Grammar.level
  refine (hnext hb hs).bind fun v t hv => ?_
  cases v with
  | none => exact .pure hv
  | some left => exact .map ((hnext.operatorRound cls hcombine).loop hk hk' left hb hv)

theorem keeps_binary (left : Node) (op : Token) (right : Node) :
    Keeps total n (binary left op right) (binary left op right) := fun _ _ _ hs => .pure hs

theorem takes_shift (h : Agree total n r r') : Takes total n NoValue (shift r) (shift r') :=
  (((takes_steps h).level .multiplicative keeps_binary h.rounds h.rounds').level .additive
    keeps_binary h.rounds h.rounds').level .shift keeps_binary h.rounds h.rounds'

theorem takes_bitwise (h : Agree total n r r') :
    Takes total n NoValue (bitwise r) (bitwise r') :=
  (takes_shift h).level .bitwise keeps_binary h.rounds h.rounds'

theorem keeps_comparison (h : Agree total n r r') (left : Node) (op : Token) (right : Node) :
    Keeps total n (comparison r left op right) (comparison r' left op right) := by
  intro b hb s hs
  unfold comparison
  rw [meets_current]
  split
  · rw [meets_advance]
    exact ((takes_bitwise h).reads.operand (Nat.le_succ_of_le hb) hs.advance).bind
      fun upper t ht => .pure ht
  · exact .pure hs

theorem takes_logical (h : Agree total n r r') :
    Takes total n NoValue (logical r) (logical r') :=
  ((takes_bitwise h).level .relational (keeps_comparison h) h.rounds h.rounds').level .logical
    keeps_binary h.rounds h.rounds'

theorem keeps_assignment (target : Node) (op : Token) (value : Node) :
    Keeps total n (assignment target op value) (assignment target op value) := by
  intro b hb s hs
  unfold assignment
  dsimp only
  split
  · rw [meets_record]
    exact .pure (hs.record rfl)
  · exact .pure hs

/-- **Expressions** read something wherever a value starts. -/
theorem takes_expression (h : Agree total n r r') :
    Takes total n NoValue (expression r) (expression r') := by
  intro b hb s hs
  unfold expression
  refine (takes_logical h hb hs).bind fun v t hv => ?_
  cases v with
  | none => exact .pure hv
  | some target =>
    dsimp only
    rw [meets_current]
    split
    · rw [meets_advance]
      refine (h.expression.operand hb hv.advance).bind fun value u hu => ?_
      exact .map (keeps_assignment target _ value hb hu)
    · exact .pure hv

theorem keeps_expression (h : Agree total n r r') :
    Keeps total n (expression r) (expression r') :=
  ((takes_expression h).reads.mono (Nat.le_succ n)).keeps

end SableFront.Grammar
