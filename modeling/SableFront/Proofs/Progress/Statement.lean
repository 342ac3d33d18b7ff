import SableFront.Proofs.Progress.Definition

/-!
# Progress: statements and lists of statements

Every statement reads something or gives nothing, and an error in a statement comes only after
something has been read. So each round of a list goes on in the text: a statement that gave nothing
and an error in the lookaside or at a closing brace are the cases to look at.
-/

namespace SableFront.Grammar

variable {total n k k' b : Nat} {s : State} {r r' : Rules} {context : Context}

/-! ### Control flow -/

theorem keeps_condition (h : Agree total n r r') : Keeps total n (condition r) (condition r') :=
  (((takes_expression h).reads.mono (Nat.le_succ n)).require rfl).keeps

theorem keeps_guarded (h : Agree total n r r') (form : Form) (keyword : Token) :
    Keeps total n (guarded r form keyword) (guarded r' form keyword) := by
  intro b hb s hs
  unfold guarded
  refine (keeps_condition h hb hs).bind fun condition t ht => ?_
  exact (keeps_body h (Nat.le_succ_of_le hb) ht).bind fun body u hu => .pure hu

theorem keeps_elifBranches (h : Agree total n r r') (branches : List Node) :
    Keeps total n (elifBranches r branches) (elifBranches r' branches) := by
  refine Rounds.loop (fun branches s hs => ?_) h.rounds h.rounds' branches
  have helif : Reads total n _ (eat (.keyword .elifKw)) _ := reads_eat (by decide)
  refine ((helif hs).loosen (Nat.le_succ _)).bind fun keyword t ht => ?_
  cases keyword with
  | none => exact .pure (ht.1 ▸ hs.self)
  | some keyword =>
    refine Meets.loosen ?_ (Nat.le_succ _)
    exact (keeps_guarded h _ _ (Nat.le_of_lt hs.left) ht).bind fun branch u hu => .pure hu

theorem starts_conditional (h : Agree total n r r') :
    Starts total (n + 1) (conditional r) (conditional r') := by
  intro s hs heof
  have hle : s.left ≤ n := Nat.le_of_lt_succ hs.left
  unfold conditional
  rw [meets_advance]
  refine (keeps_guarded h _ _ hle (hs.advance_of_not_eof heof)).bind fun first t ht => ?_
  refine (keeps_elifBranches h _ hle ht).bind fun branches u hu => ?_
  refine (hu.eat _).bind fun word v hv => ?_
  cases word with
  | none => exact .pure hv
  | some word =>
    exact (keeps_body h (Nat.le_succ_of_le hle) hv).bind fun body w hw => .pure hw

theorem starts_whileLoop (h : Agree total n r r') :
    Starts total (n + 1) (whileLoop r) (whileLoop r') := by
  intro s hs heof
  unfold whileLoop
  rw [meets_advance]
  exact keeps_guarded h _ _ (Nat.le_of_lt_succ hs.left) (hs.advance_of_not_eof heof)

theorem starts_doWhile (h : Agree total n r r') :
    Starts total (n + 1) (doWhile r) (doWhile r') := by
  intro s hs heof
  have hle : s.left ≤ n := Nat.le_of_lt_succ hs.left
  unfold doWhile
  rw [meets_advance]
  refine (keeps_body h (Nat.le_succ_of_le hle) (hs.advance_of_not_eof heof)).bind
    fun body t ht => ?_
  refine (ht.eat _).bind fun word u hu => ?_
  cases word with
  | none => exact .fail (hu.failing rfl)
  | some word => exact (keeps_condition h hle hu).bind fun condition v hv => .pure hv

theorem keeps_nameStatement (h : Agree total n r r') (hb : b ≤ n) (hs : At total b s)
    (hname : startsValue s.current.kind) :
    Meets s (nameStatement r) (nameStatement r') (fun _ => At total b) (Failing total b) := by
  refine ((reads_nameStatement h (hs.mono (Nat.le_succ_of_le hb)) hname).weaken
    fun v t hv => ?_).loosen (Nat.le_of_lt hs.left)
  exact hv.2.mono (Nat.le_of_lt hs.left)

theorem keeps_forStart (h : Agree total n r r') : Keeps total n (forStart r) (forStart r') := by
  intro b hb s hs
  unfold forStart
  rw [meets_isAt]
  split
  · exact .pure hs
  · rw [meets_isAt]
    split
    · rename_i hident
      refine keeps_nameStatement h hb hs ?_
      rw [beq_iff_eq.mp hident]
      rfl
    · exact keeps_expression h hb hs

theorem keeps_forHeader (h : Agree total n r r') : Keeps total n (forHeader r) (forHeader r') := by
  intro b hb s hs
  unfold forHeader
  refine (keeps_forStart h hb hs).bind fun start t ht => ?_
  rw [meets_get]
  split
  · rw [meets_advance]
    exact ((h.expression.require rfl).keeps hb ht.advance).bind fun value u hu => .pure hu
  · refine (ht.expect _ rfl).bind fun _ u hu => ?_
    refine (keeps_expression h hb hu).bind fun condition v hv => ?_
    refine (hv.expect _ rfl).bind fun _ w hw => ?_
    exact (keeps_expression h hb hw).bind fun step x hx => .pure hx

theorem keeps_forRest (h : Agree total n r r') : Keeps total n (forRest r) (forRest r') := by
  intro b hb s hs
  have hbody := keeps_body h (Nat.le_succ_of_le hb)
  unfold forRest
  refine (hs.eat _).bind fun paren t ht => ?_
  refine (keeps_forHeader h hb ht).bind fun header u hu => ?_
  dsimp only
  split
  · refine (hu.expect _ rfl).bind fun _ v hv => ?_
    exact (hbody hv).bind fun body w hw => .pure hw
  · exact (hbody hu).bind fun body v hv => .pure hv

theorem starts_forLoop (h : Agree total n r r') :
    Starts total (n + 1) (forLoop r) (forLoop r') := by
  intro s hs heof
  have hle : s.left ≤ n := Nat.le_of_lt_succ hs.left
  unfold forLoop
  rw [meets_advance]
  exact ((keeps_forRest h).inScope _ hle (hs.advance_of_not_eof heof)).bind
    fun parts t ht => .pure ht

theorem starts_returnStatement (h : Agree total n r r') :
    Starts total (n + 1) (returnStatement r) (returnStatement r') := by
  intro s hs heof
  have hle : s.left ≤ n := Nat.le_of_lt_succ hs.left
  unfold returnStatement
  rw [meets_advance, meets_get]
  dsimp only
  split
  · rw [meets_pure_bind]
    exact .pure (hs.advance_of_not_eof heof)
  · exact (keeps_expression h hle (hs.advance_of_not_eof heof)).bind fun value t ht => .pure ht

theorem starts_delete (h : Agree total n r r') :
    Starts total (n + 1) (delete r) (delete r') := by
  intro s hs heof
  have hle : s.left ≤ n := Nat.le_of_lt_succ hs.left
  have hvalue := (takes_expression h).reads.mono (Nat.le_succ n)
  unfold delete
  rw [meets_advance]
  exact ((hvalue.require rfl).keeps hle (hs.advance_of_not_eof heof)).bind
    fun value t ht => .pure ht

/-! ### Storage and visibility -/

theorem keeps_afterStorage (h : Agree total n r r') (storage : Node) :
    Keeps total n (afterStorage r storage) (afterStorage r' storage) := by
  intro b hb s hs
  have hb' : b ≤ n + 1 := Nat.le_succ_of_le hb
  unfold afterStorage
  rw [meets_current]
  split
  · rename_i hkind
    exact (starts_functionDef h _ _).keeps hb' hs (not_isEof_of_kind hkind (by decide))
  · rename_i hkind
    exact (starts_operatorDef h _ _).keeps hb' hs (not_isEof_of_kind hkind (by decide))
  · unfold require
    have hdeclaration := reads_declaration h (some storage) (hs.mono hb')
    refine (hdeclaration.loosen (Nat.le_of_lt hs.left)).bind fun v t hv => ?_
    cases v with
    | none => exact .fail ((hv.mono hs.left).failing rfl)
    | some node => exact .pure (hv.mono (Nat.le_of_lt hs.left))

theorem At.storageHere (hs : At total b s) :
    Meets s storageHere storageHere (fun _ => At total b) (Failing total b) := by
  unfold Grammar.storageHere
  rw [meets_current]
  split
  · split
    · exact .map (.result _ _ rfl rfl hs.advance)
    · exact .pure hs
  · exact .pure hs

theorem keeps_afterVisibility (h : Agree total n r r') (visibility : Node)
    (storage : Option Node) :
    Keeps total n (afterVisibility r visibility storage)
      (afterVisibility r' visibility storage) := by
  intro b hb s hs
  have hb' : b ≤ n + 1 := Nat.le_succ_of_le hb
  unfold afterVisibility
  rw [meets_current]
  split
  · rename_i hkind
    exact (starts_classDef h _).keeps hb' hs (not_isEof_of_kind hkind (by decide))
  · rename_i hkind
    exact (starts_classDef h _).keeps hb' hs (not_isEof_of_kind hkind (by decide))
  · rename_i hkind
    exact (starts_functionDef h _ _).keeps hb' hs (not_isEof_of_kind hkind (by decide))
  · rename_i hkind
    exact (starts_operatorDef h _ _).keeps hb' hs (not_isEof_of_kind hkind (by decide))
  · exact .pure hs
  · exact (keeps_afterStorage h _ hb hs).bind fun node t ht => .pure ht

theorem starts_visibilityStatement (h : Agree total n r r') :
    Starts total (n + 1) (visibilityStatement r) (visibilityStatement r') := by
  intro s hs heof
  have hle : s.left ≤ n := Nat.le_of_lt_succ hs.left
  unfold visibilityStatement
  rw [meets_advance]
  dsimp only
  refine ((hs.advance_of_not_eof heof).eat _).bind fun colon t ht => ?_
  cases colon with
  | some colon => exact .pure ht
  | none => exact ht.storageHere.bind fun storage u hu => keeps_afterVisibility h _ _ hle hu

/-! ### Statements -/

/-- What can start the item of a template is read as a statement of its own. -/
def NoTemplatable (s : State) : Prop := isTemplatable s.current.kind = false

theorem reads_keywordStatement (h : Agree total n r r') (hs : At total (n + 1) s) {k : Keyword}
    (hk : s.current.kind = .keyword k) :
    Meets s (keywordStatement r k) (keywordStatement r' k)
      (fun v t => v.elim (t = s ∧ NoTemplatable s) fun _ => At total s.left t)
      (Failing total s.left) := by
  have heof : s.current.isEof = false := not_isEof_of_kind hk (by simp)
  have hle : s.left ≤ n := Nat.le_of_lt_succ hs.left
  unfold keywordStatement
  split
  · exact (starts_conditional h).reads hs heof
  · exact (starts_whileLoop h).reads hs heof
  · exact (starts_doWhile h).reads hs heof
  · exact (starts_forLoop h).reads hs heof
  · exact (starts_returnStatement h).reads hs heof
  · exact (starts_delete h).reads hs heof
  · exact (starts_importStatement h).reads hs heof
  · exact (starts_importStatement h).reads hs heof
  · exact (starts_classDef h _).reads hs heof
  · exact (starts_classDef h _).reads hs heof
  · rw [meets_get]
    split
    · refine ((takes_expression h).reads hs).weaken fun v t hv => ?_
      cases v with
      | none =>
        have hno := hv.2
        rw [NoValue, hk] at hno
        cases hno
      | some node => exact hv
    · exact (starts_functionDef h _ _).reads hs heof
  · exact (starts_operatorDef h _ _).reads hs heof
  · exact (starts_template h).reads hs heof
  · split
    · exact (starts_visibilityStatement h).reads hs heof
    · split
      · rename_i hname
        refine (reads_nameStatement h hs ?_).weaken fun v t hv => ?_
        · rw [hk]
          unfold startsValue
          split <;> simp_all
        · cases v with
          | none => cases hv.1
          | some node => exact hv.2
      · split
        · have hstorage : Meets s storageNode storageNode (fun _ => At total s.left)
              (Failing total s.left) := .result _ _ rfl rfl (hs.advance_of_not_eof heof)
          exact .map (hstorage.bind fun storage t ht => keeps_afterStorage h storage hle ht)
        · rename_i hvisibility _ _
          refine ((takes_expression h).reads hs).weaken fun v t hv => ?_
          cases v with
          | none =>
            refine ⟨hv.1, ?_⟩
            rw [NoTemplatable, hk]
            unfold isTemplatable
            dsimp only
            split <;> simp_all
          | some node => exact hv

theorem reads_statement (h : Agree total n r r') :
    Reads total (n + 1) NoTemplatable (statement r) (statement r') := by
  intro s hs
  unfold statement
  rw [meets_current]
  split
  · rename_i hk
    exact reads_keywordStatement h hs hk
  · rename_i hk
    exact (starts_block h _ _).reads hs (not_isEof_of_kind hk (by decide))
  · rename_i hk
    refine (reads_nameStatement h hs (by rw [hk]; rfl)).weaken fun v t hv => ?_
    cases v with
    | none => cases hv.1
    | some node => exact hv.2
  · rename_i hk _ _
    refine ((takes_expression h).reads hs).weaken fun v t hv => ?_
    cases v with
    | none =>
      refine ⟨hv.1, ?_⟩
      rw [NoTemplatable]
      unfold isTemplatable
      split <;> simp_all
    | some node => exact hv

/-! ### Lists of statements -/

/-- Passing over semicolons takes no more rounds than there are bytes. -/
theorem At.skipSemicolons (hs : At total b s) (hk : b ≤ k) (hk' : b ≤ k') :
    skipSemicolons k' s = skipSemicolons k s ∧ At total (s.left + 1) (skipSemicolons k s) := by
  induction b generalizing s k k' with
  | zero => exact absurd hs.left (Nat.not_lt_zero _)
  | succ b ih =>
    obtain ⟨k, rfl⟩ : ∃ j, k = j + 1 := ⟨k - 1, by omega⟩
    obtain ⟨k', rfl⟩ : ∃ j, k' = j + 1 := ⟨k' - 1, by omega⟩
    have hle : s.left ≤ b := Nat.le_of_lt_succ hs.left
    unfold Grammar.skipSemicolons
    split
    · rename_i hsemicolon
      have hnext := hs.advance_of_isAt hsemicolon (by decide)
      obtain ⟨heq, hat⟩ := ih (hnext.mono hle) (Nat.le_of_succ_le_succ hk)
        (Nat.le_of_succ_le_succ hk')
      exact ⟨heq, hat.mono (Nat.succ_le_succ (Nat.le_of_lt hnext.left))⟩
    · exact ⟨rfl, hs.self⟩

theorem reads_itemProduction (h : Agree total n r r') (hs : At total (n + 1) s) (context : Context)
    (comments : List Token) :
    Meets { s with comments } (itemProduction r context s) (itemProduction r' context s)
      (fun v t => v.elim (t = { s with comments }) fun _ => At total s.left t)
      (Failing total s.left) := by
  have hs' : At total (n + 1) { s with comments } := hs.of_eq rfl rfl rfl
  unfold itemProduction
  split
  · rename_i henum
    rw [Bool.and_eq_true, atEnumerator, Bool.and_eq_true] at henum
    refine (reads_enumerator h hs' henum.2.1).weaken fun v t hv => ?_
    cases v with
    | none => cases hv.1
    | some node => exact hv.2
  · refine (reads_statement h hs').weaken fun v t hv => ?_
    cases v with
    | none => exact hv.1
    | some node => exact hv

/-- Where fewer bytes are left the current token is another one. -/
theorem At.offset_ne {t : State} (ht : At total s.left t) (hs : s.Sound total) :
    t.current.offset ≠ s.current.offset := by
  have h1 := hs.offset_add_left
  have h2 := ht.sound.offset_add_left
  have := ht.left
  omega

/-- After a statement that read something nothing has to be stepped over. -/
theorem At.finishItem {start : Nat} (hs : At total b s) (hstart : s.current.offset ≠ start)
    (leading : List Token) (node : Node) : At total b (finishItem start leading node s).2 := by
  have hstep : stepOver start s = s := by
    unfold stepOver
    rw [if_pos (by simp [hstart])]
  unfold Grammar.finishItem
  rw [hstep]
  dsimp only
  split
  · exact hs.advance.of_eq rfl rfl rfl
  · exact hs.of_eq rfl rfl rfl

theorem Failing.recover {e : SyntaxError} (hs : Failing total b e s) (scope : ScopeId) :
    At total b (recover e scope s).2 := by
  have hleft : (s.record e).left < b := by
    rw [State.left, State.current, s.lexer_record e]
    exact hs.left
  have hsound := hs.sound.record hs.proper
  unfold Grammar.recover
  dsimp only
  split
  · exact ⟨⟨hsound.lexer, hsound.errors⟩, rfl, hleft⟩
  · rename_i hname
    have hat : At total b
        { s.record e with symbols := (s.record e).symbols.enter scope, templateScope := none } :=
      ⟨⟨hsound.lexer, hsound.errors⟩, hname, hleft⟩
    split
    · exact hat
    · exact hat.advance

/-- **Each item of a list** reads something. -/
theorem At.item (h : Agree total n r r') (hs : At total (n + 1) s) (heof : s.isAt .eof = false) :
    item r' context s = item r context s ∧ At total s.left (item r context s).2 := by
  have hrun := reads_itemProduction h hs context []
  refine ⟨?_, ?_⟩
  · have hsame : (itemProduction r' context s).run { s with comments := [] } =
        (itemProduction r context s).run { s with comments := [] } := hrun.same
    unfold Grammar.item
    rw [hsame]
  · unfold Grammar.item
    dsimp only
    rcases hrun with ⟨v, t, hp, -, hv⟩ | ⟨e, t, hp, -, he⟩
    · change (itemProduction r context s).run { s with comments := [] } = _ at hp
      rw [hp]
      cases v with
      | none =>
        cases hv
        have hs' : At total (n + 1) { s with comments := [] } := hs.of_eq rfl rfl rfl
        have hrecord := hs'.record (e := s.error .incorrectToken none) rfl
        have hleft : (State.record { s with comments := [] } (s.error .incorrectToken none)).left =
            s.left := by rw [State.left, State.current, State.lexer_record]; rfl
        rw [← hleft]
        exact hrecord.advance_of_not_eof (by rw [State.current, State.lexer_record]; exact heof)
      | some node => exact At.finishItem hv (hv.offset_ne hs.sound) (leadingComments s).1 node
    · change (itemProduction r context s).run { s with comments := [] } = _ at hp
      rw [hp]
      exact he.recover _

end SableFront.Grammar
