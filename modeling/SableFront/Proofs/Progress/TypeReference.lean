import SableFront.Proofs.Progress.Combinator

/-!
# Progress: type references and callables

What is read where a type, a parameter list or a block may stand.
-/

namespace SableFront.Grammar

variable {total n : Nat} {s : State} {r r' : Rules}

/-! ### Type references -/

/-- A token that names something is not the end of the text. -/
theorem not_isEof_of_name? {t : Token} {name : String} (h : t.name? = some name) :
    t.isEof = false := by
  unfold Token.name? at h
  unfold Token.isEof
  split at h <;> simp_all

theorem not_isEof_of_atTypeName (h : s.atTypeName) : s.current.isEof = false := by
  unfold State.atTypeName State.currentSymbol? at h
  cases hname : s.current.name? with
  | none => simp [hname] at h
  | some name => exact not_isEof_of_name? hname

theorem moves_genericArgument (h : Agree total n r r') :
    Moves total n (genericArgument r) (genericArgument r') := by
  intro s hs
  unfold genericArgument
  rw [meets_get]
  split
  · exact h.typeRef.require rfl hs
  · exact h.shift.require rfl hs

theorem keeps_genericArguments (h : Agree total n r r') :
    Keeps total n (genericArguments r) (genericArguments r') := by
  intro b hb s hs
  have hlist := (moves_genericArgument h).commaList keeps_angle (fun _ => .missingComma)
    (fun _ => rfl) h.rounds h.rounds'
  unfold genericArguments
  refine Meets.orRewind (Meets.orNone ?_)
  rw [meets_advance]
  refine (hlist hb hs.advance).mono (fun _ _ ht => ht) fun _ _ he => ?_
  exact hs.rewind he.sound

theorem keeps_modifiers {k k' : Nat} (hk : n ≤ k) (hk' : n ≤ k') :
    Keeps total n (modifiers k) (modifiers k') := by
  refine Rounds.loop (fun marks s hs => ?_) hk hk' []
  rw [meets_current]
  split
  · rename_i hmark
    rw [meets_advance]
    exact .pure (hs.advance_of_not_eof (not_isEof_of (f := fun k => (modifier? k).isSome) hmark rfl))
  · exact .pure hs.self

theorem reads_typeRef (h : Agree total n r r') (storage : Option Node) :
    Reads total (n + 1) (fun _ => True) (typeRef r storage) (typeRef r' storage) := by
  intro s hs
  have hle : s.left ≤ n := Nat.le_of_lt_succ hs.left
  have hmarks : Keeps total n _ _ := keeps_modifiers h.rounds h.rounds'
  unfold typeRef
  rw [meets_get]
  split
  · rename_i hname
    have hnext := hs.advance_of_not_eof (not_isEof_of_atTypeName hname)
    rw [meets_advance]
    dsimp only
    rw [meets_isAt]
    split
    · refine (keeps_genericArguments h hle hnext).bind fun args t ht => ?_
      exact (hmarks hle ht).bind fun marks u hu => .pure hu
    · rw [meets_pure_bind]
      exact (hmarks hle hnext).bind fun marks u hu => .pure hu
  · exact .pure ⟨rfl, trivial⟩

/-! ### Declared names and blocks -/

theorem keeps_declare (name : Node) (symbol : Symbol) (scope : ScopeId) (role : Role) :
    Keeps total n (declare name symbol scope role) (declare name symbol scope role) := by
  intro b hb s hs
  unfold declare
  rw [meets_get]
  split
  · rw [meets_set]
    exact .pure (hs.of_eq rfl rfl rfl)
  · rw [meets_record]
    split <;> exact .pure (hs.record rfl)

theorem starts_block (h : Agree total n r r') (enter : SymbolTable → SymbolTable)
    (context : Context) :
    Starts total (n + 1) (block r enter context) (block r' enter context) := by
  intro s hs heof
  have hle : s.left ≤ n := Nat.le_of_lt_succ hs.left
  unfold block
  rw [meets_advance]
  refine ((h.items context).inScope enter hle (hs.advance_of_not_eof heof)).bind fun ns t ht => ?_
  refine (ht.eat _).bind fun close u hu => ?_
  dsimp only
  split
  · rw [meets_get, meets_record]
    exact .pure (hu.record rfl)
  · exact .pure hu

theorem keeps_body (h : Agree total n r r') : Keeps total (n + 1) (body r) (body r') := by
  intro b hb s hs
  unfold body
  rw [meets_isAt]
  split
  · rename_i hbrace
    exact (starts_block h _ _).keeps hb hs (not_isEof_of_isAt hbrace (by decide))
  · exact .fail (hs.failing rfl)

/-! ### Parameters and signatures -/

theorem keeps_defaultValue (h : Agree total n r r') :
    Keeps total n (defaultValue r) (defaultValue r') := by
  intro b hb s hs
  unfold defaultValue
  refine (hs.eat _).bind fun op t ht => ?_
  cases op with
  | none => exact .pure ht
  | some op => exact (h.expression.operand hb ht).bind fun value u hu => .pure hu

theorem moves_param (h : Agree total n r r') : Moves total n (param r) (param r') := by
  intro s hs
  have hle : s.left ≤ n := Nat.le_of_lt hs.left
  have htype := reads_typeRef h none (hs.mono (Nat.le_succ n))
  unfold param
  refine (htype.loosen (Nat.le_succ _)).bind fun type t ht => ?_
  cases type with
  | none =>
    rw [ht.1, meets_current]
    exact .failFor (hs.self.failing rfl)
  | some type =>
    refine Meets.loosen ?_ (Nat.le_succ _)
    refine (moves_expectIdent.keeps hle ht).bind fun ident u hu => ?_
    dsimp only
    rw [meets_get]
    refine (keeps_declare _ _ _ _ hle hu).bind fun declared v hv => ?_
    exact (keeps_defaultValue h hle hv).bind fun default w hw => .pure hw

theorem keeps_params (h : Agree total n r r') : Keeps total n (params r) (params r') := by
  intro b hb s hs
  unfold params
  refine (hs.expect _ rfl).bind fun paren t ht => ?_
  have hlist := (moves_param h).commaList (keeps_mark .rParen)
    (fun s => if s.current.isEof then .missingRightParen else .missingComma)
    (fun s => by split <;> rfl) h.rounds h.rounds'
  exact (hlist hb ht).bind fun items u hu => .pure hu

theorem keeps_signature (h : Agree total n r r') :
    Keeps total n (signature r) (signature r') := by
  intro b hb s hs
  unfold signature
  refine (keeps_params h hb hs).bind fun ps t ht => ?_
  refine (ht.eat _).bind fun arrow u hu => ?_
  cases arrow with
  | none => exact .pure hu
  | some arrow =>
    have htype := (reads_typeRef h none).mono (Nat.le_succ n)
    exact ((htype.require rfl).keeps hb hu).bind fun type v hv => .pure hv

theorem keeps_signatureAndBody (h : Agree total n r r') (id : Option SymbolId) :
    Keeps total n (signatureAndBody r id) (signatureAndBody r' id) := by
  intro b hb s hs
  have hbody := keeps_body h (Nat.le_succ_of_le hb)
  unfold signatureAndBody
  refine (keeps_signature h hb hs).bind fun sig t ht => ?_
  dsimp only
  cases id with
  | none => exact (hbody ht).bind fun node u hu => .pure hu
  | some id =>
    dsimp only
    rw [meets_modify]
    exact (hbody (ht.withSymbols _)).bind fun node u hu => .pure hu

end SableFront.Grammar
