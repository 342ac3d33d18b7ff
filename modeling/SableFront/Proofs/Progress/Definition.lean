import SableFront.Proofs.Progress.Expression

/-!
# Progress: declarations, definitions and imports

A statement at a name is always a declaration, an expression or an error; a template header goes on
only where a statement is sure to follow, so the internal error it guards against never arises.
-/

namespace SableFront.Grammar

variable {total n k k' : Nat} {s : State} {r r' : Rules}

/-! ### Declarations -/

theorem keeps_infer (id : SymbolId) (name value : Node) :
    Keeps total n (infer id name value) (infer id name value) := by
  intro b hb s hs
  unfold infer
  rw [meets_get]
  split
  · dsimp only
    split
    · exact .pure hs
    · rw [meets_set]
      exact .pure (hs.withSymbols _)
  · exact .pure hs

theorem keeps_shareMembers (id : Option SymbolId) (members : Option ScopeId) :
    Keeps total n (shareMembers id members) (shareMembers id members) := by
  intro b hb s hs
  unfold shareMembers
  split
  · exact .result _ _ rfl rfl (hs.withSymbols _)
  · exact .pure hs

theorem keeps_initializer (h : Agree total n r r') (type name : Node) (id : Option SymbolId) :
    Keeps total n (initializer r type name id) (initializer r' type name id) := by
  intro b hb s hs
  unfold initializer
  dsimp only
  refine (hs.eat _).bind fun op t ht => ?_
  cases op with
  | none => exact .pure ht
  | some op =>
    refine ((takes_expression h).reads.operand (Nat.le_succ_of_le hb) ht).bind fun value u hu => ?_
    cases id with
    | none =>
      rw [meets_pure_bind]
      exact keeps_assignment _ _ _ hb hu
    | some id =>
      exact (keeps_infer id name value hb hu).bind fun name v hv => keeps_assignment _ _ _ hb hv

theorem keeps_typedVariable (h : Agree total n r r') (type : Node) :
    Keeps total n (typedVariable r type) (typedVariable r' type) := by
  intro b hb s hs
  unfold typedVariable
  refine (moves_expectIdent.keeps hb hs).bind fun ident t ht => ?_
  dsimp only
  rw [meets_get]
  refine (keeps_declare _ _ _ _ hb ht).bind fun declared u hu => ?_
  refine (keeps_shareMembers _ _ hb hu).bind fun _ v hv => ?_
  exact keeps_initializer h type _ _ hb hv

theorem reads_declaration (h : Agree total n r r') (storage : Option Node)
    (hs : At total (n + 1) s) :
    Meets s (declaration r storage) (declaration r' storage)
      (fun v t => v.elim (At total (s.left + 1) t) fun _ => At total s.left t)
      (Failing total s.left) := by
  have hle : s.left ≤ n := Nat.le_of_lt_succ hs.left
  unfold declaration
  refine (reads_typeRef h storage hs).bind fun type t ht => ?_
  cases type with
  | none => exact .pure (ht.1 ▸ hs.self)
  | some type =>
    dsimp only
    rw [meets_isAt]
    split
    · exact .map (keeps_typedVariable h type hle ht)
    · split
      · exact .fail (ht.failing rfl)
      · exact .pure (ht.mono (Nat.le_succ _))

theorem reads_unknownNameStatement (h : Agree total n r r') (hs : At total (n + 1) s)
    (heof : s.current.isEof = false) :
    Meets s (unknownNameStatement r) (unknownNameStatement r')
      (fun v t => v.isSome ∧ At total s.left t) (Failing total s.left) := by
  have hle : s.left ≤ n := Nat.le_of_lt_succ hs.left
  have hnext := hs.advance_of_not_eof heof
  unfold unknownNameStatement
  rw [meets_advance, meets_get]
  dsimp only
  rw [meets_set]
  have hsound : State.Sound total
      { s.advance with lookaside := some (s.advance.bindName s.current) } :=
    ⟨hnext.sound.lexer, hnext.sound.errors⟩
  split
  · exact .throw ⟨hsound, rfl, hnext.left⟩
  · refine (takes_expression h hle ⟨hsound, Nat.le_of_lt hnext.left, fun _ => hnext.left⟩).weaken
      fun v t hv => ?_
    cases v with
    | none => exact absurd hv.2.1 (by simp)
    | some node => exact ⟨rfl, hv⟩

/-- A statement at a name gives something or fails. -/
theorem reads_nameStatement (h : Agree total n r r') (hs : At total (n + 1) s)
    (hname : startsValue s.current.kind) :
    Meets s (nameStatement r) (nameStatement r')
      (fun v t => v.isSome ∧ At total s.left t) (Failing total s.left) := by
  have hexpression {t : State} (ht : At total (n + 1) t) (hl : t.lexer = s.lexer) :
      Meets t (expression r) (expression r') (fun v u => v.isSome ∧ At total s.left u)
        (Failing total s.left) := by
    have hleft : t.left = s.left := by rw [State.left, State.left, State.current, hl]; rfl
    refine ((takes_expression h).reads ht).mono (fun v u hv => ?_) fun e u he => hleft ▸ he
    cases v with
    | none =>
      have hno := hv.2
      rw [NoValue, State.current, hl] at hno
      exact absurd hname (by rw [State.current, hno]; simp)
    | some node => exact ⟨rfl, hleft ▸ hv⟩
  unfold nameStatement
  rw [meets_get]
  split
  · have hattempt : Meets s (orRewind (declaration r none)) (orRewind (declaration r' none))
        (fun v t => v.elim (At total (n + 1) t ∧ t.lexer = s.lexer) fun _ => At total s.left t)
        (Failing total s.left) := by
      refine Meets.orRewind ((reads_declaration h none hs).weaken fun v t hv => ?_)
      cases v with
      | none => exact ⟨hs.rewind hv.sound, rfl⟩
      | some node => exact hv
    refine hattempt.bind fun v t hv => ?_
    cases v with
    | none => exact hexpression hv.1 hv.2
    | some node => exact .pure ⟨rfl, hv⟩
  · split
    · exact reads_unknownNameStatement h hs (not_isEof_of hname rfl)
    · exact hexpression hs rfl

theorem reads_enumerator (h : Agree total n r r') (hs : At total (n + 1) s)
    (hident : s.isAt .ident) :
    Meets s (enumerator r) (enumerator r') (fun v t => v.isSome ∧ At total s.left t)
      (Failing total s.left) := by
  have hle : s.left ≤ n := Nat.le_of_lt_succ hs.left
  have hnext := hs.advance_of_isAt hident (by decide)
  have hexpect : outcome expectIdent s = (.ok (s.current.text?.getD "", s.current), s.advance) := by
    rw [outcome_expectIdent, if_pos hident]
  unfold enumerator
  rw [meets_step hexpect hexpect]
  dsimp only
  rw [meets_get]
  refine (keeps_declare _ _ _ _ hle hnext).bind fun declared t ht => ?_
  refine (ht.eat _).bind fun op u hu => ?_
  cases op with
  | none =>
    dsimp only
    rw [meets_pure_bind]
    exact (hu.eat _).bind fun comma v hv => .pure ⟨rfl, hv⟩
  | some op =>
    refine ((takes_expression h).reads.operand (Nat.le_succ_of_le hle) hu).bind fun value v hv => ?_
    refine (keeps_assignment _ _ _ hle hv).bind fun node w hw => ?_
    exact (hw.eat _).bind fun comma x hx => .pure ⟨rfl, hx⟩

/-! ### Functions and operators -/

theorem starts_functionDef (h : Agree total n r r') (visibility storage : Option Node) :
    Starts total (n + 1) (functionDef r visibility storage)
      (functionDef r' visibility storage) := by
  intro s hs heof
  have hle : s.left ≤ n := Nat.le_of_lt_succ hs.left
  have hnext := (hs.advance_of_not_eof heof).withTemplate none
  unfold functionDef
  rw [meets_advance, meets_takeTemplateScope, meets_get]
  dsimp only
  refine (moves_expectIdent.keeps hle hnext).bind fun ident t ht => ?_
  refine (keeps_declare _ _ _ _ hle ht).bind fun declared u hu => ?_
  exact ((keeps_signatureAndBody h _).inScope _ hle hu).bind fun parts v hv => .pure hv

theorem keeps_bindOperator (template : Option ScopeId) (symbol : Symbol) :
    Keeps total n (bindOperator template symbol) (bindOperator template symbol) := by
  intro b hb s hs
  unfold bindOperator
  rw [meets_get]
  split
  · split
    · rw [meets_set]
      exact .pure (hs.withSymbols _)
    · exact .pure hs
  · rw [meets_set]
    exact .pure (hs.withSymbols _)

theorem starts_operatorDef (h : Agree total n r r') (visibility storage : Option Node) :
    Starts total (n + 1) (operatorDef r visibility storage)
      (operatorDef r' visibility storage) := by
  intro s hs heof
  have hle : s.left ≤ n := Nat.le_of_lt_succ hs.left
  have hnext := (hs.advance_of_not_eof heof).withTemplate none
  unfold operatorDef
  rw [meets_advance, meets_takeTemplateScope, meets_current]
  split
  · rw [meets_advance]
    refine (keeps_bindOperator _ _ hle hnext.advance).bind fun id t ht => ?_
    exact ((keeps_signatureAndBody h _).inScope _ hle ht).bind fun parts u hu => .pure hu
  · exact .failFor (hnext.failing rfl)

/-! ### Classes and enums -/

theorem keeps_bases (h : Agree total n r r') : Keeps total n (bases r) (bases r') := by
  intro b hb s hs
  have htype := (reads_typeRef h none).mono (Nat.le_succ n)
  unfold bases
  refine (hs.eat _).bind fun colon t ht => ?_
  cases colon with
  | none => exact .pure ht
  | some colon => exact (htype.require rfl).commaItems h.rounds h.rounds' hb ht

theorem At.memberScope {b : Nat} (hs : At total b s) (id : Option SymbolId) :
    Meets s (memberScope id) (memberScope id) (fun _ t => At total b t ∧ t.lexer = s.lexer)
      (Failing total b) := by
  unfold Grammar.memberScope
  cases id with
  | none => exact .pure ⟨hs, rfl⟩
  | some id =>
    dsimp only
    rw [meets_get, meets_set]
    exact .pure ⟨hs.withSymbols _, rfl⟩

theorem starts_classDef (h : Agree total n r r') (visibility : Option Node) :
    Starts total (n + 1) (classDef r visibility) (classDef r' visibility) := by
  intro s hs heof
  have hle : s.left ≤ n := Nat.le_of_lt_succ hs.left
  have hnext := (hs.advance_of_not_eof heof).withTemplate none
  unfold classDef
  rw [meets_advance]
  dsimp only
  rw [meets_takeTemplateScope, meets_get]
  refine (moves_expectIdent.keeps hle hnext).bind fun ident t ht => ?_
  refine (keeps_declare _ _ _ _ hle ht).bind fun declared u hu => ?_
  refine (keeps_bases h hle hu).bind fun types v hv => ?_
  rw [meets_isAt]
  split
  · rename_i hbrace
    refine (hv.memberScope _).bind fun enter w hw => ?_
    have heof : w.current.isEof = false := by
      rw [State.current, hw.2]
      exact not_isEof_of_isAt hbrace (by decide)
    exact ((starts_block h enter _).keeps (Nat.le_succ_of_le hle) hw.1 heof).bind
      fun body x hx => .pure hx
  · exact .fail (hv.failing rfl)

/-! ### Templates -/

theorem moves_templateParam : Moves total n templateParam templateParam := by
  intro s hs
  have hle : s.left ≤ n := Nat.le_of_lt hs.left
  unfold templateParam
  refine (moves_expectIdent hs).bind fun ident t ht => ?_
  refine Meets.loosen ?_ (Nat.le_succ _)
  dsimp only
  refine (ht.eat _).bind fun dots u hu => ?_
  cases dots with
  | none =>
    dsimp only
    rw [meets_pure_bind]
    dsimp only
    rw [meets_get]
    exact (keeps_declare _ _ _ _ hle hu).bind fun declared v hv => .pure hv
  | some dots =>
    dsimp only
    rw [meets_pure_bind]
    dsimp only
    rw [meets_get]
    exact (keeps_declare _ _ _ _ hle hu).bind fun declared v hv => .pure hv

theorem keeps_templateRest (h : Agree total n r r') (outer : ScopeId) :
    Keeps total n (templateRest r outer) (templateRest r' outer) := by
  intro b hb s hs
  have hparam : Moves total n templateParam templateParam := moves_templateParam
  have hlist := hparam.commaList keeps_angle (fun _ => .missingComma) (fun _ => rfl) h.rounds
    h.rounds'
  unfold templateRest
  refine (hlist hb hs).bind fun ps t ht => ?_
  dsimp only
  rw [meets_current]
  split
  · rename_i htemplatable
    rw [meets_modify]
    have hitem := h.statement.require_of ((ht.withTemplate (some outer)).mono hb)
      (by rw [Bool.not_eq_false]; exact htemplatable) .parsingFailed
    exact ((hitem.weaken fun _ _ hu => hu.mono (Nat.le_of_lt ht.left)).loosen
      (Nat.le_of_lt ht.left)).bind fun item u hu => .pure hu
  · exact .failFor (ht.failing rfl)

theorem starts_template (h : Agree total n r r') :
    Starts total (n + 1) (template r) (template r') := by
  intro s hs heof
  have hle : s.left ≤ n := Nat.le_of_lt_succ hs.left
  unfold template
  rw [meets_advance]
  refine ((hs.advance_of_not_eof heof).eat _).bind fun lt t ht => ?_
  cases lt with
  | none => exact .failFor (ht.failing rfl)
  | some lt =>
    dsimp only
    rw [meets_get]
    have hrest := (keeps_templateRest h t.symbols.current).inScope SymbolTable.push hle ht
    refine Meets.bind (Meets.ensuring ?_) fun parts u hu => .pure hu
    exact hrest.mono (fun _ _ hu => hu.withTemplate none) fun _ _ he => he.of_eq rfl rfl

/-! ### Imports -/

theorem keeps_importName (name : Node) :
    Keeps total n (importName name) (importName name) := by
  intro b hb s hs
  unfold importName
  rw [meets_get]
  dsimp only
  rw [meets_set]
  exact .pure (hs.withSymbols _)

theorem keeps_importAlias : Keeps total n importAlias importAlias := by
  intro b hb s hs
  unfold importAlias
  refine (hs.eat _).bind fun keyword t ht => ?_
  cases keyword with
  | none => exact .pure ht
  | some keyword =>
    refine (moves_expectIdent.keeps hb ht).bind fun ident u hu => ?_
    dsimp only
    exact (keeps_importName _ hb hu).bind fun name v hv => .pure hv

theorem moves_importItem : Moves total n importItem importItem := by
  intro s hs
  have hle : s.left ≤ n := Nat.le_of_lt hs.left
  unfold importItem
  refine (moves_expectIdent hs).bind fun ident t ht => ?_
  refine Meets.loosen ?_ (Nat.le_succ _)
  dsimp only
  refine (keeps_importAlias hle ht).bind fun newName u hu => ?_
  cases newName with
  | none => exact (keeps_importName _ hle hu).bind fun name v hv => .pure hv
  | some newName => exact .pure hu

theorem keeps_pathSegments (hk : n ≤ k) (hk' : n ≤ k') :
    Keeps total n (pathSegments k) (pathSegments k') := by
  refine Rounds.loop (fun segments s hs => ?_) hk hk' []
  refine (moves_expectIdent hs).bind fun ident t ht => ?_
  dsimp only
  refine ((ht.eat _).loosen (Nat.le_succ _)).bind fun dot u hu => ?_
  cases dot with
  | none => exact .pure (hu.mono (Nat.le_succ _))
  | some dot => exact .pure hu

theorem keeps_pathOf (segments : List Node) :
    Keeps total n (pathOf segments) (pathOf segments) := by
  intro b hb s hs
  unfold pathOf
  split
  · exact .fail (hs.failing rfl)
  · exact .pure hs
  · exact .pure hs

theorem keeps_importModule (segments : List Node) :
    Keeps total n (importModule segments) (importModule segments) := by
  intro b hb s hs
  unfold importModule
  split
  · exact (keeps_importName _ hb hs).bind fun name t ht => keeps_pathOf _ hb ht
  · exact keeps_pathOf _ hb hs

theorem starts_importStatement (h : Agree total n r r') :
    Starts total (n + 1) (importStatement r) (importStatement r') := by
  intro s hs heof
  have hle : s.left ≤ n := Nat.le_of_lt_succ hs.left
  unfold importStatement
  rw [meets_advance]
  refine (keeps_pathSegments h.rounds h.rounds' hle (hs.advance_of_not_eof heof)).bind
    fun segments t ht => ?_
  split
  · refine (ht.eat _).bind fun word u hu => ?_
    cases word with
    | none => exact .failFor (hu.failing rfl)
    | some word =>
      refine (moves_importItem.commaItems h.rounds h.rounds' hle hu).bind fun items v hv => ?_
      exact (keeps_pathOf _ hle hv).bind fun path w hw => .pure hw
  · refine (keeps_importAlias hle ht).bind fun newName u hu => ?_
    cases newName with
    | none => exact (keeps_importModule _ hle hu).bind fun path v hv => .pure hv
    | some newName => exact (keeps_pathOf _ hle hu).bind fun path v hv => .pure hv

end SableFront.Grammar
