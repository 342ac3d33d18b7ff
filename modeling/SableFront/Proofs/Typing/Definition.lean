import SableFront.Grammar.Import
import SableFront.Proofs.Typing.Expression

/-!
# Typing: declarations, definitions and imports

A name that is declared carries the type of its symbol. Three things change that type later. A
variable without a type gets that of its value, and so does its name, which nothing but the value
stands behind; the symbol is newer than the table the declaration starts from. A class whose members
get a scope is given the type that it has. And an operator or an import may take the place of a
symbol, which only fluid names allow.
-/

namespace SableFront

namespace SymbolTable

variable {fluid : String → Prop} {t : SymbolTable} {id : SymbolId} {s : Symbol}

/-- The symbol that is inserted is in the table. -/
theorem Labelled.symbol?_insert (h : t.Labelled) (s : Symbol) :
    (t.insert s).2.symbol? (t.insert s).1 = some { s with definedIn := t.current } := by
  unfold SymbolTable.insert
  split
  · rename_i id hfind
    obtain ⟨old, hold, -⟩ := h _ _ _ hfind
    exact Array.getElem?_setIfInBounds_self_of_lt (Array.getElem?_eq_some_iff.mp hold).1
  · exact (symbol?_bindNew t t.current s t.size).trans (if_pos rfl)

theorem WellTyped.allocateStruct (h : t.WellTyped) (id : SymbolId) :
    (t.allocateStruct id).2.WellTyped := by
  unfold SymbolTable.allocateStruct
  split
  · exact h
  · refine WellTyped.modifySymbol (h.newScope (some id)) ?_ id
    refine fun a ha => ⟨?_, ha.returns⟩
    have hmasked : (a.type.mask .template).IsPlain :=
      SymbolType.IsPlain.mask (SymbolType.isPlain_ofFlag rfl) a.type
    exact (hmasked.append SymbolType.isPlain_structType).wellFormed

theorem Labelled.allocateStruct (h : t.Labelled) (id : SymbolId) :
    (t.allocateStruct id).2.Labelled := by
  unfold SymbolTable.allocateStruct
  split
  · exact h
  · refine Labelled.modifySymbol (h.newScope (some id)) ?_ id
    exact fun _ => rfl

theorem WellTyped.updateType (h : t.WellTyped) (id : SymbolId) {type : SymbolType}
    (htype : type.WellFormed) : (t.updateType id type).WellTyped := by
  refine h.modifySymbol ?_ id
  exact fun a ha => ⟨htype, ha.returns⟩

theorem Labelled.updateType (h : t.Labelled) (id : SymbolId) (type : SymbolType) :
    (t.updateType id type).Labelled := by
  refine h.modifySymbol ?_ id
  exact fun _ => rfl

/-- The scope for the members changes the type of no symbol but those that are no class yet. -/
theorem retains_allocateStruct (hs : t.symbol? id = some s)
    (htype : fluid s.name ∨ (s.type.mask .template).append SymbolType.struct.asType = s.type) :
    t.Retains fluid (t.allocateStruct id).2 := by
  unfold SymbolTable.allocateStruct
  split
  · exact .refl t
  · intro other a ha
    have hold : (t.newScope (some id)).symbol? other = some a := ha
    rw [symbol?_modifySymbol, hold]
    split
    · rename_i hsame
      subst hsame
      cases ha.symm.trans hs
      exact ⟨_, rfl, rfl, htype⟩
    · exact ⟨a, rfl, rfl, .inr rfl⟩

end SymbolTable

namespace Grammar

open Node

/-- The type of a class says already that it is one. -/
theorem mask_templated (template : Option ScopeId) :
    ((templated template SymbolType.struct.asType).mask .template).append
      SymbolType.struct.asType = templated template SymbolType.struct.asType := by
  cases template
  · decide
  · change ((SymbolType.struct.asType.append .template).mask .template).append _ =
      SymbolType.struct.asType.append .template
    decide

theorem isPlain_templated (template : Option ScopeId) {type : SymbolType} (h : type.IsPlain) :
    (templated template type).IsPlain := by
  unfold templated
  split
  · exact h.append (SymbolType.isPlain_ofFlag rfl)
  · exact h

namespace Typing

variable {fluid : String → Prop} {r : Rules} {base : SymbolTable} {ns : List Node} {s : State}
  {type name value : Node} {i : SymbolId}

/-! ### Variables and enumerators -/

/-- The name introduces a symbol that is newer than a table. -/
def Introduces (base : SymbolTable) (name : Node) (i : SymbolId) : Prop :=
  base.size ≤ i ∧ ∃ text token symbol role,
    name = ((Node.name text token).attach i symbol role).declared

/-- A declaration without its value. -/
theorem Has.target (hs : Has fluid base ns s) (type name : Node) (hsub : [type, name] ⊆ ns)
    (token : Token) :
    (Node.branch (.identDef false) token [type, name]).Settled fluid s.symbols [] :=
  (hs.branch rfl hsub token).settled List.mem_cons_self

/-- **A variable is given its type.** The declaration is settled in the table that this makes, since
the variable is unset in its value. -/
theorem Has.updateType (hs : Has fluid base [name, value] s) (htype : type.Settled fluid base [])
    (hname : Introduces base name i) {stored : Symbol}
    (hstored : s.symbols.symbol? i = some stored) {found : SymbolType} (hfound : found.WellFormed)
    (op : Token) :
    Has fluid base [.branch .assignment op [.branch (.identDef false) name.token
      [type, name.modifyIdent fun name => { name with type := found }], value]]
      { s with symbols := s.symbols.updateType i found } := by
  obtain ⟨hnew, text, token, symbol, role, rfl⟩ := hname
  have hkept := hs.kept
  have hretains : base.Retains fluid (s.symbols.updateType i found) :=
    hkept.retains.modifySymbol hnew _
  have hupdated : (s.symbols.updateType i found).symbol? i =
      some { stored with type := found } := by
    unfold SymbolTable.updateType
    rw [SymbolTable.symbol?_modifySymbol, if_pos rfl, hstored]
    rfl
  have hbound : ((((Node.name text token).attach i symbol role).declared).modifyIdent
      fun name => { name with type := found }).Settled fluid (s.symbols.updateType i found) [] := by
    refine (settled_name text token).modifyIdent (f := fun name =>
      { name with
        symbol := some i
        type := found
        builtin := symbol.origin == .builtin
        role
        declaration := true }) fun _ _ _ => ⟨hfound, fun other hother => ?_⟩
    cases hother
    exact ⟨_, hupdated, .inr (.inr rfl)⟩
  have hvalue : value.Settled fluid s.symbols [] := hs.settled (by simp)
  have hnode := settled_declaration token op (htype.mono hretains) hbound
    (hvalue.set i found) rfl rfl rfl
  refine ⟨⟨hkept.labelled.updateType i found, hkept.typed.updateType i hfound,
    hkept.fits.congr rfl, hretains, List.forall_mem_singleton.mpr hnode, fun n hn => ?_⟩, hs.idle⟩
  change n ∈ s.lookaside at hn
  rw [hs.idle] at hn
  exact (Option.not_mem_none n hn).elim

/-- The declaration of a variable with its value. -/
theorem meets_infer (hs : Has fluid base [type, name, value] s) (htype : type.Settled fluid base [])
    (hname : Introduces base name i) (op : Token) :
    Meets s (infer i name value) (infer i name value)
      (fun name' => Has fluid base
        [.branch .assignment op [.branch (.identDef false) name.token [type, name'], value]])
      (Fails fluid base) := by
  have hsame : Has fluid base [.branch .assignment op
      [.branch (.identDef false) name.token [type, name], value]] s :=
    (hs.push (hs.target type name (by simp) name.token)).branch rfl (by simp) op
  unfold infer
  rw [meets_get]
  split
  · rename_i hauto
    obtain ⟨stored, hstored, -⟩ := (Option.any_eq_true _ _).mp hauto
    have hvalue : value.Settled fluid s.symbols [] := hs.settled (by simp)
    have hvalueType := wellFormed_valueType hs.kept.typed value hvalue.everywhere_refersWell
    dsimp only
    split
    · exact .pure hsame
    · rw [meets_set]
      refine .pure ((hs.subset (by simp)).updateType htype hname hstored ?_ op)
      split
      · exact hvalueType
      · exact hvalueType.forValue
  · exact .pure hsame

theorem meets_initializer (h : Keeps fluid r) {id : Option SymbolId}
    (hs : Has fluid base [type, name] s) (htype : type.Settled fluid base [])
    (hid : ∀ i ∈ id, Introduces base name i) :
    Meets s (initializer r type name id) (initializer r type name id)
      (fun node => Has fluid base [node]) (Fails fluid base) := by
  unfold initializer
  dsimp only
  refine (hs.eat _).bind fun op t ht => ?_
  cases op with
  | none => exact .pure (ht.branch rfl (List.Subset.refl _) _)
  | some op =>
    refine (Turns.beside (takes_expression h).yields.operand ht (List.nil_subset _)).bind
      fun value u hu => ?_
    cases id with
    | none =>
      dsimp only
      rw [meets_pure_bind]
      have hboth := hu.push (hu.target type name (by simp) name.token)
      exact turns_assignment _ op value (hboth.subset (by grind [List.singleton]))
    | some id =>
      refine (meets_infer hu htype (hid id rfl) op).bind fun name' v hv => ?_
      exact meets_assignment hv (hv.settled List.mem_cons_self)

theorem wellFormed_declaredType {t : SymbolTable} (htype : type.Settled fluid t []) (s : State) :
    (declaredType s type).1.WellFormed := htype.wellFormed_referredType

theorem turns_typedVariable (h : Keeps fluid r) (type : Node) :
    Turns fluid [type] (typedVariable r type) List.singleton := by
  refine .of_here fun s hs => ?_
  have htype : type.Settled fluid s.symbols [] := hs.settled List.mem_cons_self
  unfold typedVariable
  refine hs.expectIdent.bind fun ident t ht => ?_
  dsimp only
  rw [meets_get]
  have hsymbol := wellTyped_new (wellFormed_declaredType htype t).forValue ident.1 .declared
  generalize declaredType t type = declared at hsymbol
  obtain ⟨declaredAs, members⟩ := declared
  dsimp only
  refine (ht.declare (settled_name _ _) hsymbol _ _).bind fun found u hu => ?_
  obtain ⟨hu, hnew⟩ := hu
  have hid : ∀ i ∈ found.2, Introduces s.symbols found.1 i := fun i hi =>
    ⟨Nat.le_trans ht.kept.retains.size_le (hnew i hi).1, ident.1, ident.2, _, _, (hnew i hi).2⟩
  have hboth : Has fluid s.symbols [type, found.1] u := hu.subset (by simp)
  have hrest {v : State} (hv : Has fluid s.symbols [type, found.1] v) :=
    meets_initializer h hv htype hid
  unfold shareMembers
  split
  · rw [meets_modify]
    refine hrest (hboth.withSymbols (hboth.kept.labelled.modifySymbol ?_ _)
      (hboth.kept.typed.modifySymbol ?_ _) (SymbolTable.retains_setMembers _ _ _))
    · exact fun _ => rfl
    · exact fun a ha => ⟨ha.type, ha.returns⟩
  · rw [meets_pure_bind]
    exact hrest hboth

/-- If there is no declaration, what was read of it is put down. -/
theorem turns_declaration (h : Keeps fluid r) (storage : Option Node) :
    Turns fluid storage.toList (declaration r storage) Option.toList := by
  intro base s hs
  unfold declaration
  refine (turns_typeRef h storage hs).bind fun found t ht => ?_
  cases found with
  | none => exact .pure ht
  | some type =>
    dsimp only
    rw [meets_isAt]
    split
    · exact .map (turns_typedVariable h type ht)
    · split
      · exact .fail ht.fails
      · exact .pure (ht.subset (List.nil_subset _))

theorem wellFormed_enumeratorType {t : SymbolTable} (h : t.WellTyped) (scope : ScopeId) :
    (enumeratorType t scope).WellFormed := by
  unfold enumeratorType
  split
  · rename_i owner _
    cases howner : t.symbol? owner with
    | none => exact SymbolType.wellFormed_unknown
    | some s => exact (h owner s howner).type.forValue
  · exact SymbolType.wellFormed_unknown

theorem yields_enumerator (h : Keeps fluid r) : Yields fluid (enumerator r) Option.toList := by
  intro base s hs
  have hcomma {node : Node} {t : State} (ht : Has fluid base [node] t) :
      Meets t (eat (.punctuation .comma) >>= fun _ => pure (some node))
        (eat (.punctuation .comma) >>= fun _ => pure (some node))
        (fun found => Has fluid base found.toList) (Fails fluid base) :=
    (ht.eat _).bind fun _ _ hu => .pure hu
  unfold enumerator
  refine hs.expectIdent.bind fun ident t ht => ?_
  dsimp only
  rw [meets_get]
  have hsymbol := wellTyped_new (wellFormed_enumeratorType ht.kept.typed t.symbols.current)
    ident.1 .declared
  refine (ht.declare (settled_name _ _) hsymbol _ _).bind fun found u hu => ?_
  refine (hu.1.eat _).bind fun op v hv => ?_
  cases op with
  | some op =>
    refine (Turns.beside (takes_expression h).yields.operand hv (List.nil_subset _)).bind
      fun value w hw => ?_
    exact (turns_assignment _ op value hw).bind fun node x hx => hcomma hx
  | none =>
    dsimp only
    rw [meets_pure_bind]
    exact hcomma hv

/-! ### Functions and operators -/

theorem turns_functionDef (h : Keeps fluid r) (visibility storage : Option Node) :
    Turns fluid (visibility.toList ++ storage.toList) (functionDef r visibility storage)
      List.singleton := by
  intro base s hs
  unfold functionDef
  rw [meets_advance, meets_takeTemplateScope, meets_get]
  dsimp only
  refine (hs.advance.withNote none).expectIdent.bind fun ident t ht => ?_
  have hsymbol : (Symbol.new ident.1 (templated s.advance.templateScope .function)
      .declared).WellTyped :=
    wellTyped_new (isPlain_templated _ (SymbolType.isPlain_ofFlag rfl)).wellFormed _ _
  refine (ht.declare (settled_name _ _) hsymbol _ _).bind fun found u hu => ?_
  refine (Turns.beside (yields_signatureAndBody h found.2).inNewScope hu.1
    (List.nil_subset _)).bind fun found v hv => .pure (hv.build rfl (by grind [parts]) _ _ _)

/-- The name of an operator is fluid, so an operator may be bound. -/
theorem Has.bindOperator (hs : Has fluid base ns s) (template : Option ScopeId) {symbol : Symbol}
    (hsymbol : symbol.WellTyped) (hfluid : fluid symbol.name) :
    Meets s (bindOperator template symbol) (bindOperator template symbol)
      (fun _ => Has fluid base ns) (Fails fluid base) := by
  unfold Grammar.bindOperator
  rw [meets_get]
  cases template with
  | some scope =>
    dsimp only
    split
    · rename_i id symbols hadd
      unfold SymbolTable.addIn at hadd
      split at hadd
      · cases hadd
      · cases hadd
        rw [meets_set]
        exact .pure (hs.withSymbols (hs.kept.labelled.bindNew scope symbol)
          (hs.kept.typed.bindNew hsymbol scope) (SymbolTable.retains_bindNew _ scope symbol))
    · exact .pure hs
  | none =>
    dsimp only
    rw [meets_set]
    exact .pure (hs.withSymbols (hs.kept.labelled.insert symbol) (hs.kept.typed.insert hsymbol)
      (hs.kept.labelled.retains_insert hfluid))

theorem turns_operatorDef (h : Keeps fluid r) (visibility storage : Option Node) :
    Turns fluid (visibility.toList ++ storage.toList) (operatorDef r visibility storage)
      List.singleton := by
  intro base s hs
  have hnext := hs.advance.withNote none
  unfold operatorDef
  rw [meets_advance, meets_takeTemplateScope, meets_current]
  split
  · rename_i o _
    rw [meets_advance]
    have hsymbol : (Symbol.new (operatorName o) (templated s.advance.templateScope .function)
        .declared).WellTyped :=
      wellTyped_new (isPlain_templated _ (SymbolType.isPlain_ofFlag rfl)).wellFormed _ _
    refine (hnext.advance.bindOperator _ hsymbol (h.operators o)).bind fun id t ht => ?_
    refine (Turns.beside (yields_signatureAndBody h id).inNewScope ht (List.nil_subset _)).bind
      fun found u hu => .pure (hu.build rfl (by grind [parts]) _ _ _)
  · exact .failFor hnext.fails

/-! ### Classes and enums -/

theorem yields_bases (h : Keeps fluid r) : Yields fluid (bases r) fun types => types := by
  intro base s hs
  unfold bases
  refine (hs.eat _).bind fun colon t ht => ?_
  cases colon with
  | some colon =>
    exact (yields_requireType h .missingType).commaItems r.rounds ht
  | none => exact .pure ht

/-- The scope for the members of a class whose name is in hand. -/
theorem Has.memberScope {id : Option SymbolId} (hs : Has fluid base (name :: ns) s)
    (template : Option ScopeId) (hname : ∀ i ∈ id, ∃ ident, name.ident? = some ident ∧
      ident.symbol = some i ∧ ident.type = templated template SymbolType.struct.asType) :
    Meets s (memberScope id) (memberScope id)
      (fun enter t => Has fluid base (name :: ns) t ∧ SymbolTable.Opens enter)
      (Fails fluid base) := by
  unfold Grammar.memberScope
  cases id with
  | some i =>
    obtain ⟨ident, hident, hsymbol, htype⟩ := hname i rfl
    have hagrees := (hs.settled List.mem_cons_self).agrees
    unfold Node.ident? at hident
    split at hident
    · rename_i hform
      cases hident
      rw [hform] at hagrees
      obtain ⟨stored, hstored, hmeans⟩ := hagrees.symbol i hsymbol
      dsimp only
      rw [meets_get, meets_set]
      have hretains : s.symbols.Retains fluid (s.symbols.allocateStruct i).2 := by
        refine SymbolTable.retains_allocateStruct hstored (hmeans.imp_right fun hmeans => ?_)
        rw [hmeans.resolve_left List.not_mem_nil, htype]
        exact mask_templated template
      exact .pure ⟨hs.withSymbols (hs.kept.labelled.allocateStruct i)
        (hs.kept.typed.allocateStruct i) hretains, SymbolTable.opens_enter _⟩
    · cases hident
  | none => exact .pure ⟨hs, SymbolTable.opens_push⟩

theorem turns_classDef (h : Keeps fluid r) (visibility : Option Node) :
    Turns fluid visibility.toList (classDef r visibility) List.singleton := by
  intro base s hs
  unfold classDef
  rw [meets_advance]
  dsimp only
  rw [meets_takeTemplateScope, meets_get]
  dsimp only
  refine (hs.advance.withNote none).expectIdent.bind fun ident t ht => ?_
  have hsymbol : (Symbol.new ident.1 (templated s.advance.templateScope SymbolType.struct.asType)
      .declared).WellTyped :=
    wellTyped_new (isPlain_templated _ SymbolType.isPlain_structType).wellFormed _ _
  refine (ht.declare (settled_name _ _) hsymbol _ _).bind fun found u hu => ?_
  obtain ⟨hu, hnew⟩ := hu
  refine (Turns.beside (yields_bases h) hu (List.nil_subset _)).bind fun bases v hv => ?_
  have hclass : Has fluid base (found.1 :: (visibility.toList ++ bases)) v := hv
  rw [meets_isAt]
  split
  · refine (hclass.memberScope s.advance.templateScope fun i hi => ?_).bind fun enter w hw => ?_
    · rw [(hnew i hi).2]
      exact ⟨_, rfl, rfl, rfl⟩
    exact (Turns.beside (yields_block h hw.2 _) hw.1 (List.nil_subset _)).bind fun body x hx =>
      .pure (hx.build rfl (by grind [List.singleton]) _ _ _)
  · exact .fail hv.fails

/-! ### Templates -/

theorem yields_templateParam : Yields fluid templateParam List.singleton := by
  intro base s hs
  unfold templateParam
  refine hs.expectIdent.bind fun ident t ht => ?_
  have hdeclare {name : Node} {type : SymbolType} {u : State} (hu : Has fluid base [] u)
      (hname : name.Settled fluid u.symbols []) (htype : type.IsPlain) :
      Meets u
        (declare name (.new ident.1 type .parameter) u.symbols.current .parameter >>= fun found =>
          pure found.1)
        (declare name (.new ident.1 type .parameter) u.symbols.current .parameter >>= fun found =>
          pure found.1)
        (fun node => Has fluid base [node]) (Fails fluid base) :=
    (hu.declare hname (wellTyped_new htype.wellFormed _ _) _ _).bind fun found v hv => .pure hv.1
  dsimp only
  refine (ht.eat _).bind fun dots u hu => ?_
  cases dots with
  | some dots =>
    dsimp only
    rw [meets_pure_bind]
    dsimp only
    rw [meets_get]
    exact hdeclare hu ((settled_name _ _).mark dots)
      (SymbolType.isPlain_anyType.append (SymbolType.isPlain_ofFlag rfl))
  | none =>
    dsimp only
    rw [meets_pure_bind]
    dsimp only
    rw [meets_get]
    exact hdeclare hu (settled_name _ _) SymbolType.isPlain_anyType

theorem yields_templateRest (h : Keeps fluid r) (outer : ScopeId) :
    Yields fluid (templateRest r outer) fun found => found.1 ++ [found.2] := by
  intro base s hs
  unfold templateRest
  refine (yields_templateParam.commaNodes yields_angle r.rounds _ hs).bind fun params t ht => ?_
  dsimp only
  rw [meets_current]
  split
  · rw [meets_modify]
    exact (Turns.beside (h.statement.require _) (ht.withNote (some outer))
      (List.nil_subset _)).bind fun item u hu => .pure hu
  · exact .failFor ht.fails

theorem yields_template (h : Keeps fluid r) : Yields fluid (template r) List.singleton := by
  intro base s hs
  unfold template
  rw [meets_advance]
  refine (hs.advance.eat _).bind fun angle t ht => ?_
  cases angle with
  | none => exact .failFor ht.fails
  | some angle =>
    dsimp only
    rw [meets_get]
    have hrest : Meets t
        (ensuring (fun s => { s with templateScope := none })
          (inNewScope (templateRest r t.symbols.current)))
        (ensuring (fun s => { s with templateScope := none })
          (inNewScope (templateRest r t.symbols.current)))
        (fun found => Has fluid base (found.1 ++ [found.2])) (Fails fluid base) :=
      .ensuring (((yields_templateRest h _).inNewScope ht).mono
        (fun _ _ hu => hu.withNote none) fun _ _ hu => Kept.congr hu rfl rfl rfl)
    exact hrest.bind fun found u hu => .pure (hu.build rfl (List.Subset.refl _) _ _ _)

/-! ### Imports -/

/-- A name that is imported may take the place of any other. -/
theorem Has.importName (hs : Has fluid base ns s) (hfluid : ∀ text, fluid text)
    (hname : name.Settled fluid s.symbols []) :
    Meets s (importName name) (importName name) (fun found => Has fluid base (found :: ns))
      (Fails fluid base) := by
  unfold Grammar.importName
  rw [meets_get]
  dsimp only
  rw [meets_set]
  generalize hsymbol :
    Symbol.new ((name.ident?.map (·.name)).getD "") .unknown .imported = symbol
  have hunknown : symbol.type = .unknown := by rw [← hsymbol]; rfl
  have hwell : symbol.WellTyped := by
    rw [← hsymbol]
    exact wellTyped_new SymbolType.wellFormed_unknown _ _
  have hretains := hs.kept.labelled.retains_insert (hfluid symbol.name)
  have hinserted := hs.withSymbols (hs.kept.labelled.insert symbol) (hs.kept.typed.insert hwell)
    hretains
  have hbound := (hname.mono hretains).attach (hs.kept.labelled.symbol?_insert symbol) rfl
    hwell.type .path
  exact .pure (hinserted.push hbound.declared)

theorem yields_importAlias (hfluid : ∀ text, fluid text) :
    Yields fluid importAlias fun found => (found.map (·.2)).toList := by
  intro base s hs
  unfold importAlias
  refine (hs.eat _).bind fun keyword t ht => ?_
  cases keyword with
  | some keyword =>
    refine ht.expectIdent.bind fun ident u hu => ?_
    exact (hu.importName hfluid (settled_name _ _)).bind fun found v hv => .pure hv
  | none => exact .pure ht

theorem yields_importItem (hfluid : ∀ text, fluid text) :
    Yields fluid importItem List.singleton := by
  intro base s hs
  unfold importItem
  refine hs.expectIdent.bind fun ident t ht => (yields_importAlias hfluid ht).bind
    fun found u hu => ?_
  have hname : (Node.name ident.1 ident.2).Settled fluid u.symbols [] := settled_name _ _
  cases found with
  | some found => exact .pure ((hu.push hname).build rfl (List.Subset.refl _) _ _ _)
  | none =>
    exact (hu.importName hfluid hname).bind fun found v hv =>
      .pure (hv.branch rfl (List.Subset.refl _) _)

theorem yields_pathSegments (rounds : Nat) :
    Yields fluid (pathSegments rounds) fun segments => segments := by
  refine Turns.loop (fun segments => segments) (fun segments base s hs => ?_) rounds []
  refine hs.expectIdent.bind fun ident t ht => (ht.eat _).bind fun dot u hu => ?_
  have hname : (Node.name ident.1 ident.2).Settled fluid u.symbols [] := settled_name _ _
  have hmore : Has fluid base (segments ++ [(Node.name ident.1 ident.2).withRole .path]) u :=
    (hu.push (hname.withRole .path)).subset (by simp)
  cases dot with
  | some dot => exact .pure hmore
  | none => exact .pure hmore

theorem turns_pathOf (segments : List Node) :
    Turns fluid segments (pathOf segments) List.singleton := by
  intro base s hs
  unfold pathOf
  split
  · exact .fail hs.fails
  · exact .pure hs
  · exact .pure (hs.branch rfl (List.Subset.refl _) _)

theorem turns_importModule (hfluid : ∀ text, fluid text) (segments : List Node) :
    Turns fluid segments (importModule segments) List.singleton := by
  intro base s hs
  unfold importModule
  split
  · rename_i last hlast
    refine (hs.importName hfluid (hs.settled (List.mem_of_getLast? hlast))).bind
      fun found t ht => turns_pathOf _ (ht.subset ?_)
    refine List.append_subset.mpr ⟨fun n hn => ?_, by simp⟩
    exact List.mem_cons_of_mem _ (List.dropLast_subset _ hn)
  · exact turns_pathOf _ hs

theorem yields_importStatement (r : Rules) (hfluid : ∀ text, fluid text) :
    Yields fluid (importStatement r) List.singleton := by
  intro base s hs
  unfold importStatement
  rw [meets_advance]
  refine (yields_pathSegments r.rounds hs.advance).bind fun segments t ht => ?_
  split
  · refine (ht.eat _).bind fun word u hu => ?_
    cases word with
    | some word =>
      refine (Turns.beside ((yields_importItem hfluid).commaItems r.rounds) hu
        (List.nil_subset _)).bind fun items v hv => ?_
      refine (Turns.beside (turns_pathOf segments) hv (List.subset_append_left _ _)).bind
        fun path w hw => .pure (hw.build rfl (by grind [List.singleton]) _ _ _)
    | none => exact .failFor hu.fails
  · refine (Turns.beside (yields_importAlias hfluid) ht (List.nil_subset _)).bind
      fun found u hu => ?_
    cases found with
    | some found =>
      refine (Turns.beside (turns_pathOf segments) hu (List.subset_append_left _ _)).bind
        fun path v hv => .pure (hv.build rfl (by grind [List.singleton]) _ _ _)
    | none =>
      exact (turns_importModule hfluid segments (hu.subset (by simp))).bind fun path v hv =>
        .pure (hv.branch rfl (List.Subset.refl _) _)

end Typing

end Grammar

end SableFront
