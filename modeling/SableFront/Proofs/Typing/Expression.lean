import SableFront.Proofs.Typing.Contract

/-!
# Typing: expressions

Type references, the parts of callables and all levels of expressions hand on settled trees. A type
reference stands for the type of its name with the marks behind it, none of which is numeric. The
only thing that is said about an old symbol here is what a function returns, and that is no type of
a name.
-/

namespace SableFront

open Node

namespace Node

variable {fluid : String → Prop} {t : SymbolTable} {unset : List SymbolId} {n : Node}

/-- In a settled tree all types that type references stand for are well formed. -/
theorem Settled.everywhere_refersWell (h : n.Settled fluid t unset) : n.Everywhere RefersWell := by
  intro m hm
  rw [← map_node_occurrences unset] at hm
  obtain ⟨o, ho, rfl⟩ := List.mem_map.mp hm
  have hagrees := h o ho
  intro type htype
  unfold referredType? at htype
  cases hform : o.node.form
  case typeRef storage generics stated =>
    rw [hform] at hagrees htype
    cases htype
    exact hagrees
  all_goals
    rw [hform] at htype
    cases htype

theorem Settled.refersWell (h : n.Settled fluid t unset) : n.RefersWell :=
  h.everywhere_refersWell.self

theorem Settled.wellFormed_referredType (h : n.Settled fluid t unset) :
    (n.referredType?.getD .unknown).WellFormed := by
  cases htype : n.referredType? with
  | none => exact SymbolType.wellFormed_unknown
  | some type => exact h.refersWell type htype

end Node

namespace Grammar

/-! ### Types of names -/

theorem wellFormed_typeOfName {fluid : String → Prop} {t : SymbolTable} {unset : List SymbolId}
    {n : Node} (h : n.Settled fluid t unset) : (typeOfName n).WellFormed := by
  have hagrees := h.agrees
  unfold typeOfName Node.ident?
  cases hform : n.form
  case ident i =>
    rw [hform] at hagrees
    exact hagrees.wellFormed
  all_goals exact SymbolType.wellFormed_unknown

theorem isPlain_modifier (k : Kind) : ((modifier? k).getD .unknown).IsPlain := by
  unfold modifier?
  split
  · exact SymbolType.isPlain_ofFlag rfl
  · exact SymbolType.isPlain_ofFlag rfl
  · exact SymbolType.isPlain_ofFlag rfl
  · exact SymbolType.isPlain_unknown

theorem wellFormed_modified {type : SymbolType} (h : type.WellFormed) (marks : List Token) :
    (modified type marks).WellFormed :=
  List.foldlRecOn marks _ h fun _ hmodified mark _ => hmodified.append (isPlain_modifier mark.kind)

namespace Typing

variable {fluid : String → Prop} {r : Rules} {base : SymbolTable} {ns args : List Node} {s : State}
  {node : Node}

/-- The circles hand on settled trees, and the names of operators are fluid. -/
structure Keeps (fluid : String → Prop) (r : Rules) : Prop where
  operators : ∀ o : Operator, fluid (operatorName o)
  expression : Yields fluid r.expression Option.toList
  shift : Yields fluid r.shift Option.toList
  steps : Yields fluid r.steps Option.toList
  deref : Yields fluid r.deref Option.toList
  invert : Yields fluid r.invert Option.toList
  typeRef : Yields fluid r.typeRef Option.toList
  statement : Yields fluid r.statement Option.toList
  items : ∀ (context : Context) ⦃base s⦄, Has fluid base [] s →
    Has fluid base (r.items context s).1 (r.items context s).2

/-! ### Type references -/

theorem yields_genericArgument (h : Keeps fluid r) :
    Yields fluid (genericArgument r) List.singleton := by
  intro base s hs
  unfold genericArgument
  rw [meets_get]
  split
  · exact h.typeRef.require _ hs
  · exact h.shift.require _ hs

theorem yields_genericArguments (h : Keeps fluid r) :
    Yields fluid (genericArguments r) fun found => found.elim [] Prod.fst := by
  have hlist := (yields_genericArgument h).commaNodes yields_angle r.rounds fun _ => .missingComma
  have hopened : Yields fluid (do
      let _ ← advance
      commaList r.rounds angle (fun _ => .missingComma) (genericArgument r)) Prod.fst := by
    intro base s hs
    rw [meets_advance]
    exact hlist hs.advance
  exact hopened.attempt

theorem yields_modifiers (rounds : Nat) : Yields fluid (modifiers rounds) fun _ => [] := by
  refine Turns.loop (fun _ => []) (fun marks base s hs => ?_) rounds []
  rw [meets_current]
  split
  · rw [meets_advance]
    exact .pure hs.advance
  · exact .pure hs

/-- The marks behind a type complete the type reference. -/
theorem Has.typeRef {name : Node} {storage : Option Node} {args : Option (List Node × Token)}
    (h : Has fluid base (name :: storage.toList ++ args.elim [] Prod.fst) s) (rounds : Nat) :
    let found (marks : List Token) : Option Node :=
      some <| .build (.typeRef storage.isSome ((args.map (·.1)).getD []).length
          (modified (typeOfName name) marks)) name.token
        (storage.toList ++ name :: (args.map (·.1)).getD []) marks
        ((storage.toList ++ [name]).map span ++ (args.map (·.2.span)).toList)
    Meets s (modifiers rounds >>= fun marks => pure (found marks))
      (modifiers rounds >>= fun marks => pure (found marks))
      (fun found => Has fluid base found.toList) (Fails fluid base) := by
  intro found
  refine (Turns.beside (yields_modifiers rounds) h (List.nil_subset _)).bind fun marks t ht =>
    .pure ?_
  have hname : name.Settled fluid t.symbols [] := ht.settled (by simp)
  have hform : (Form.typeRef storage.isSome ((args.map (·.1)).getD []).length
      (modified (typeOfName name) marks)).Agrees fluid t.symbols [] :=
    wellFormed_modified (wellFormed_typeOfName hname) marks
  refine ht.node hform ?_ _ _ _
  cases args <;> simp

theorem turns_typeRef (h : Keeps fluid r) (storage : Option Node) :
    Turns fluid storage.toList (typeRef r storage) Option.toList := by
  intro base s hs
  unfold Grammar.typeRef
  rw [meets_get]
  split
  · rw [meets_advance]
    have hnamed := hs.advance.bindName (State.symbols_advance s).symm s.current
    dsimp only
    rw [meets_isAt]
    split
    · exact (Turns.beside (yields_genericArguments h) hnamed (List.nil_subset _)).bind
        fun args t ht => ht.typeRef _
    · rw [meets_pure_bind]
      have hbare : Has fluid base (s.bindName s.current :: storage.toList ++
          (none : Option (List Node × Token)).elim [] Prod.fst) s.advance :=
        (List.append_nil _).symm ▸ hnamed
      exact hbare.typeRef _
  · exact .pure (hs.subset (List.nil_subset _))

/-! ### Blocks, parameters and signatures -/

theorem yields_block (h : Keeps fluid r) {enter : SymbolTable → SymbolTable}
    (henter : SymbolTable.Opens enter) (context : Context) :
    Yields fluid (block r enter context) List.singleton := by
  intro base s hs
  have hitems : Yields fluid (r.items context : Production (List Node)) fun ns => ns :=
    fun _ _ ht => .result _ _ rfl rfl (h.items context ht)
  unfold block
  rw [meets_advance]
  refine (hitems.inScope henter hs.advance).bind fun statements t ht => ?_
  refine (ht.eat _).bind fun close u hu => ?_
  have hblock : Has fluid base [.build (.block close.isSome) s.current statements []
      (statements.map span ++ (close.map Token.span).toList)] u :=
    hu.build rfl (List.Subset.refl _) _ _ _
  split
  · rw [meets_get, meets_record]
    exact .pure (hblock.record _)
  · exact .pure hblock

theorem yields_body (h : Keeps fluid r) : Yields fluid (body r) List.singleton := by
  intro base s hs
  unfold body
  rw [meets_isAt]
  split
  · exact yields_block h SymbolTable.opens_push .block hs
  · exact .fail hs.fails

theorem yields_defaultValue (h : Keeps fluid r) :
    Yields fluid (defaultValue r) Option.toList := by
  intro base s hs
  unfold defaultValue
  refine (hs.eat _).bind fun op t ht => ?_
  cases op with
  | some op => exact (Yields.operand h.expression ht).bind fun value u hu => .pure hu
  | none => exact .pure ht

theorem wellTyped_new {type : SymbolType} (h : type.WellFormed) (text : String) (origin : Origin) :
    (Symbol.new text type origin).WellTyped := ⟨h, fun _ hr => (Option.not_mem_none _ hr).elim⟩

theorem yields_param (h : Keeps fluid r) : Yields fluid (param r) List.singleton := by
  intro base s hs
  unfold param
  refine (turns_typeRef h none hs).bind fun type t ht => ?_
  cases type with
  | none =>
    dsimp only
    rw [meets_current]
    exact .failFor ht.fails
  | some type =>
    refine ht.expectIdent.bind fun ident u hu => ?_
    dsimp only
    rw [meets_get]
    have htype : type.Settled fluid u.symbols [] := hu.settled (by simp)
    have hsymbol := wellTyped_new htype.wellFormed_referredType.forValue ident.1 .parameter
    refine (hu.declare (settled_name _ _) hsymbol _ _).bind fun found v hv => ?_
    refine (Turns.beside (yields_defaultValue h) hv.1 (List.nil_subset _)).bind
      fun default w hw => .pure ?_
    exact hw.branch rfl (by simp) _

theorem yields_params (h : Keeps fluid r) : Yields fluid (params r) List.singleton := by
  intro base s hs
  unfold params
  refine (hs.expect _ _).bind fun paren t ht => ?_
  exact ((yields_param h).commaNodes (yields_eat _) r.rounds _ ht).bind fun found u hu =>
    .pure (hu.build rfl (List.Subset.refl _) _ _ _)

theorem yields_requireType (h : Keeps fluid r) (missing : ErrorKind) :
    Yields fluid (require (typeRef r none) missing) List.singleton :=
  (turns_typeRef h none).require missing

/-- The nodes of a signature. -/
def parts (sig : Signature) : List Node := sig.params :: sig.returns.toList

theorem yields_signature (h : Keeps fluid r) : Yields fluid (signature r) parts := by
  intro base s hs
  unfold signature
  refine (yields_params h hs).bind fun params t ht => ?_
  refine (ht.eat _).bind fun arrow u hu => ?_
  cases arrow with
  | some arrow =>
    refine (Turns.beside (yields_requireType h .missingReturnType) hu (List.nil_subset _)).bind
      fun type v hv => .pure ?_
    have hreturns : (branch .returnType arrow [type]).Settled fluid v.symbols [] :=
      settled_of_children trivial
        (List.forall_mem_singleton.mpr (hv.settled (by simp [List.singleton])))
    exact (hv.push hreturns).subset (by simp [parts, List.singleton])
  | none => exact .pure hu

theorem wellFormed_returnType {sig : Signature} {t : SymbolTable}
    (h : ∀ n ∈ sig.returns, n.Settled fluid t []) : sig.returnType.WellFormed := by
  unfold Signature.returnType
  cases hreturns : sig.returns with
  | none => exact (SymbolType.isPlain_ofFlag rfl).wellFormed
  | some n =>
    rw [Option.bind_some]
    cases hhead : n.children.head? with
    | none => exact (SymbolType.isPlain_ofFlag rfl).wellFormed
    | some type =>
      rw [Option.bind_some]
      have hbelow := (everywhere_iff.mp (h n hreturns).everywhere_refersWell).2
      have hrefers := (hbelow type (List.mem_of_mem_head? hhead)).self
      cases htype : type.referredType? with
      | none => exact (SymbolType.isPlain_ofFlag rfl).wellFormed
      | some found => exact (hrefers found htype).forValue

theorem yields_signatureAndBody (h : Keeps fluid r) (id : Option SymbolId) :
    Yields fluid (signatureAndBody r id) fun found => parts found.1 ++ [found.2] := by
  intro base s hs
  unfold signatureAndBody
  refine (yields_signature h hs).bind fun sig t ht => ?_
  have hbody {u : State} (hu : Has fluid base (parts sig) u) :
      Meets u (body r >>= fun body => pure (sig, body)) (body r >>= fun body => pure (sig, body))
        (fun found => Has fluid base (parts found.1 ++ [found.2])) (Fails fluid base) :=
    (Turns.beside (yields_body h) hu (List.nil_subset _)).bind fun body v hv => .pure hv
  cases id with
  | some id =>
    dsimp only
    rw [meets_modify]
    have hreturns : sig.returnType.WellFormed :=
      wellFormed_returnType fun n hn =>
        ht.settled (List.mem_cons_of_mem _ (Option.mem_toList.mpr hn))
    refine hbody (ht.withSymbols (ht.kept.labelled.modifySymbol ?_ id)
      (ht.kept.typed.modifySymbol ?_ id) (SymbolTable.retains_setReturns _ _ _))
    · exact fun _ => rfl
    · exact fun a ha => ⟨ha.type, fun returned hr => Option.some.inj hr ▸ hreturns⟩
  | none => exact hbody ht

theorem yields_lambda (h : Keeps fluid r) : Yields fluid (lambda r) List.singleton := by
  intro base s hs
  unfold lambda
  rw [meets_advance]
  exact ((yields_signatureAndBody h none).inNewScope hs.advance).bind fun found t ht =>
    .pure (ht.build rfl (List.Subset.refl _) _ _ _)

/-! ### Calls, subscripts and members -/

theorem yields_expressions (h : Keeps fluid r) (close : Punctuation) (unclosed : ErrorKind) :
    Yields fluid (expressions r close unclosed) Prod.fst := by
  unfold expressions
  dsimp only
  refine Yields.commaNodes (fun base s hs => ?_) (yields_eat _) _ _
  refine (h.expression hs).bind fun item t ht => ?_
  cases item with
  | some item => exact .pure ht
  | none =>
    dsimp only
    rw [meets_get]
    exact .fail ht.fails

theorem turns_call (h : Keeps fluid r) (callee : Node) (generics : List Node) :
    Turns fluid (callee :: generics) (call r callee generics) List.singleton := by
  intro base s hs
  unfold call
  rw [meets_advance]
  exact (Turns.beside (yields_expressions h .rParen _) hs.advance (List.nil_subset _)).bind
    fun found t ht => .pure (ht.build rfl (List.Subset.refl _) _ _ _)

theorem turns_subscript (h : Keeps fluid r) (target : Node) :
    Turns fluid [target] (subscript r target) List.singleton := by
  intro base s hs
  unfold subscript
  rw [meets_advance]
  refine (Turns.beside h.expression hs.advance (List.nil_subset _)).bind fun start t ht => ?_
  refine (ht.eat _).bind fun colon u hu => ?_
  -- both forms end in the closing bracket
  have hclose {form : Form} {children : List Node} {v : State}
      (hv : Has fluid base children v) (hform : form.isBare) :
      Meets v (expect (.punctuation .rBracket) .missingRightBracket >>= fun close =>
          pure (.build form s.current children [] (children.map span ++ [close.span])))
        (expect (.punctuation .rBracket) .missingRightBracket >>= fun close =>
          pure (.build form s.current children [] (children.map span ++ [close.span])))
        (fun node => Has fluid base [node]) (Fails fluid base) :=
    (hv.expect _ _).bind fun close w hw =>
      .pure (hw.build hform (List.Subset.refl _) _ _ _)
  dsimp only
  split
  · refine (Turns.beside h.expression hu (List.nil_subset _)).bind fun stop v hv => ?_
    rw [meets_pure_bind]
    exact hclose hv rfl
  · rw [meets_pure_bind]
    exact hclose hu rfl
  · exact (Meets.fail hu.fails).bind fun _ _ hv => hv

/-- A dotted name takes in one more part. -/
theorem settled_dotted {t : SymbolTable} {target part : Node} (htarget : target.Settled fluid t [])
    (hpart : part.Settled fluid t []) : (dotted target part).Settled fluid t [] := by
  unfold dotted
  split
  · rename_i hform
    have hchildren : ∀ c ∈ target.children, c.Settled fluid t [] :=
      htarget.children (by rw [hform]; exact Form.noConfusion)
    have hagrees : target.form.Agrees fluid t [] := htarget.agrees
    exact settled_of_children hagrees
      (List.forall_mem_append.mpr ⟨hchildren, List.forall_mem_singleton.mpr hpart⟩)
  · exact settled_of_children trivial
      (List.forall_mem_cons.mpr ⟨htarget, List.forall_mem_singleton.mpr hpart⟩)

theorem turns_member (target : Node) : Turns fluid [target] (member target) List.singleton := by
  intro base s hs
  unfold member
  rw [meets_advance]
  refine hs.advance.expectIdent.bind fun ident t ht => ?_
  have htarget : target.Settled fluid t.symbols [] := ht.settled List.mem_cons_self
  have hname : (Node.name ident.1 ident.2).Settled fluid t.symbols [] := settled_name _ _
  dsimp only
  rw [meets_get]
  split
  · split
    · rename_i id _ _ symbol hsymbol
      have hbound := hname.attach hsymbol rfl (ht.kept.typed id symbol hsymbol).type .property
      exact .pure (ht.only (settled_dotted htarget hbound))
    · exact .pure (ht.only (settled_dotted htarget (hname.withRole _)))
  · exact .pure (ht.only (settled_dotted htarget (hname.withRole _)))

/-! ### Values -/

theorem yields_dictEntry (h : Keeps fluid r) : Yields fluid (dictEntry r) fun entry => entry := by
  intro base s hs
  unfold dictEntry
  refine (h.expression.require _ hs).bind fun key t ht => ?_
  refine (ht.expect _ _).bind fun colon u hu => ?_
  exact (Turns.beside (h.expression.require _) hu (List.nil_subset _)).bind fun value v hv =>
    .pure hv

theorem yields_dict (h : Keeps fluid r) : Yields fluid (dict r) List.singleton := by
  intro base s hs
  unfold dict
  rw [meets_advance]
  refine ((yields_dictEntry h).commaList (yields_eat _) _ _ hs.advance).bind fun found t ht =>
    .pure (ht.build rfl ?_ _ _ _)
  rw [List.flatten_eq_flatMap]
  exact List.Subset.refl _

theorem yields_list (h : Keeps fluid r) : Yields fluid (list r) List.singleton := by
  intro base s hs
  unfold list
  rw [meets_advance]
  exact (yields_expressions h .rBracket _ hs.advance).bind fun found t ht =>
    .pure (ht.build rfl (List.Subset.refl _) _ _ _)

theorem yields_parenthesized (h : Keeps fluid r) :
    Yields fluid (parenthesized r) List.singleton := by
  intro base s hs
  unfold parenthesized
  rw [meets_advance]
  refine (h.expression.require _ hs.advance).bind fun inner t ht => ?_
  exact (ht.expect _ _).bind fun close u hu =>
    .pure (hu.only ((hu.settled List.mem_cons_self).cover _))

theorem yields_newObject (h : Keeps fluid r) : Yields fluid (newObject r) List.singleton := by
  intro base s hs
  unfold newObject
  rw [meets_advance]
  refine (yields_requireType h _ hs.advance).bind fun type t ht => ?_
  refine (ht.eat _).bind fun paren u hu => ?_
  cases paren with
  | some paren =>
    exact (Turns.beside (yields_expressions h .rParen _) hu (List.nil_subset _)).bind
      fun found v hv => .pure (hv.build rfl (List.Subset.refl _) _ _ _)
  | none => exact .pure (hu.branch rfl (List.Subset.refl _) _)

theorem yields_invalidRun (rounds : Nat) : Yields fluid (invalidRun rounds) List.singleton := by
  intro base s hs
  have hrun : Turns fluid [] (loop (fun spans => do
      let s ← get
      if s.isAt .invalid && !s.newlineBefore then return .inl (spans ++ [(← advance).span])
      else return .inr spans) rounds []) fun _ => [] := by
    refine Turns.loop (fun _ => []) (fun spans base s hs => ?_) rounds []
    rw [meets_get]
    split
    · rw [meets_advance]
      exact .pure hs.advance
    · exact .pure hs
  unfold invalidRun
  rw [meets_advance, meets_record]
  exact (hrun (hs.advance.record _)).bind fun spans t ht =>
    .pure (ht.build rfl (List.nil_subset _) _ _ _)

theorem yields_nameValue (h : Keeps fluid r) : Yields fluid (nameValue r) List.singleton := by
  intro base s hs
  have hnamed := hs.advance.bindName (State.symbols_advance s).symm s.current
  unfold nameValue
  rw [meets_get, meets_advance]
  dsimp only
  rw [meets_isAt]
  split
  · refine (Turns.beside (yields_genericArguments h) hnamed (List.nil_subset _)).bind
      fun found t ht => ?_
    cases found with
    | none => exact .pure ht
    | some found =>
      dsimp only
      rw [meets_isAt]
      split
      · exact turns_call h _ _ ht
      · have hname : (s.bindName s.current).Settled fluid t.symbols [] :=
          ht.settled List.mem_cons_self
        have hform : (Form.typeRef false found.1.length (typeOfName (s.bindName s.current))).Agrees
            fluid t.symbols [] := wellFormed_typeOfName hname
        exact .pure (ht.node hform (List.Subset.refl _) _ _ _)
  · exact .pure hnamed

theorem yields_valueAt (h : Keeps fluid r) (kind : Kind) :
    Yields fluid (valueAt r kind) Option.toList := by
  intro base s hs
  unfold valueAt
  split
  · exact .map (yields_nameValue h hs)
  · exact .map (yields_newObject h hs)
  · exact .map (yields_lambda h hs)
  · split
    · exact .map (yields_nameValue h hs)
    · exact .pure hs
  · exact .map (yields_parenthesized h hs)
  · exact .map (yields_list h hs)
  · exact .map (yields_dict h hs)
  · exact .map (yields_invalidRun _ hs)
  · split
    · exact .map (.result _ _ rfl rfl (hs.advance.only (settled_ofLiteral _)))
    · exact .pure hs

/-- The name that waits is the value. -/
theorem takes_value (h : Keeps fluid r) : Takes fluid (value r) Option.toList := by
  intro base s hs
  unfold value
  rw [meets_get]
  cases hname : s.lookaside with
  | some name =>
    dsimp only
    rw [meets_set]
    exact .pure (hs.unstash hname)
  | none => exact yields_valueAt h _ (hs.has hname)

theorem turns_postfixRound (h : Keeps fluid r) (node : Node) :
    Turns fluid [node] (postfixRound r node) (Sum.elim List.singleton List.singleton) := by
  intro base s hs
  unfold postfixRound
  rw [meets_current]
  split
  · exact .map (turns_call h node [] hs)
  · exact .map (turns_subscript h node hs)
  · exact .map (turns_member node hs)
  · exact .pure hs

theorem takes_postfixed (h : Keeps fluid r) : Takes fluid (postfixed r) Option.toList := by
  intro base s hs
  unfold postfixed
  refine (takes_value h hs).bind fun found t ht => ?_
  cases found with
  | none => exact .pure ht
  | some node =>
    exact .map (Turns.loop List.singleton (turns_postfixRound h) r.rounds node ht)

/-! ### Operators with one operand -/

/-- An operator before its operand, or what binds tighter. -/
theorem Takes.orAfter {inner next : Production (Option Node)} {form : Form}
    {accepts : Kind → Bool} (hinner : Yields fluid inner Option.toList)
    (hnext : Takes fluid next Option.toList) (hform : form.isBare) :
    Takes fluid (do
      match ← Grammar.operatorBefore accepts with
      | some op => return some (.branch form op [← Grammar.operand inner])
      | none => next) Option.toList := by
  intro base s hs
  refine (hs.operatorBefore accepts).bind fun found t ht => ?_
  cases found with
  | some op =>
    exact (Yields.operand hinner ht).bind fun node u hu =>
      .pure (hu.branch hform (List.Subset.refl _) _)
  | none => exact hnext ht

theorem takes_invert (h : Keeps fluid r) : Takes fluid (invert r) Option.toList :=
  Takes.orAfter h.invert (takes_postfixed h) rfl

theorem takes_deref (h : Keeps fluid r) : Takes fluid (deref r) Option.toList :=
  Takes.orAfter h.deref (takes_invert h) rfl

theorem turns_stepRound (node : Node) :
    Turns fluid [node] (stepRound node) (Sum.elim List.singleton List.singleton) := by
  intro base s hs
  unfold stepRound
  rw [meets_get]
  split
  · rw [meets_advance]
    exact .pure (hs.advance.branch rfl (List.Subset.refl _) _)
  · exact .pure hs

theorem takes_steps (h : Keeps fluid r) : Takes fluid (steps r) Option.toList := by
  refine Takes.orAfter h.steps (fun base s hs => ?_) rfl
  refine (takes_deref h hs).bind fun found t ht => ?_
  cases found with
  | some node => exact .map (Turns.loop List.singleton turns_stepRound r.rounds node ht)
  | none => exact .pure ht

/-! ### Operators with two operands -/

/-- The operator makes a settled node of settled operands. -/
theorem Takes.level {next : Production (Option Node)}
    {combine : Node → Token → Node → Production Node} (hnext : Takes fluid next Option.toList)
    (hcombine : ∀ left op right, Turns fluid [left, right] (combine left op right) List.singleton)
    (rounds : Nat) (cls : Operator.Class) :
    Takes fluid (level rounds cls next combine) Option.toList := by
  have hround : ∀ left, Turns fluid [left] (operatorRound cls next combine left)
      (Sum.elim List.singleton List.singleton) := by
    intro left base s hs
    unfold operatorRound
    rw [meets_current]
    split
    · rw [meets_advance]
      refine (Turns.beside hnext.yields.operand hs.advance (List.nil_subset _)).bind
        fun right t ht => ?_
      exact .map (hcombine left _ right ht)
    · exact .pure hs
  intro base s hs
  unfold Grammar.level
  refine (hnext hs).bind fun found t ht => ?_
  cases found with
  | none => exact .pure ht
  | some left => exact .map (Turns.loop List.singleton hround rounds left ht)

theorem turns_binary (left : Node) (op : Token) (right : Node) :
    Turns fluid [left, right] (binary left op right) List.singleton :=
  fun _ _ hs => .pure (hs.branch rfl (List.Subset.refl _) _)

theorem takes_shift (h : Keeps fluid r) : Takes fluid (shift r) Option.toList :=
  (((takes_steps h).level turns_binary _ .multiplicative).level turns_binary _ .additive).level
    turns_binary _ .shift

theorem takes_bitwise (h : Keeps fluid r) : Takes fluid (bitwise r) Option.toList :=
  (takes_shift h).level turns_binary _ .bitwise

theorem turns_comparison (h : Keeps fluid r) (left : Node) (op : Token) (right : Node) :
    Turns fluid [left, right] (comparison r left op right) List.singleton := by
  intro base s hs
  unfold comparison
  rw [meets_current]
  split
  · rw [meets_advance]
    exact (Turns.beside (takes_bitwise h).yields.operand hs.advance (List.nil_subset _)).bind
      fun upper t ht => .pure (ht.build rfl (List.Subset.refl _) _ _ _)
  · exact turns_binary left op right hs

theorem takes_logical (h : Keeps fluid r) : Takes fluid (logical r) Option.toList :=
  ((takes_bitwise h).level (turns_comparison h) _ .relational).level turns_binary _ .logical

/-! ### Assignment -/

/-- The node of an assignment is settled, whatever may be noted of its target. -/
theorem meets_assignment (hs : Has fluid base ns s) {target value : Node} {op : Token}
    (hnode : (Node.branch .assignment op [target, value]).Settled fluid s.symbols []) :
    Meets s (assignment target op value) (assignment target op value)
      (fun node => Has fluid base [node]) (Fails fluid base) := by
  unfold assignment
  split
  · rw [meets_record]
    exact .pure ((hs.only hnode).record _)
  · exact .pure (hs.only hnode)

theorem turns_assignment (target : Node) (op : Token) (value : Node) :
    Turns fluid [target, value] (assignment target op value) List.singleton := fun _ _ hs =>
  meets_assignment hs (settled_of_children trivial fun _ hc => hs.settled hc)

/-- **Expressions** hand on settled trees. -/
theorem takes_expression (h : Keeps fluid r) : Takes fluid (expression r) Option.toList := by
  intro base s hs
  unfold expression
  refine (takes_logical h hs).bind fun found t ht => ?_
  cases found with
  | none => exact .pure ht
  | some target =>
    dsimp only
    rw [meets_current]
    split
    · rw [meets_advance]
      refine (Turns.beside (Yields.operand h.expression) ht.advance (List.nil_subset _)).bind
        fun value u hu => ?_
      exact .map (turns_assignment target _ value hu)
    · exact .pure ht

end Typing

end Grammar

end SableFront
