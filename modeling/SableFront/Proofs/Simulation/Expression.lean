import SableFront.Grammar.Expression
import SableFront.Proofs.Simulation.Contract

/-!
# Simulation: types, signatures and expressions

Types, signatures and expressions match, if the productions behind their circles do: no decision in
them looks at more than what is the same in related states or looks alike.
-/

namespace SableFront

open Grammar

instance : Visible Signature := ⟨fun v sig sig' => v.Alike sig.params sig'.params ∧
  v.Alike sig.returns sig'.returns ∧ sig.returnType = sig'.returnType⟩

namespace Grammar.Simulation

variable {S : Simulation} {r : Rules}

/-! ### Types -/

theorem matches_closeAngle : S.Matches closeAngle closeAngle := by
  refine matches_current.bind fun t t' ht => ?_
  rw [kind_alike ht]
  split
  · exact (matches_modify fun s s' hs => hs.splitAngle).bind fun _ _ _ =>
      matches_advance.bind fun t t' ht => .pure (.some ht)
  · exact .pure .none

theorem closes_angle : S.Closes angle :=
  ⟨matches_closeAngle, fun _ _ hs => congrArg isClosingAngle hs.kind⟩

theorem matches_genericArgument (h : S.Circles r) :
    S.Matches (genericArgument r) (genericArgument r) := by
  refine matches_get.bind fun s s' hs => ?_
  rw [hs.atTypeName]
  split
  · exact matches_require h.typeRef .missingValue
  · exact matches_require h.shift .missingValue

theorem matches_genericArguments (h : S.Circles r) :
    S.Matches (genericArguments r) (genericArguments r) := by
  refine matches_orRewind (matches_orNone ?_)
  exact matches_advance.bind fun _ _ _ =>
    matches_commaList (matches_genericArgument h) closes_angle (fun _ _ _ => rfl) _

theorem matches_modifiers (rounds : Nat) : S.Matches (modifiers rounds) (modifiers rounds) := by
  refine matches_loop (R := S.view.Alike) (fun marks marks' hmarks => ?_) rounds List.Forall₂.nil
  refine matches_current.bind fun t t' ht => ?_
  rw [kind_alike ht]
  split
  · exact matches_advance.bind fun u u' hu => .pure (.inl (alike_concat hmarks hu))
  · exact .pure (.inr hmarks)

theorem modified_alike (type : SymbolType) {marks marks' : List Token}
    (h : S.view.Alike marks marks') : modified type marks = modified type marks' := by
  unfold modified
  induction h generalizing type with
  | nil => rfl
  | cons ht _ ih =>
    rw [List.foldl_cons, List.foldl_cons, kind_alike ht]
    exact ih _

theorem typeOfName_alike {n n' : Node} (h : S.view.Alike n n') : typeOfName n = typeOfName n' := by
  rw [typeOfName, typeOfName, Node.ident?_alike h]

/-- The node of a type reference. -/
theorem alike_reference {storage storage' : Option Node} {name name' : Node}
    {args args' : Option (List Node × Token)} {marks marks' : List Token}
    (hstorage : S.view.Alike storage storage') (hname : S.view.Alike name name')
    (hargs : S.view.Alike args args') (hmarks : S.view.Alike marks marks') :
    let generics := (args.map (·.1)).getD []
    let generics' := (args'.map (·.1)).getD []
    S.view.Alike
      (Node.build (.typeRef storage.isSome generics.length (modified (typeOfName name) marks))
        name.token (storage.toList ++ name :: generics) marks
        ((storage.toList ++ [name]).map Node.span ++ (args.map (·.2.span)).toList))
      (Node.build (.typeRef storage'.isSome generics'.length (modified (typeOfName name') marks'))
        name'.token (storage'.toList ++ name' :: generics') marks'
        ((storage'.toList ++ [name']).map Node.span ++ (args'.map (·.2.span)).toList)) := by
  intro generics generics'
  have hgenerics : S.view.Alike generics generics' := by
    cases hargs with
    | none => exact .nil
    | some hargs => exact hargs.1
  have hclose : S.view.Alike (args.map (·.2.span)).toList (args'.map (·.2.span)).toList :=
    alike_toList (alike_optionMap hargs fun _ _ hp => alike_span hp.2)
  rw [isSome_alike hstorage, hgenerics.length_eq, typeOfName_alike hname, modified_alike _ hmarks]
  exact Node.alike_build _ (Node.token_eq hname)
    (alike_append (alike_toList hstorage) (.cons hname hgenerics)) hmarks
    (alike_append (Node.alike_spans (alike_concat (alike_toList hstorage) hname)) hclose)

theorem matches_typeRef (h : S.Circles r) {storage storage' : Option Node}
    (hstorage : S.view.Alike storage storage') : S.Matches (typeRef r storage) (typeRef r storage') := by
  refine matches_get.bind fun s s' hs => ?_
  rw [hs.atTypeName]
  split
  · refine matches_advance.bind fun t t' ht => matches_isAt_bind _ fun opens => ?_
    have hname := hs.bindName ht
    split
    · refine (matches_genericArguments h).bind fun args args' hargs => ?_
      exact (matches_modifiers _).bind fun marks marks' hmarks =>
        .pure (.some (alike_reference hstorage hname hargs hmarks))
    · have hnone : S.Matches (pure none : Production (Option (List Node × Token))) (pure none) :=
        .pure .none
      refine hnone.bind fun args args' hargs => ?_
      exact (matches_modifiers _).bind fun marks marks' hmarks =>
        .pure (.some (alike_reference hstorage hname hargs hmarks))
  · exact .pure .none

/-! ### Blocks, parameters and signatures -/

theorem matches_declare {name name' : Node} (hname : S.view.Alike name name') (symbol : Symbol)
    (scope : ScopeId) (role : Role) :
    S.Matches (declare name symbol scope role) (declare name' symbol scope role) := by
  refine matches_get.bind fun s s' hs => ?_
  rw [← hs.symbols]
  split
  · rename_i id symbols _
    exact (matches_set (hs.withSymbols symbols)).bind fun _ _ _ =>
      .pure ⟨Node.declared_alike (Node.attach_alike hname _ _ _), .some rfl⟩
  · have herror (e : AlreadyDefined) : S.view.Alike
        (⟨.symbolAlreadyDefined, name.token, some (.about e.name)⟩ : SyntaxError)
        ⟨.symbolAlreadyDefined, name'.token, some (.about e.name)⟩ :=
      ⟨rfl, Node.token_eq hname, rfl⟩
    refine (matches_record (herror _)).bind fun _ _ _ => ?_
    split
    · exact .pure ⟨Node.attach_alike hname _ _ _, .none⟩
    · exact .pure ⟨hname, .none⟩

theorem matches_block (h : S.Circles r) (enter : SymbolTable → SymbolTable) (context : Context) :
    S.Matches (block r enter context) (block r enter context) := by
  refine matches_advance.bind fun brace brace' hbrace => ?_
  refine (matches_inScope enter (h.items context)).bind fun ns ns' hns => ?_
  refine (matches_eat _).bind fun close close' hclose => ?_
  have hblock : S.view.Alike
      (Node.build (.block close.isSome) brace ns []
        (ns.map Node.span ++ (close.map Token.span).toList))
      (Node.build (.block close'.isSome) brace' ns' []
        (ns'.map Node.span ++ (close'.map Token.span).toList)) := by
    rw [isSome_alike hclose]
    exact Node.alike_block _ hbrace hns
      (alike_toList (alike_optionMap hclose fun _ _ ht => alike_span ht))
  rw [← Option.not_isSome, ← Option.not_isSome, isSome_alike hclose]
  split
  · refine matches_get.bind fun s s' hs => ?_
    exact (matches_record (hs.error _ _)).bind fun _ _ _ => .pure (isSome_alike hclose ▸ hblock)
  · exact .pure (isSome_alike hclose ▸ hblock)

theorem matches_body (h : S.Circles r) : S.Matches (body r) (body r) := by
  refine matches_isAt_bind _ fun opens => ?_
  split
  · exact matches_block h _ _
  · exact .fail _

theorem matches_defaultValue (h : S.Circles r) : S.Matches (defaultValue r) (defaultValue r) := by
  refine (matches_eat _).bind fun op op' hop => ?_
  cases hop with
  | none => exact .pure .none
  | some => exact (matches_operand h.expression).bind fun value value' hvalue => .pure (.some hvalue)

theorem matches_param (h : S.Circles r) : S.Matches (param r) (param r) := by
  refine (matches_typeRef h .none).bind fun type type' htype => ?_
  cases htype with
  | none =>
    exact matches_current.bind fun t t' ht => .failAbout _ (reason_alike ht _)
  | some htype =>
    refine matches_expectIdent_bind fun text token token' htoken => matches_get.bind fun s s' hs => ?_
    rw [← hs.symbols, Node.referredType?_alike htype]
    refine (matches_declare (Node.alike_name text htoken) _ _ _).bind fun name name' hname => ?_
    refine (matches_defaultValue h).bind fun default default' hdefault => ?_
    rw [isSome_alike hdefault]
    exact .pure (Node.alike_branch _ htoken
      (.cons htype (.cons hname.1 (alike_toList hdefault))))

theorem matches_params (h : S.Circles r) : S.Matches (params r) (params r) := by
  refine (matches_expect _ _).bind fun paren paren' hparen => ?_
  have hmissing (s s' : State) (hs : S.Holds s s') :
      (if s.current.isEof then ErrorKind.missingRightParen else .missingComma) =
        if s'.current.isEof then .missingRightParen else .missingComma := by
    rw [isEof_alike hs.current]
  exact (matches_commaList (matches_param h) (closes_mark _) hmissing _).bind
    fun found found' hfound => .pure
      (Node.alike_build _ hparen hfound.1 .nil (.cons (alike_span hfound.2) .nil))

theorem matches_signature (h : S.Circles r) : S.Matches (signature r) (signature r) := by
  refine (matches_params h).bind fun params params' hparams => ?_
  refine (matches_eat _).bind fun arrow arrow' harrow => ?_
  cases harrow with
  | none => exact .pure ⟨hparams, .none, rfl⟩
  | some harrow =>
    refine (matches_require (matches_typeRef h .none) _).bind fun type type' htype => .pure ?_
    refine ⟨hparams, .some (Node.alike_branch _ harrow (.cons htype .nil)), ?_⟩
    exact congrArg (fun t => ((t.map SymbolType.forValue).getD .none))
      (Node.referredType?_alike htype)

theorem matches_signatureAndBody (h : S.Circles r) (id : Option SymbolId) :
    S.Matches (signatureAndBody r id) (signatureAndBody r id) := by
  refine (matches_signature h).bind fun sig sig' hsig => ?_
  rw [hsig.2.2]
  cases id with
  | none => exact (matches_body h).bind fun body body' hbody => .pure ⟨hsig, hbody⟩
  | some id =>
    refine (matches_modify fun s s' hs => ?_).bind fun _ _ _ =>
      (matches_body h).bind fun body body' hbody => .pure ⟨hsig, hbody⟩
    rw [← hs.symbols]
    exact hs.withSymbols _

/-! ### Values -/

theorem matches_expressions (h : S.Circles r) (close : Punctuation) (unclosed : ErrorKind) :
    S.Matches (expressions r close unclosed) (expressions r close unclosed) := by
  have hunless (other : ErrorKind) (s s' : State) (hs : S.Holds s s') :
      (if s.current.isEof then unclosed else other) = if s'.current.isEof then unclosed else other := by
    rw [isEof_alike hs.current]
  refine matches_commaList (h.expression.bind fun item item' hitem => ?_) (closes_mark close)
    (hunless _) _
  cases hitem with
  | some hn => exact .pure hn
  | none =>
    refine matches_get.bind fun s s' hs => ?_
    dsimp only
    rw [hunless _ _ _ hs]
    exact .fail _

theorem matches_call (h : S.Circles r) {callee callee' : Node} {generics generics' : List Node}
    (hcallee : S.view.Alike callee callee') (hgenerics : S.view.Alike generics generics') :
    S.Matches (call r callee generics) (call r callee' generics') := by
  refine matches_advance.bind fun paren paren' hparen => ?_
  refine (matches_expressions h _ _).bind fun found found' hfound => .pure ?_
  rw [hgenerics.length_eq]
  exact Node.alike_build _ hparen (alike_append (.cons hcallee hgenerics) hfound.1) .nil
    (.cons (Node.span_eq hcallee) (.cons (alike_span hfound.2) .nil))

theorem matches_subscript (h : S.Circles r) {target target' : Node}
    (htarget : S.view.Alike target target') :
    S.Matches (subscript r target) (subscript r target') := by
  refine matches_advance.bind fun bracket bracket' hbracket => ?_
  refine h.expression.bind fun start start' hstart => ?_
  refine (matches_eat _).bind fun colon colon' hcolon => ?_
  have hclose (found found' : Form × List Node) (hfound : S.view.Alike found found') :
      S.Matches
        (expect (.punctuation .rBracket) .missingRightBracket >>= fun close =>
          pure (Node.build found.1 bracket found.2 [] (found.2.map Node.span ++ [close.span])))
        (expect (.punctuation .rBracket) .missingRightBracket >>= fun close =>
          pure (Node.build found'.1 bracket' found'.2 []
            (found'.2.map Node.span ++ [close.span]))) := by
    refine (matches_expect _ _).bind fun close close' hclose => ?_
    rw [show found.1 = found'.1 from hfound.1]
    exact .pure (Node.alike_build _ hbracket hfound.2 .nil
      (alike_concat (Node.alike_spans hfound.2) (alike_span hclose)))
  have hparts (form : Form) {children children' : List Node}
      (hchildren : S.view.Alike children children') :
      S.Matches (pure (form, children) : Production (Form × List Node)) (pure (form, children')) :=
    .pure ⟨rfl, hchildren⟩
  cases hcolon with
  | some =>
    refine h.expression.bind fun stop stop' hstop => ?_
    rw [isSome_alike hstart, isSome_alike hstop]
    exact (hparts _ (alike_append (.cons htarget (alike_toList hstart)) (alike_toList hstop))).bind
      hclose
  | none =>
    cases hstart with
    | some hindex => exact (hparts _ (.cons htarget (.cons hindex .nil))).bind hclose
    | none => exact MatchesBy.bind (.fail _) hclose

/-- A dotted name has as many children as there are parts. -/
theorem alike_dotted {base base' part part' : Node} (hbase : S.view.Alike base base')
    (hpart : S.view.Alike part part') : S.view.Alike (dotted base part) (dotted base' part') := by
  have hcover := Node.cover_alike hbase (Node.span_eq hpart)
  have hchildren : base.form = .dotted → S.view.Alike base.children base'.children := by
    intro hform
    refine Node.children_eq hbase ?_
    rw [hform]
    cases S.view <;> rfl
  unfold dotted
  rw [← Node.form_eq hbase]
  split
  · rename_i hform
    exact Node.alike_mk (Node.data_alike hcover) (alike_concat (hchildren hform) hpart)
  · exact Node.alike_branch _ (Node.token_eq hbase) (.cons hbase (.cons hpart .nil))

theorem matches_member {base base' : Node} (hbase : S.view.Alike base base') :
    S.Matches (member base) (member base') := by
  refine matches_advance.bind fun _ _ _ => matches_expectIdent_bind fun text token token' htoken => ?_
  refine matches_get.bind fun s s' hs => ?_
  have hname := Node.alike_name text htoken
  have hrole := alike_dotted hbase (Node.withRole_alike hname .property)
  dsimp only
  rw [← hs.membersOf hbase, ← hs.symbols]
  split
  · split
    · exact .pure (alike_dotted hbase (Node.attach_alike hname _ _ _))
    · exact .pure hrole
  · exact .pure hrole

theorem matches_dictEntry (h : S.Circles r) : S.Matches (dictEntry r) (dictEntry r) := by
  refine (matches_require h.expression _).bind fun key key' hkey => ?_
  refine (matches_expect _ _).bind fun _ _ _ => ?_
  exact (matches_require h.expression _).bind fun value value' hvalue =>
    .pure (.cons hkey (.cons hvalue .nil))

theorem matches_dict (h : S.Circles r) : S.Matches (dict r) (dict r) := by
  refine matches_advance.bind fun brace brace' hbrace => ?_
  exact (matches_commaList (matches_dictEntry h) (closes_mark _) (fun _ _ _ => rfl) _).bind
    fun found found' hfound => .pure (Node.alike_build _ hbrace (alike_flatten hfound.1) .nil
      (.cons (alike_span hfound.2) .nil))

theorem matches_list (h : S.Circles r) : S.Matches (list r) (list r) := by
  refine matches_advance.bind fun bracket bracket' hbracket => ?_
  exact (matches_expressions h _ _).bind fun found found' hfound =>
    .pure (Node.alike_build _ hbracket hfound.1 .nil (.cons (alike_span hfound.2) .nil))

theorem matches_parenthesized (h : S.Circles r) :
    S.Matches (parenthesized r) (parenthesized r) := by
  refine matches_advance.bind fun paren paren' hparen => ?_
  refine (matches_require h.expression _).bind fun inner inner' hinner => ?_
  exact (matches_expect _ _).bind fun close close' hclose =>
    .pure (Node.cover_alike hinner (alike_merge (alike_span hparen) (alike_span hclose)))

theorem matches_newObject (h : S.Circles r) : S.Matches (newObject r) (newObject r) := by
  refine matches_advance.bind fun keyword keyword' hkeyword => ?_
  refine (matches_require (matches_typeRef h .none) _).bind fun type type' htype => ?_
  refine (matches_eat _).bind fun paren paren' hparen => ?_
  cases hparen with
  | none => exact .pure (Node.alike_branch _ hkeyword (.cons htype .nil))
  | some =>
    exact (matches_expressions h _ _).bind fun found found' hfound =>
      .pure (Node.alike_build _ hkeyword (.cons htype hfound.1) .nil
        (.cons (Node.span_eq htype) (.cons (alike_span hfound.2) .nil)))

theorem matches_lambda (h : S.Circles r) : S.Matches (lambda r) (lambda r) := by
  refine matches_advance.bind fun keyword keyword' hkeyword => ?_
  refine (matches_inNewScope (matches_signatureAndBody h none)).bind fun found found' hfound => ?_
  obtain ⟨⟨hparams, hreturns, -⟩, hbody⟩ := hfound
  refine .pure ?_
  rw [isSome_alike hreturns]
  exact Node.alike_build _ hkeyword
    (alike_append (.cons hparams (alike_toList hreturns)) (.cons hbody .nil)) .nil
    (.cons (Node.span_eq hbody) .nil)

theorem matches_invalidRun (rounds : Nat) : S.Matches (invalidRun rounds) (invalidRun rounds) := by
  refine matches_advance.bind fun first first' hfirst => ?_
  have herror : S.view.Alike
      (⟨.invalidTokenSequence, first, some (.about first.describe)⟩ : SyntaxError)
      ⟨.invalidTokenSequence, first', some (.about first'.describe)⟩ :=
    ⟨rfl, hfirst, reason_alike hfirst .about⟩
  refine (matches_record herror).bind fun _ _ _ => ?_
  refine MatchesBy.bind (matches_loop (R := S.view.Alike) (T := S.view.Alike)
    (fun spans spans' hspans => ?_) rounds List.Forall₂.nil) fun spans spans' hspans =>
      .pure (Node.alike_build _ hfirst .nil .nil hspans)
  refine matches_get.bind fun s s' hs => ?_
  rw [hs.isAt, hs.newlineBefore]
  split
  · exact matches_advance.bind fun t t' ht => .pure (.inl (alike_concat hspans (alike_span ht)))
  · exact .pure (.inr hspans)

theorem matches_nameValue (h : S.Circles r) : S.Matches (nameValue r) (nameValue r) := by
  refine matches_get.bind fun s s' hs => matches_advance.bind fun t t' ht => ?_
  have hname := hs.bindName ht
  dsimp only
  rw [hs.speculates, typeOfName_alike hname]
  refine matches_isAt_bind _ fun opens => ?_
  split
  · refine (matches_genericArguments h).bind fun found found' hfound => ?_
    cases hfound with
    | none => exact .pure hname
    | some hfound =>
      refine matches_isAt_bind _ fun calls => ?_
      split
      · exact matches_call h hname hfound.1
      · rw [hfound.1.length_eq]
        exact .pure (Node.alike_build _ (Node.token_eq hname) (.cons hname hfound.1) .nil
          (.cons (Node.span_eq hname) (.cons (alike_span hfound.2) .nil)))
  · exact .pure hname

theorem matches_some {α : Type} [Visible α] {p p' : Production α} (hp : S.Matches p p') :
    S.Matches (some <$> p) (some <$> p') := hp.map fun _ _ ha => .some ha

theorem matches_valueAt (h : S.Circles r) (kind : Kind) :
    S.Matches (valueAt r kind) (valueAt r kind) := by
  unfold valueAt
  split
  · exact matches_some (matches_nameValue h)
  · exact matches_some (matches_newObject h)
  · exact matches_some (matches_lambda h)
  · split
    · exact matches_some (matches_nameValue h)
    · exact .pure .none
  · exact matches_some (matches_parenthesized h)
  · exact matches_some (matches_list h)
  · exact matches_some (matches_dict h)
  · exact matches_some (matches_invalidRun _)
  · split
    · exact matches_advance.map fun _ _ ht => .some (Node.alike_ofLiteral ht)
    · exact .pure .none

theorem matches_value (h : S.Circles r) : S.Matches (value r) (value r) := by
  refine matches_get.bind fun s s' hs => ?_
  have hname := hs.lookaside
  have hcleared := hs.clearLookaside
  rw [hs.kind]
  generalize s.lookaside = name at hname
  generalize s'.lookaside = name' at hname
  cases hname with
  | some hname => exact (matches_set hcleared).bind fun _ _ _ => .pure (.some hname)
  | none => exact matches_valueAt h _

theorem matches_postfixRound (h : S.Circles r) {node node' : Node} (hnode : S.view.Alike node node') :
    S.Matches (postfixRound r node) (postfixRound r node') := by
  have hinl {p p' : Production Node} (hp : S.Matches p p') :
      S.Matches ((.inl <$> p : Production (Node ⊕ Node))) (.inl <$> p') :=
    hp.map fun _ _ hn => .inl hn
  refine matches_current.bind fun t t' ht => ?_
  rw [kind_alike ht]
  split
  · exact hinl (matches_call h hnode .nil)
  · exact hinl (matches_subscript h hnode)
  · exact hinl (matches_member hnode)
  · exact .pure (.inr hnode)

theorem matches_postfixed (h : S.Circles r) : S.Matches (postfixed r) (postfixed r) := by
  refine (matches_value h).bind fun found found' hfound => ?_
  cases hfound with
  | none => exact .pure .none
  | some hnode =>
    exact matches_some (matches_loop (R := S.view.Alike) (T := S.view.Alike)
      (fun _ _ hnode => matches_postfixRound h hnode) _ hnode)

/-! ### Operators -/

/-- The operand after an operator that stands before it. -/
theorem matches_operandAfter {next : Production (Option Node)} (hnext : S.Matches next next)
    (form : Form) {op op' : Token} (hop : S.view.Alike op op') :
    S.Matches (operand next >>= fun node => pure (some (Node.branch form op [node])))
      (operand next >>= fun node => pure (some (Node.branch form op' [node]))) :=
  (matches_operand hnext).bind fun _ _ hnode =>
    .pure (.some (Node.alike_branch form hop (.cons hnode .nil)))

theorem matches_invert (h : S.Circles r) : S.Matches (invert r) (invert r) := by
  refine (matches_operatorBefore _).bind fun op op' hop => ?_
  cases hop with
  | some hop => exact matches_operandAfter h.invert .invert hop
  | none => exact matches_postfixed h

theorem matches_deref (h : S.Circles r) : S.Matches (deref r) (deref r) := by
  refine (matches_operatorBefore _).bind fun op op' hop => ?_
  cases hop with
  | some hop => exact matches_operandAfter h.deref .deref hop
  | none => exact matches_invert h

theorem matches_stepRound {node node' : Node} (hnode : S.view.Alike node node') :
    S.Matches (stepRound node) (stepRound node') := by
  refine matches_get.bind fun s s' hs => ?_
  rw [isOfClass_alike hs.current, hs.newlineBefore]
  split
  · exact matches_advance.bind fun op op' hop =>
      .pure (.inl (Node.alike_branch _ hop (.cons hnode .nil)))
  · exact .pure (.inr hnode)

theorem matches_steps (h : S.Circles r) : S.Matches (steps r) (steps r) := by
  refine (matches_operatorBefore _).bind fun op op' hop => ?_
  cases hop with
  | some hop => exact matches_operandAfter h.steps .stepBefore hop
  | none =>
    refine (matches_deref h).bind fun found found' hfound => ?_
    cases hfound with
    | none => exact .pure .none
    | some hnode =>
      exact matches_some (matches_loop (R := S.view.Alike) (T := S.view.Alike)
        (fun _ _ hnode => matches_stepRound hnode) _ hnode)

/-- What makes the node of an operator between two operands. -/
def Combines (S : Simulation) (combine : Node → Token → Node → Production Node) : Prop :=
  ∀ {left left' op op' right right'}, S.view.Alike left left' → S.view.Alike op op' →
    S.view.Alike right right' → S.Matches (combine left op right) (combine left' op' right')

theorem matches_operatorRound {next : Production (Option Node)} (hnext : S.Matches next next)
    {combine : Node → Token → Node → Production Node} (hcombine : S.Combines combine)
    (cls : Operator.Class) {left left' : Node} (hleft : S.view.Alike left left') :
    S.Matches (operatorRound cls next combine left) (operatorRound cls next combine left') := by
  refine matches_current.bind fun t t' ht => ?_
  rw [isOfClass_alike ht]
  split
  · refine matches_advance.bind fun op op' hop => ?_
    exact (matches_operand hnext).bind fun right right' hright =>
      (hcombine hleft hop hright).map fun _ _ hn => .inl hn
  · exact .pure (.inr hleft)

theorem matches_level {next : Production (Option Node)} (hnext : S.Matches next next)
    {combine : Node → Token → Node → Production Node} (hcombine : S.Combines combine) (rounds : Nat)
    (cls : Operator.Class) :
    S.Matches (level rounds cls next combine) (level rounds cls next combine) := by
  refine hnext.bind fun found found' hfound => ?_
  cases hfound with
  | none => exact .pure .none
  | some hleft =>
    exact matches_some (matches_loop (R := S.view.Alike) (T := S.view.Alike)
      (fun _ _ hleft => matches_operatorRound hnext hcombine cls hleft) _ hleft)

theorem combines_binary : S.Combines binary := fun hleft hop hright =>
  .pure (Node.alike_branch _ hop (.cons hleft (.cons hright .nil)))

theorem matches_shift (h : S.Circles r) : S.Matches (shift r) (shift r) :=
  matches_level
    (matches_level (matches_level (matches_steps h) combines_binary _ _) combines_binary _ _)
    combines_binary _ _

theorem matches_bitwise (h : S.Circles r) : S.Matches (bitwise r) (bitwise r) :=
  matches_level (matches_shift h) combines_binary _ _

theorem combines_comparison (h : S.Circles r) : S.Combines (comparison r) := by
  intro left left' op op' right right' hleft hop hright
  refine matches_current.bind fun t t' ht => ?_
  rw [kind_alike hop, kind_alike ht]
  split
  · refine matches_advance.bind fun second second' hsecond => ?_
    exact (matches_operand (matches_bitwise h)).bind fun upper upper' hupper =>
      .pure (Node.alike_build _ hop (.cons hleft (.cons hright (.cons hupper .nil)))
        (.cons hsecond .nil) (.cons (Node.span_eq hleft) (.cons (Node.span_eq hupper) .nil)))
  · exact combines_binary hleft hop hright

theorem matches_logical (h : S.Circles r) : S.Matches (logical r) (logical r) :=
  matches_level (matches_level (matches_bitwise h) (combines_comparison h) _ _) combines_binary _ _

theorem matches_assignment {target target' value value' : Node} {op op' : Token}
    (htarget : S.view.Alike target target') (hop : S.view.Alike op op')
    (hvalue : S.view.Alike value value') :
    S.Matches (assignment target op value) (assignment target' op' value') := by
  have hnode := Node.alike_branch .assignment hop (.cons htarget (.cons hvalue .nil))
  have herror : S.view.Alike (⟨.invalidAssignment, op, none⟩ : SyntaxError)
      ⟨.invalidAssignment, op', none⟩ := ⟨rfl, hop, rfl⟩
  unfold assignment
  rw [Node.form_eq htarget]
  split
  · exact (matches_record herror).bind fun _ _ _ => .pure hnode
  · exact .pure hnode

theorem matches_expression (h : S.Circles r) : S.Matches (expression r) (expression r) := by
  refine (matches_logical h).bind fun found found' hfound => ?_
  cases hfound with
  | none => exact .pure .none
  | some htarget =>
    refine matches_current.bind fun t t' ht => ?_
    rw [isOfClass_alike ht]
    split
    · refine matches_advance.bind fun op op' hop => ?_
      exact (matches_operand h.expression).bind fun value value' hvalue =>
        matches_some (matches_assignment htarget hop hvalue)
    · exact .pure (.some htarget)

end Grammar.Simulation

end SableFront
