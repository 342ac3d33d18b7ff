import SableFront.Proofs.Discipline.Contract

/-!
# Disciplines: expressions

Names, type references, blocks, signatures and expressions keep to any discipline, in every scope:
what they declare goes to scopes that are opened for it.
-/

namespace SableFront.Grammar

open Node
open Discipline (Reads Binds Builds)

variable {D : Discipline} [D.Lawful] {r : Rules} {w : Place} {m n : Node}

/-! ### Type references -/

theorem obeys_genericArgument (h : D.Governs r) :
    Preserves (D.Holds w) (genericArgument r) D.Typing := by
  unfold genericArgument
  refine .getBind fun s _ => .require ?_ _
  split
  · exact (h.typeRef _)
  · exact (h.shift _).weaken fun found hfound n hn => Builds.value (hfound n hn)

theorem obeys_genericArguments (h : D.Governs r) :
    Preserves (D.Holds w) (genericArguments r) fun found =>
      ∀ args ∈ found, ∀ n ∈ args.1, D.Typing n := by
  unfold genericArguments
  refine .orRewind (.orNone (Preserves.advance.bind fun _ _ => ?_))
  exact .commaList (obeys_genericArgument h) .closeAngle _

theorem obeys_typeRef (h : D.Governs r) {storage : Option Node} (hstorage : D.Found storage) :
    Preserves (D.Holds w) (typeRef r storage) fun found => ∀ n ∈ found, D.Typing n := by
  unfold typeRef
  refine .getBind fun s _ => ?_
  split
  · refine Preserves.advance.bind fun token _ => (Preserves.isAt _).bind fun angle _ => ?_
    dsimp only
    refine .iteBind (obeys_genericArguments h) (.pure fun args hargs => by cases hargs)
      fun args hargs => (Preserves.modifiers _).bind fun marks _ => .pure ?_
    have hgenerics : ∀ n ∈ (args.map (·.1)).getD [], D.Typing n := by
      cases args with
      | none => exact List.forall_mem_nil _
      | some args => exact hargs args rfl
    have hnames : ∀ n ∈ storage.toList ++ [s.bindName token], D.Value n :=
      forall_mem_concat (forall_mem_toList.mpr hstorage) (Discipline.bindName s token)
    intro n hn
    cases hn
    refine Builds.typing rfl (List.append_assoc _ [s.bindName token] _).symm ?_ hnames hgenerics
    cases storage <;> rfl
  · exact .pure fun n hn => (Option.not_mem_none n hn).elim

/-! ### Blocks, parameters and signatures -/

theorem obeys_block (h : D.Governs r) {enter : SymbolTable → SymbolTable} (henter : D.Enters w enter)
    (context : Context) : Preserves (D.Holds w) (block r enter context) D.Value := by
  have hitems (scope : ScopeId) (hopen : D.Open scope) :
      Preserves (D.Holds { w with scope }) (r.items context) fun ns => ∀ n ∈ ns, D.Value n :=
    fun s hs => .result _ _ rfl rfl (h.items context hopen hs)
  unfold block
  refine Preserves.advance.bind fun brace _ => (obeys_inScope henter hitems).bind fun ns hns => ?_
  refine (Preserves.eat _).bind fun close _ => ?_
  dsimp only
  split
  · exact .getBind fun s _ => (Preserves.record _).bind fun _ _ => .pure (Builds.plain rfl hns)
  · exact .pure (Builds.plain rfl hns)

theorem obeys_body (h : D.Governs r) : Preserves (D.Holds w) (body r) D.Value := by
  unfold body
  refine (Preserves.isAt _).bind fun here _ => ?_
  split
  · exact obeys_block h Discipline.enters_push _
  · exact .fail _

theorem obeys_defaultValue (h : D.Governs r) : Preserves (D.Holds w) (defaultValue r) D.Found := by
  unfold defaultValue
  refine (Preserves.eat _).bind fun found _ => ?_
  cases found with
  | some token =>
    exact (Discipline.operand (h.expression _)).bind fun value hvalue => .pure (found_some.mpr hvalue)
  | none => exact .pure found_none

theorem obeys_param (h : D.Governs r) (hw : D.Open w.scope) :
    Preserves (D.Holds w) (param r) D.Value := by
  unfold param
  refine (obeys_typeRef h found_none).bind fun type htype => ?_
  cases type with
  | none => exact Preserves.current.bind fun _ _ => .failFor _ _
  | some type =>
    refine Preserves.expectIdent.bind fun ident _ => .getBind fun s hs => ?_
    refine (obeys_declare (Discipline.name _ _) _ (Binds.here hs hw) _).bind fun name hname => ?_
    refine (obeys_defaultValue h).bind fun default hdefault => .pure ?_
    exact Builds.typed rfl rfl (htype type rfl)
      (List.forall_mem_cons.mpr ⟨hname.1, forall_mem_toList.mpr hdefault⟩)

theorem obeys_params (h : D.Governs r) (hw : D.Open w.scope) :
    Preserves (D.Holds w) (params r) D.Value := by
  unfold params
  refine (Preserves.expect _ _).bind fun paren _ => ?_
  exact (Preserves.commaList (obeys_param h hw) (.eat _) _).bind fun items hitems =>
    .pure (Builds.plain rfl hitems)

theorem obeys_signature (h : D.Governs r) (hw : D.Open w.scope) :
    Preserves (D.Holds w) (signature r) (Signature.Obeys · D) := by
  unfold signature
  refine (obeys_params h hw).bind fun params hparams => (Preserves.eat _).bind fun arrow _ => ?_
  cases arrow with
  | some arrow =>
    refine ((obeys_typeRef h found_none).require _).bind fun type htype => .pure ⟨hparams, ?_⟩
    exact found_some.mpr (Builds.typed rfl rfl htype (List.forall_mem_nil _))
  | none => exact .pure ⟨hparams, found_none⟩

theorem obeys_signatureAndBody (h : D.Governs r) (hw : D.Open w.scope) {id : Option SymbolId}
    (hid : ∀ i ∈ id, D.Own i) :
    Preserves (D.Holds w) (signatureAndBody r id) fun parts => parts.1.Obeys D ∧ D.Value parts.2 := by
  have hbody {sig : Signature} (hsig : sig.Obeys D) :
      Preserves (D.Holds w) (body r >>= fun body => pure (sig, body)) fun parts =>
        parts.1.Obeys D ∧ D.Value parts.2 :=
    (obeys_body h).bind fun body hbody => .pure ⟨hsig, hbody⟩
  unfold signatureAndBody
  refine (obeys_signature h hw).bind fun sig hsig => ?_
  cases id with
  | some id =>
    exact (Preserves.modify fun s hs => Binds.change _ hs (hid id rfl)).bind fun _ _ => hbody hsig
  | none => exact hbody hsig

/-! ### Calls, subscripts and members -/

theorem obeys_expressions (h : D.Governs r) (close : Punctuation) (unclosed : ErrorKind) :
    Preserves (D.Holds w) (expressions r close unclosed) fun found => ∀ n ∈ found.1, D.Value n := by
  unfold expressions
  dsimp only
  refine .commaList ((h.expression _).bind fun item hitem => ?_) (.eat _) _
  cases item with
  | some item => exact .pure (found_some.mp hitem)
  | none => exact .getBind fun s _ => .fail _

/-- A call, where calls with so many generic arguments are as it is asked of values. -/
theorem obeys_call (h : D.Governs r) {generics : List Node} (hn : D.Value n)
    (hgenerics : ∀ c ∈ generics, D.Value c)
    (hcall : ∀ m : Node, m.form = .call generics.length → (∀ c ∈ m.children, D.Value c) →
      D.Value m) :
    Preserves (D.Holds w) (call r n generics) D.Value := by
  unfold call
  refine Preserves.advance.bind fun paren _ => (obeys_expressions h _ _).bind fun args hargs => ?_
  refine .pure (hcall _ rfl (List.forall_mem_append.mpr ⟨?_, hargs⟩))
  exact List.forall_mem_cons.mpr ⟨hn, hgenerics⟩

theorem obeys_subscript (h : D.Governs r) (hn : D.Value n) :
    Preserves (D.Holds w) (subscript r n) D.Value := by
  unfold subscript
  refine Preserves.advance.bind fun bracket _ => (h.expression _).bind fun start hstart => ?_
  refine (Preserves.eat _).bind fun colon _ => ?_
  -- both forms end in the closing bracket
  have hclose {form : Form} {children : List Node} (hform : form.isPlain)
      (hchildren : ∀ n ∈ children, D.Value n) :
      Preserves (D.Holds w) (expect (.punctuation .rBracket) .missingRightBracket >>= fun close =>
        pure (.build form bracket children [] (children.map span ++ [close.span]))) D.Value :=
    (Preserves.expect _ _).bind fun close _ => .pure (Builds.plain hform hchildren)
  dsimp only
  split
  · refine (h.expression _).bind fun stop hstop => ?_
    rw [pure_bind]
    refine hclose rfl (List.forall_mem_append.mpr ⟨?_, forall_mem_toList.mpr hstop⟩)
    exact List.forall_mem_cons.mpr ⟨hn, forall_mem_toList.mpr hstart⟩
  · rw [pure_bind]
    exact hclose rfl (forall_mem_pair hn (found_some.mp hstart))
  · exact Preserves.bind (Q := fun _ => False) (.fail _) fun _ hfalse => hfalse.elim

theorem obeys_member (hn : D.Value n) : Preserves (D.Holds w) (member n) D.Value := by
  unfold member
  refine Preserves.advance.bind fun dot _ => Preserves.expectIdent.bind fun ident _ => ?_
  have hname : D.Value (.name ident.1 ident.2) := Discipline.name _ _
  refine .getBind fun s _ => ?_
  dsimp only
  split
  · split
    · exact .pure (Discipline.dotted hn (Discipline.attach hname _ _ _))
    · exact .pure (Discipline.dotted hn (Discipline.withRole hname _))
  · exact .pure (Discipline.dotted hn (Discipline.withRole hname _))

/-! ### Values -/

theorem obeys_dictEntry (h : D.Governs r) :
    Preserves (D.Holds w) (dictEntry r) fun entry => ∀ n ∈ entry, D.Value n := by
  unfold dictEntry
  refine ((h.expression _).require _).bind fun key hkey => (Preserves.expect _ _).bind fun _ _ => ?_
  exact ((h.expression _).require _).bind fun value hvalue => .pure (forall_mem_pair hkey hvalue)

theorem obeys_dict (h : D.Governs r) : Preserves (D.Holds w) (dict r) D.Value := by
  unfold dict
  refine Preserves.advance.bind fun brace _ => ?_
  refine (Preserves.commaList (obeys_dictEntry h) (.eat _) _).bind fun found hfound => .pure ?_
  refine Builds.plain rfl fun n hn => ?_
  obtain ⟨entry, hentry, hmem⟩ := List.mem_flatten.mp hn
  exact hfound entry hentry n hmem

theorem obeys_list (h : D.Governs r) : Preserves (D.Holds w) (list r) D.Value := by
  unfold list
  exact Preserves.advance.bind fun bracket _ => (obeys_expressions h _ _).bind fun items hitems =>
    .pure (Builds.plain rfl hitems)

theorem obeys_parenthesized (h : D.Governs r) : Preserves (D.Holds w) (parenthesized r) D.Value := by
  unfold parenthesized
  refine Preserves.advance.bind fun paren _ => ((h.expression _).require _).bind fun inner hinner => ?_
  exact (Preserves.expect _ _).bind fun close _ => .pure (Discipline.cover hinner _)

theorem obeys_newObject (h : D.Governs r) : Preserves (D.Holds w) (newObject r) D.Value := by
  unfold newObject
  refine Preserves.advance.bind fun keyword _ => ?_
  refine ((obeys_typeRef h found_none).require _).bind fun type htype => ?_
  refine (Preserves.eat _).bind fun paren _ => ?_
  cases paren with
  | some paren =>
    exact (obeys_expressions h _ _).bind fun args hargs =>
      .pure (Builds.typed rfl rfl htype hargs)
  | none => exact .pure (Builds.typed rfl rfl htype (List.forall_mem_nil _))

theorem obeys_lambda (h : D.Governs r) : Preserves (D.Holds w) (lambda r) D.Value := by
  unfold lambda
  refine Preserves.advance.bind fun keyword _ => ?_
  have hnone : ∀ id ∈ (none : Option SymbolId), D.Own id :=
    fun _ hid => absurd hid (Option.not_mem_none _)
  refine (obeys_inNewScope fun scope hopen => obeys_signatureAndBody h hopen hnone).bind
    fun parts hparts => .pure ?_
  exact Builds.plain rfl (forall_mem_concat hparts.1.forall_mem hparts.2)

theorem obeys_invalidRun (rounds : Nat) : Preserves (D.Holds w) (invalidRun rounds) D.Value := by
  unfold invalidRun
  refine Preserves.advance.bind fun first _ => (Preserves.record _).bind fun _ _ => ?_
  refine (Preserves.loop (Q := fun _ => True) (R := fun _ => True) (fun spans _ => ?_) rounds
    trivial).bind fun spans _ => .pure (Builds.plain rfl (List.forall_mem_nil _))
  refine .getBind fun s _ => ?_
  split
  · exact Preserves.advance.bind fun _ _ => .pure trivial
  · exact .pure trivial

/-- Generic arguments are read behind a name only where they are tried at all. -/
theorem obeys_nameValue (h : D.Governs r) : Preserves (D.Holds w) (nameValue r) D.Value := by
  unfold nameValue
  refine .getBind fun s hs => Preserves.advance.bind fun token _ => ?_
  have hname : D.Value (s.bindName token) := Discipline.bindName s token
  refine (Preserves.isAt _).bind fun here _ => ?_
  split
  · rename_i hgeneric
    have hguess : s.config.speculateGenerics :=
      (Bool.and_eq_true_iff.mp (Bool.and_eq_true_iff.mp hgeneric).1).1
    refine (obeys_genericArguments h).bind fun found hfound => ?_
    cases found with
    | none => exact .pure hname
    | some args =>
      have hargs := hfound args rfl
      refine (Preserves.isAt _).bind fun paren _ => ?_
      split
      · exact obeys_call h hname (fun c hc => Builds.guess hs hguess (hargs c hc))
          fun m hm hchildren => Builds.call hs hguess hm hchildren
      · have hnames : ∀ c ∈ [s.bindName token], D.Value c := List.forall_mem_singleton.mpr hname
        exact .pure (Builds.guess hs hguess (Builds.typing rfl rfl rfl hnames hargs))
  · exact .pure hname

theorem obeys_valueAt (h : D.Governs r) (kind : Kind) :
    Preserves (D.Holds w) (valueAt r kind) D.Found := by
  unfold valueAt
  split
  · exact (obeys_nameValue h).found
  · exact (obeys_newObject h).found
  · exact (obeys_lambda h).found
  · split
    · exact (obeys_nameValue h).found
    · exact .pure found_none
  · exact (obeys_parenthesized h).found
  · exact (obeys_list h).found
  · exact (obeys_dict h).found
  · exact (obeys_invalidRun _).found
  · split
    · exact .map (Preserves.advance.weaken fun token _ =>
        found_some.mpr (Discipline.ofLiteral token))
    · exact .pure found_none

/-- The name that waits may be the value. -/
theorem obeys_value (h : D.Governs r) : Preserves (D.Holds w) (value r) D.Found := by
  unfold value
  refine .getBind fun s hs => ?_
  cases hname : s.lookaside with
  | some name =>
    exact (Preserves.set (Reads.idle hs)).bind fun _ _ =>
      .pure (found_some.mpr (Reads.waiting hs name hname))
  | none => exact obeys_valueAt h _

theorem obeys_postfixRound (h : D.Governs r) (hn : D.Value n) :
    Preserves (D.Holds w) (postfixRound r n) (Sum.elim D.Value D.Value) := by
  unfold postfixRound
  refine Preserves.current.bind fun token _ => ?_
  split
  · exact .map (obeys_call h hn (List.forall_mem_nil _) fun m hm =>
      Builds.plain (by rw [hm]; rfl))
  · exact .map (obeys_subscript h hn)
  · exact .map (obeys_member hn)
  · exact .pure hn

theorem obeys_postfixed (h : D.Governs r) : Preserves (D.Holds w) (postfixed r) D.Found := by
  unfold postfixed
  refine (obeys_value h).bind fun found hfound => ?_
  cases found with
  | none => exact .pure found_none
  | some n =>
    exact (Preserves.loop (fun _ hn => obeys_postfixRound h hn) r.rounds
      (found_some.mp hfound)).found

/-! ### Operators with one operand -/

/-- An operator before the operand it has been read for. -/
theorem obeys_behindOperator {inner : Production (Option Node)} {form : Form} {op : Token}
    (hinner : Preserves (D.Holds w) inner D.Found) (hform : form.isPlain) :
    Preserves (D.Holds w) (operand inner >>= fun node => pure (some (.branch form op [node])))
      D.Found :=
  (Discipline.operand hinner).bind fun _ hnode =>
    .pure (found_some.mpr (Builds.plain hform (List.forall_mem_singleton.mpr hnode)))

theorem obeys_invert (h : D.Governs r) : Preserves (D.Holds w) (invert r) D.Found := by
  unfold invert
  refine (Preserves.operatorBefore _).bind fun found _ => ?_
  cases found with
  | some op => exact obeys_behindOperator (h.invert _) rfl
  | none => exact obeys_postfixed h

theorem obeys_deref (h : D.Governs r) : Preserves (D.Holds w) (deref r) D.Found := by
  unfold deref
  refine (Preserves.operatorBefore _).bind fun found _ => ?_
  cases found with
  | some op => exact obeys_behindOperator (h.deref _) rfl
  | none => exact obeys_invert h

theorem obeys_stepRound (hn : D.Value n) :
    Preserves (D.Holds w) (stepRound n) (Sum.elim D.Value D.Value) := by
  unfold stepRound
  refine .getBind fun s _ => ?_
  split
  · exact Preserves.advance.bind fun op _ =>
      .pure (Builds.plain rfl (List.forall_mem_singleton.mpr hn))
  · exact .pure hn

theorem obeys_steps (h : D.Governs r) : Preserves (D.Holds w) (steps r) D.Found := by
  unfold steps
  refine (Preserves.operatorBefore _).bind fun found _ => ?_
  cases found with
  | some op => exact obeys_behindOperator (h.steps _) rfl
  | none =>
    refine (obeys_deref h).bind fun found hfound => ?_
    cases found with
    | some n =>
      exact (Preserves.loop (fun _ hn => obeys_stepRound hn) r.rounds (found_some.mp hfound)).found
    | none => exact .pure found_none

/-! ### Operators with two operands -/

theorem obeys_level {next : Production (Option Node)}
    {combine : Node → Token → Node → Production Node} (hnext : Preserves (D.Holds w) next D.Found)
    (hcombine : ∀ left op right, D.Value left → D.Value right →
      Preserves (D.Holds w) (combine left op right) D.Value)
    (rounds : Nat) (cls : Operator.Class) :
    Preserves (D.Holds w) (level rounds cls next combine) D.Found :=
  hnext.level Discipline.placeholder hcombine rounds cls

theorem obeys_binary (left : Node) (op : Token) (right : Node) (hleft : D.Value left)
    (hright : D.Value right) : Preserves (D.Holds w) (binary left op right) D.Value :=
  .pure (Builds.plain rfl (forall_mem_pair hleft hright))

theorem obeys_shift (h : D.Governs r) : Preserves (D.Holds w) (shift r) D.Found :=
  obeys_level (obeys_level (obeys_level (obeys_steps h) obeys_binary _ .multiplicative)
    obeys_binary _ .additive) obeys_binary _ .shift

theorem obeys_bitwise (h : D.Governs r) : Preserves (D.Holds w) (bitwise r) D.Found :=
  obeys_level (obeys_shift h) obeys_binary _ .bitwise

theorem obeys_comparison (h : D.Governs r) (left : Node) (op : Token) (right : Node)
    (hleft : D.Value left) (hright : D.Value right) :
    Preserves (D.Holds w) (comparison r left op right) D.Value := by
  unfold comparison
  refine Preserves.current.bind fun token _ => ?_
  split
  · refine Preserves.advance.bind fun second _ => ?_
    refine (Discipline.operand (obeys_bitwise h)).bind fun upper hupper => ?_
    exact .pure (Builds.plain rfl
      (List.forall_mem_cons.mpr ⟨hleft, forall_mem_pair hright hupper⟩))
  · exact obeys_binary left op right hleft hright

theorem obeys_logical (h : D.Governs r) : Preserves (D.Holds w) (logical r) D.Found :=
  obeys_level (obeys_level (obeys_bitwise h) (obeys_comparison h) _ .relational)
    obeys_binary _ .logical

/-! ### Assignment -/

theorem obeys_assignment (hm : D.Value m) (hn : D.Value n) (op : Token) :
    Preserves (D.Holds w) (assignment m op n) D.Value := by
  have hnode : Preserves (D.Holds w) (pure (.branch .assignment op [m, n]) : Production Node) D.Value :=
    .pure (Builds.plain rfl (forall_mem_pair hm hn))
  unfold assignment
  split
  · exact (Preserves.record _).bind fun _ _ => hnode
  · exact hnode

/-- **Expressions** are as it is asked of values. -/
theorem obeys_expression (h : D.Governs r) : Preserves (D.Holds w) (expression r) D.Found := by
  unfold expression
  refine (obeys_logical h).bind fun found hfound => ?_
  cases found with
  | none => exact .pure found_none
  | some target =>
    refine Preserves.current.bind fun token _ => ?_
    split
    · refine Preserves.advance.bind fun op _ => ?_
      refine (Discipline.operand (h.expression _)).bind fun value hvalue => ?_
      exact (obeys_assignment (found_some.mp hfound) hvalue op).found
    · exact .pure hfound

end SableFront.Grammar
