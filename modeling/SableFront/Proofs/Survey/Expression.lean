import SableFront.Grammar.Expression
import SableFront.Proofs.Survey.TypeReference

/-!
# Surveys: expressions

Every level of expressions keeps to the survey, provided that lambdas and attempts at generic
arguments do. A name that waits is the first piece of the operand that is read next, so it stands
right behind what was in hand before.
-/

namespace SableFront.Grammar

open Node

variable {L : Survey} {r : Rules} {before xs ys : List Piece} {s : State}
  {base part : Node} {op : Token} {accepts : Kind → Bool} {form : Form}
  {inner next : Production (Option Node)} {combine : Node → Token → Node → Production Node}

/-! ### Kinds that are shown -/

theorem shown_of_isLiteral {k : Kind} (h : k.isLiteral) : Use.shown.allows k := by
  cases k
  case ident | keyword | invalid | punctuation => cases h
  all_goals rfl

theorem shown_of_opClass {k : Kind} {c : Operator.Class} (h : k.opClass? = some c) :
    Use.shown.allows k := by
  cases k
  case ident | keyword | invalid | punctuation => cases h
  all_goals rfl

theorem shown_of_chains {first second : Kind} (h : chains first second) :
    Use.shown.allows second := by
  unfold chains at h
  split at h
  · rfl
  · cases h

namespace Survey

/-! ### Calls, subscripts and members -/

theorem yields_expressions (h : L.Circle r) {close : Punctuation} (unclosed : ErrorKind)
    (hclose : Use.plain.allows (.punctuation close)) :
    L.Yields (expressions r close unclosed) (listed .plain) := by
  unfold expressions
  dsimp only
  refine Yields.commaNodes (fun before s hs => ?_) (yields_mark h.lawful hclose) h.lawful _ _
  refine (h.expression hs).bind fun item t ht => ?_
  cases item with
  | some item => exact .pure ht
  | none =>
    dsimp only
    rw [meets_get]
    exact .fail (ht.fails h.lawful _ _)

/-- What is read between brackets becomes a node that is anchored at the opening one and covers what
is between them. -/
theorem Has.bracketed {ns : List Node} {opening closing : Token}
    (h : L.Has before ([.token .plain opening] ++ (ns.map .node ++ [.token .plain closing])) s)
    (hL : L.Lawful) (hform : form.isSimple) (huse : form.use? = none) :
    L.Has before [.node (.build form opening ns [] [closing.span])] s :=
  h.build hL (.of_place hform huse (Piece.mem_anchors_of_token List.mem_cons_self)
    (List.forall_mem_nil _) (by simp)) (by simp)
    (.ends (by simp) (by simp) (by simp [List.getLast?_cons]))

theorem opens_call (h : L.Circle r) (callee : Node) (generics : List Node)
    (hxs : Piece.nodes xs = generics)
    (hused : ∀ anchor, Piece.AllUsed (.call generics.length) anchor [] xs) :
    L.Opens .plain (.node callee :: xs) (call r callee generics) one := by
  intro before s hs huse
  unfold call
  rw [meets_advance]
  refine ((yields_expressions h _ rfl).beside h.lawful (hs.advance h.lawful huse)).bind
    fun found t ht => .pure ?_
  refine ht.build h.lawful ⟨rfl, Piece.mem_anchors.mpr (.inl ⟨.plain, by simp⟩),
    fun use huse => ?_, List.forall_mem_nil _, by simp [listed, hused], .inr ⟨?_, ?_⟩,
    fun _ hi => Form.noConfusion hi, (fun _ hk => by cases hk), .proper rfl⟩ (by simp [listed, hxs])
    (.ends (by simp [listed]) (by simp) (by simp [listed, List.getLast?_cons]))
  · cases huse
  · exact ⟨.node callee, _, rfl, .inl rfl⟩
  · refine ⟨.node callee :: xs ++ [.token .plain s.current] ++ found.1.map .node,
      .token .plain found.2, ?_, .inr ⟨.plain, found.2, rfl, .inr (by simp)⟩⟩
    simp [listed]

theorem opens_subscript (h : L.Circle r) (target : Node) :
    L.Opens .plain [.node target] (subscript r target) one := by
  intro before s hs huse
  have hL := h.lawful
  unfold subscript
  rw [meets_advance]
  refine (h.expression.beside hL (hs.advance hL huse)).bind fun start t ht => ?_
  refine (ht.eatSkip hL rfl).bind fun colon u hu => ?_
  have hclose {form : Form} {children : List Node} {xs : List Piece} {v : State}
      (hv : L.Has before xs v) (hform : form.isSimple) (huse : form.use? = none)
      (hbracket : .token .plain s.current ∈ xs) (hchildren : Piece.nodes xs = children)
      (hused : Piece.AllUsed form s.current [] xs) :
      Meets v (expect (.punctuation .rBracket) .missingRightBracket >>= fun close =>
          pure (.build form s.current children [] (children.map span ++ [close.span])))
        (expect (.punctuation .rBracket) .missingRightBracket >>= fun close =>
          pure (.build form s.current children [] (children.map span ++ [close.span])))
        (fun node => L.Has before [.node node]) (L.Fails before) := by
    refine (hv.expect hL .plain rfl _).bind fun close w hw => .pure ?_
    refine hw.build hL (.of_place hform huse
      (Piece.mem_anchors_of_token (List.mem_append_left _ hbracket)) (List.forall_mem_nil _)
      (by simp [hused])) (by simp [hchildren]) (.each ?_ fun n hn => ?_)
    · have hnodes := (Piece.map_span_nodes_sublist xs).subset
      rw [hchildren] at hnodes
      exact fun u hu => Piece.spans_append ▸ List.append_subset.mpr ⟨List.Subset.trans hnodes
        (List.subset_append_left _ _), List.subset_append_right _ _⟩ hu
    · rw [← hchildren]
      exact List.mem_append_left _ (List.mem_map_of_mem (by simpa using hn))
  dsimp only
  split
  · refine (h.expression.beside hL hu).bind fun stop v hv => ?_
    rw [meets_pure_bind]
    exact hclose hv rfl rfl (by simp) (by simp [maybe]) (by simp [maybe])
  · rw [meets_pure_bind]
    exact hclose hu rfl rfl (by simp) (by simp) (by simp)
  · exact (Meets.fail (hu.fails hL _ _)).bind fun _ _ hv => hv

/-- A dotted name takes in one more part. -/
theorem Has.dotted (hs : L.Has before [.node base, .node part] s) (hL : L.Lawful) :
    L.Has before [.node (dotted base part)] s := by
  unfold Grammar.dotted
  split
  · rename_i hform
    exact hs.make hL (.extended base part hform) ((hs.bare base (by simp)).congr rfl rfl)
  · exact hs.branch hL (.of_place rfl rfl (Piece.mem_anchors_of_node (by simp))
      (List.forall_mem_nil _) (by simp)) rfl

theorem opens_member (hL : L.Lawful) (base : Node) :
    L.Opens .plain [.node base] (member base) one := by
  intro before s hs huse
  unfold member
  rw [meets_advance]
  refine ((hs.skip hL huse).expectIdent hL).bind fun ident t hname => ?_
  dsimp only
  rw [meets_get]
  split
  · rename_i id hfind
    obtain ⟨scope, -, hfound⟩ := Option.bind_eq_some_iff.mp hfind
    obtain ⟨stored, hstored, hsame⟩ := hname.kept.sane.reached.consistent.name_of_findIn hfound
    rw [hstored]
    refine .pure (Has.dotted (hname.attach [.node base] hL hstored (fun i hi => ?_) _) hL)
    rw [name_of_ident? hi, hsame]
  · exact .pure (Has.dotted (hname.withRole [.node base] hL _) hL)

/-! ### Values -/

theorem yields_dictEntry (h : L.Circle r) : L.Yields (dictEntry r) (List.map .node) := by
  intro before s hs
  unfold dictEntry
  refine (Yields.require h.expression h.lawful _ hs).bind fun key t ht => ?_
  refine (ht.expectSkip h.lawful rfl _).bind fun colon u hu => ?_
  refine ((Yields.require h.expression h.lawful _).beside h.lawful hu).bind fun value v hv => ?_
  exact .pure hv

theorem opens_dict (h : L.Circle r) : L.Opens .plain [] (dict r) one := by
  intro before s hs huse
  have hL := h.lawful
  unfold dict
  rw [meets_advance]
  have hbrace : L.Has before [.token .plain s.current] s.advance := hs.advance hL huse
  refine (((yields_dictEntry h).commaList (yields_mark hL rfl) hL _ _).beside hL hbrace).bind
    fun found t ht => .pure ?_
  have hentries : found.1.flatMap (List.map Piece.node) = found.1.flatten.map .node := by
    rw [List.flatMap_def, List.map_flatten]
  rw [hentries] at ht
  exact ht.bracketed hL rfl rfl

theorem opens_list (h : L.Circle r) : L.Opens .plain [] (list r) one := by
  intro before s hs huse
  have hL := h.lawful
  unfold list
  rw [meets_advance]
  refine ((yields_expressions h _ rfl).beside hL (hs.advance hL huse)).bind fun found t ht =>
    .pure ?_
  exact ht.bracketed hL rfl rfl

theorem opens_parenthesized (h : L.Circle r) : L.Opens .plain [] (parenthesized r) one := by
  intro before s hs huse
  have hL := h.lawful
  unfold parenthesized
  rw [meets_advance]
  refine ((Yields.require h.expression hL _).beside hL (hs.advance hL huse)).bind
    fun inner t ht => ?_
  exact (ht.expect hL .plain rfl _).bind fun close u hu =>
    .pure (hu.make hL (.enclosed inner _ close) ((hu.bare inner (by simp [one])).congr rfl rfl))

theorem opens_newObject (h : L.Circle r) : L.Opens .shown [] (newObject r) one := by
  intro before s hs huse
  have hL := h.lawful
  unfold newObject
  rw [meets_advance]
  refine ((yields_requireType hL h.arguments _).beside hL (hs.advance hL huse)).bind fun type t ht => ?_
  refine (ht.eat hL .plain rfl).bind fun paren u hu => ?_
  cases paren with
  | some paren =>
    refine ((yields_expressions h _ rfl).beside hL hu).bind fun found v hv => .pure ?_
    exact hv.build hL (.of_token rfl rfl (by simp) (List.forall_mem_nil _)
      (by simp [listed, one, Form.use?])) (by simp [listed, one])
      (.ends (by simp [listed, one]) (by simp) (by simp [listed, List.getLast?_cons]))
  | none =>
    exact .pure (hu.branch hL (.of_token rfl rfl (by simp) (List.forall_mem_nil _)
      (by simp [one, Form.use?])) (by simp [one]))

/-- Invalid text is one node, which covers all of its tokens. -/
theorem Has.invalidRun (hs : L.Has before [] s) (hL : L.Lawful) (hat : s.isAt .invalid)
    (rounds : Nat) :
    Meets s (invalidRun rounds) (invalidRun rounds) (fun node => L.Has before (one node))
      (L.Fails before) := by
  generalize he : (⟨.invalidTokenSequence, s.current, some (.about s.current.describe)⟩ :
    SyntaxError) = e
  have habout : e.IsAbout .invalid s.current := he ▸ ⟨rfl, rfl, beq_iff_eq.mp hat⟩
  -- it makes no difference that the error is kept behind the first token
  have hnoted : L.Has before [.error e] (s.record e) :=
    hs.note hL (he ▸ hs.fit_current hL) fun _ hreason => by cases he; cases hreason
  have hcurrent : (s.record e).current = s.current := congrArg Lexer.token (s.lexer_record e)
  have hfirst := hnoted.junk hL (by rwa [State.isAt, hcurrent]) List.mem_cons_self
  rw [hcurrent, State.advance_record] at hfirst
  unfold Grammar.invalidRun
  rw [meets_advance, meets_record, he]
  -- the spans are those of the tokens in hand behind the first one
  refine (meets_loop (P := fun spans t => ∃ ts : List Token, spans = ts.map Token.span ∧
      L.Has before ([.error e, .token .plain s.current] ++ ts.map (.token .plain)) t)
    (Q := fun spans t => ∃ ts : List Token, spans = ts.map Token.span ∧
      L.Has before ([.error e, .token .plain s.current] ++ ts.map (.token .plain)) t)
    (fun spans t ht => ?_) (fun spans t ht => ?_) rounds [] ⟨[], rfl, hfirst⟩).bind
    fun spans t ht => .pure ?_
  · obtain ⟨ts, rfl, hhas⟩ := ht
    rw [meets_get]
    split
    · rename_i hmore
      rw [meets_advance]
      refine .pure ⟨ts ++ [t.current], by simp, ?_⟩
      rw [List.map_append, ← List.append_assoc]
      exact hhas.junk hL (Bool.and_eq_true_iff.mp hmore).1 (e := e) (by simp)
    · exact .pure ⟨ts, rfl, hhas⟩
  · obtain ⟨ts, -, hhas⟩ := ht
    exact hhas.fails hL _ _
  · obtain ⟨ts, rfl, hhas⟩ := ht
    have htoken : .token .plain s.current ∈
        [.error e, .token .plain s.current] ++ ts.map (Piece.token .plain) := by simp
    exact hhas.build hL (.of_isLeaf rfl rfl (Piece.mem_anchors_of_token htoken)
      (fun use huse => absurd huse (Option.not_mem_none use)) (by simp)
      (fun _ hi => Form.noConfusion hi) (by simp) (.faulty (e := e) (by simp) habout))
      (by simp) (.each (by simp +contextual) (by simp))

theorem opens_nameValue (h : L.Circle r) : L.Opens .name [] (nameValue r) one := by
  intro before s hs huse
  have hL := h.lawful
  have hnamed : L.Has before ([] ++ [.node (s.bindName s.current)]) s.advance :=
    (hs.advance hL huse).bindName hL s.symbols_advance.symm
  unfold nameValue
  rw [meets_get, meets_advance]
  dsimp only
  rw [meets_isAt]
  split
  · rename_i hgeneric
    refine (hnamed.genericArguments hL h.arguments (Bool.and_eq_true_iff.mp hgeneric).2).bind
      fun found t ht => ?_
    cases found with
    | none => exact .pure ht
    | some found =>
      dsimp only
      rw [meets_isAt]
      split
      · rename_i hparen
        exact opens_call h _ _ (by simp [angled, listed]) (by simp [angled, listed, Form.leavesOut]) ht
          (allows_of_isAt hparen rfl)
      · refine .pure (ht.build hL ⟨rfl, Piece.mem_anchors_of_node (by simp), fun use huse => ?_,
          List.forall_mem_nil _, by simp [angled, listed, Form.leavesOut], .inr ⟨?_, ?_⟩,
          fun _ hi => Form.noConfusion hi, fun _ hk => ?_, .proper rfl⟩ (by simp [angled, listed])
          (.ends (by simp [angled, listed]) (by simp)
            (by simp [angled, listed, List.getLast?_cons])))
        · cases huse
        · exact ⟨.node (s.bindName s.current), _, rfl, .inl rfl⟩
        · exact ⟨.node (s.bindName s.current) :: .token .angle s.advance.current :: found.1.map .node,
            .token .angle found.2, by simp [angled, listed],
            .inr ⟨.angle, found.2, rfl, .inr (by simp)⟩⟩
        · cases hk
          simp [angled, listed]
          omega
  · exact .pure hnamed

theorem Has.valueAt (hs : L.Has before [] s) (h : L.Circle r) :
    Meets s (valueAt r s.current.kind) (valueAt r s.current.kind)
      (fun found => L.Has before (maybe found)) (L.Fails before) := by
  have hL := h.lawful
  generalize hkind : s.current.kind = kind
  have hallows {use : Use} (huse : use.allows kind) : use.allows s.current.kind := hkind ▸ huse
  unfold Grammar.valueAt
  split
  · exact .map (opens_nameValue h hs (hallows rfl))
  · exact .map (opens_newObject h hs (hallows rfl))
  · exact .map (h.lambda hs hkind)
  · split
    · rename_i htype
      exact .map (opens_nameValue h hs (hallows (name_of_isWord htype)))
    · exact .pure hs
  · exact .map (opens_parenthesized h hs (hallows rfl))
  · exact .map (opens_list h hs (hallows rfl))
  · exact .map (opens_dict h hs (hallows rfl))
  · exact .map (hs.invalidRun hL (beq_iff_eq.mpr hkind) _)
  · split
    · rename_i hliteral
      rw [← hkind] at hliteral
      refine .map (.result _ _ rfl rfl ?_)
      have htoken : L.Has before [.token .shown s.current] s.advance :=
        hs.advance hL (shown_of_isLiteral hliteral)
      exact htoken.make hL (.literal hliteral) (isBare_build _ _ _ _ _)
    · exact .pure hs

/-- The name that waits is the first value. -/
theorem takes_value (h : L.Circle r) : L.Takes (value r) maybe := by
  intro before s hs
  unfold value
  rw [meets_get]
  cases hname : s.lookaside with
  | some name =>
    dsimp only
    rw [meets_set]
    exact .pure (hs.unstash h.lawful hname)
  | none => exact Has.valueAt (hs.has hname) h

theorem turns_postfixRound (h : L.Circle r) (node : Node) :
    L.Turns (one node) (postfixRound r node) (Sum.elim one one) := by
  intro before s hs
  unfold postfixRound
  rw [meets_current]
  generalize hkind : s.current.kind = kind
  have hallows (huse : Use.plain.allows kind) : Use.plain.allows s.current.kind := hkind ▸ huse
  split
  · exact .map (opens_call h node [] rfl (by simp) hs (hallows rfl))
  · exact .map (opens_subscript h node hs (hallows rfl))
  · exact .map (opens_member h.lawful node hs (hallows rfl))
  · exact .pure hs

theorem takes_postfixed (h : L.Circle r) : L.Takes (postfixed r) maybe := by
  intro before s hs
  unfold postfixed
  refine (takes_value h hs).bind fun found t ht => ?_
  cases found with
  | none => exact .pure ht
  | some node => exact .map (Turns.loop one h.lawful (turns_postfixRound h) r.rounds node ht)

/-! ### Operators with one operand -/

/-- An operator before its operand, or what binds tighter. -/
theorem Takes.orAfter (hinner : L.Yields inner maybe) (hnext : L.Takes next maybe) (hL : L.Lawful)
    (hform : form.isSimple) (hshown : form.use? = some .shown)
    (haccepts : ∀ k, accepts k → Use.shown.allows k) :
    L.Takes (do
      match ← Grammar.operatorBefore accepts with
      | some op => return some (.branch form op [← Grammar.operand inner])
      | none => next) maybe := by
  intro before s hs
  refine (hs.operatorBefore hL haccepts).bind fun found t ht => ?_
  cases found with
  | some op =>
    refine ((hinner.operand hL).beside hL ht).bind fun node u hu => .pure ?_
    exact hu.branch hL (.of_token hform hshown (by simp) (List.forall_mem_nil _)
      (by simp [one, hshown])) rfl
  | none => exact hnext ht

theorem takes_invert (h : L.Circle r) : L.Takes (invert r) maybe :=
  Takes.orAfter h.invert (takes_postfixed h) h.lawful rfl rfl fun k hk => by
    rcases Bool.or_eq_true_iff.mp hk with hk | hk
    · exact shown_of_opClass (beq_iff_eq.mp hk)
    · rw [beq_iff_eq.mp hk]
      rfl

theorem takes_deref (h : L.Circle r) : L.Takes (deref r) maybe :=
  Takes.orAfter h.deref (takes_invert h) h.lawful rfl rfl fun k hk => by
    rw [beq_iff_eq.mp hk]
    rfl

theorem turns_stepRound (hL : L.Lawful) (node : Node) :
    L.Turns (one node) (stepRound node) (Sum.elim one one) := by
  intro before s hs
  unfold stepRound
  rw [meets_get]
  split
  · rename_i hstep
    have hshown := shown_of_opClass (beq_iff_eq.mp (Bool.and_eq_true_iff.mp hstep).1)
    rw [meets_advance]
    exact .pure ((hs.advance hL hshown).branch hL (.of_token rfl rfl (by simp)
      (List.forall_mem_nil _) (by simp [one, Form.use?])) rfl)
  · exact .pure hs

theorem takes_steps (h : L.Circle r) : L.Takes (steps r) maybe := by
  refine Takes.orAfter h.steps (fun before s hs => ?_) h.lawful rfl rfl
    fun k hk => shown_of_opClass (beq_iff_eq.mp hk)
  refine (takes_deref h hs).bind fun found t ht => ?_
  cases found with
  | some node =>
    exact .map (Turns.loop one h.lawful (turns_stepRound h.lawful) r.rounds node ht)
  | none => exact .pure ht

/-! ### Operators with two operands -/

/-- The operator stands between its operands. -/
theorem Takes.operatorRound (hnext : L.Takes next maybe) (hL : L.Lawful)
    (hcombine : ∀ left op right,
      L.Turns [.node left, .token .shown op, .node right] (combine left op right) one)
    (cls : Operator.Class) (left : Node) :
    L.Turns (one left) (operatorRound cls next combine left) (Sum.elim one one) := by
  intro before s hs
  unfold Grammar.operatorRound
  rw [meets_current]
  split
  · rename_i hclass
    have hshown := shown_of_opClass (beq_iff_eq.mp hclass)
    rw [meets_advance]
    refine ((hnext.yields.operand hL).beside hL (hs.advance hL hshown)).bind fun right t ht => ?_
    exact .map (hcombine left _ right ht)
  · exact .pure hs

theorem Takes.level (hnext : L.Takes next maybe) (hL : L.Lawful)
    (hcombine : ∀ left op right,
      L.Turns [.node left, .token .shown op, .node right] (combine left op right) one)
    (rounds : Nat) (cls : Operator.Class) : L.Takes (level rounds cls next combine) maybe := by
  intro before s hs
  unfold Grammar.level
  refine (hnext hs).bind fun found t ht => ?_
  cases found with
  | none => exact .pure ht
  | some left =>
    exact .map (Turns.loop one hL (hnext.operatorRound hL hcombine cls) rounds left ht)

theorem turns_binary (hL : L.Lawful) (left : Node) (op : Token) (right : Node) :
    L.Turns [.node left, .token .shown op, .node right] (binary left op right) one :=
  fun _ _ hs => .pure (hs.branch hL (.of_token rfl rfl (by simp) (List.forall_mem_nil _)
    (by simp [Form.use?])) rfl)

theorem takes_shift (h : L.Circle r) : L.Takes (shift r) maybe := by
  have hbinary := turns_binary h.lawful
  exact (((takes_steps h).level h.lawful hbinary _ .multiplicative).level h.lawful hbinary _
    .additive).level h.lawful hbinary _ .shift

theorem takes_bitwise (h : L.Circle r) : L.Takes (bitwise r) maybe :=
  (takes_shift h).level h.lawful (turns_binary h.lawful) _ .bitwise

theorem turns_comparison (h : L.Circle r) (left : Node) (op : Token) (right : Node) :
    L.Turns [.node left, .token .shown op, .node right] (comparison r left op right) one := by
  intro before s hs
  unfold comparison
  rw [meets_current]
  split
  · rename_i hchains
    rw [meets_advance]
    refine (((takes_bitwise h).yields.operand h.lawful).beside h.lawful
      (hs.advance h.lawful (shown_of_chains hchains))).bind fun upper t ht => .pure ?_
    exact ht.build h.lawful (.of_token rfl rfl (by simp) (by simp)
      (by simp [one, Form.use?])) rfl (.ends (by simp [one]) (by simp) (by simp [one]))
  · exact turns_binary h.lawful left op right hs

theorem takes_logical (h : L.Circle r) : L.Takes (logical r) maybe :=
  ((takes_bitwise h).level h.lawful (turns_comparison h) _ .relational).level h.lawful
    (turns_binary h.lawful) _ .logical

/-! ### Assignment -/

theorem turns_assignment (hL : L.Lawful) (target : Node) (op : Token) (value : Node) :
    L.Turns [.node target, .token .shown op, .node value] (assignment target op value) one := by
  intro before s hs
  have hnode {xs : List Piece} {t : State} (ht : L.Has before xs t)
      (hop : .token .shown op ∈ xs) (hused : Piece.AllUsed .assignment op [] xs)
      (hsound : Sound xs .assignment op) (hchildren : Piece.nodes xs = [target, value]) :
      L.Has before [.node (.branch .assignment op [target, value])] t := by
    refine ht.branch hL (.of_isOpen rfl (Piece.mem_anchors_of_token hop) (fun use huse => ?_)
      (List.forall_mem_nil _) hused hsound) hchildren
    cases huse
    exact hop
  unfold assignment
  split
  · rw [meets_record]
    have hop : Piece.token .shown op ∈ [Piece.node target, .token .shown op, .node value] := by simp
    have hnoted := hs.note hL (e := ⟨.invalidAssignment, op, none⟩)
      (hs.fit hL (Piece.mem_anchors_of_token hop)) fun _ hreason => by cases hreason
    exact .pure (hnode hnoted (by simp) (by simp [Form.use?])
      (.faulty (e := ⟨.invalidAssignment, op, none⟩) (by simp) ⟨rfl, rfl⟩) (by simp))
  · rename_i hassignable
    rw [Bool.not_eq_true', Bool.not_eq_false] at hassignable
    exact .pure (hnode hs (by simp) (by simp [Form.use?]) (.target rfl (by simpa using hassignable)) rfl)

/-- **Expressions** keep to the survey. -/
theorem takes_expression (h : L.Circle r) : L.Takes (expression r) maybe := by
  intro before s hs
  unfold expression
  refine (takes_logical h hs).bind fun found t ht => ?_
  cases found with
  | none => exact .pure ht
  | some target =>
    dsimp only
    rw [meets_current]
    split
    · rename_i hclass
      have hshown := shown_of_opClass (beq_iff_eq.mp hclass)
      rw [meets_advance]
      refine ((h.expression.operand h.lawful).beside h.lawful (ht.advance h.lawful hshown)).bind
        fun value u hu => ?_
      exact .map (turns_assignment h.lawful target _ value hu)
    · exact .pure ht

end Survey

end SableFront.Grammar
