import SableFront.Grammar.Statement
import SableFront.Proofs.Survey.Expression

/-!
# Surveys: blocks, signatures and lambdas

Signatures are made from what was read of them. Lists of statements are left to the circles, which
are assumed to keep to the survey here, and to read to the end of the list if the survey asks for it.
-/

namespace SableFront.Grammar

open Node

variable {L : Survey} {r : Rules} {before xs ys zs : List Piece} {s t u : State} {node : Node}
  {token : Token} {id : SymbolId} {use : Use} {context : Context} {found : List Node}

/-- The nodes of a signature. -/
def Signature.nodes (sig : Signature) : List Node := sig.params :: sig.returns.toList

/-- A signature in hand. -/
def Signature.pieces (sig : Signature) : List Piece := sig.nodes.map .node

namespace Survey

/-- The nodes of a list lie behind the others, and if it has to be, the list has ended where it
should. -/
structure Ended (L : Survey) (context : Context) (before : List Piece) (found : List Node)
    (s : State) : Prop where
  laid : L.Laid before (found.map .node) s
  ends : L.Strict → endsItems context s ∧ s.comments = []

/-- The circles keep to the survey. -/
structure Keeps (L : Survey) (r : Rules) : Prop extends Links L r where
  complete : L.Complete
  statement : L.Yields r.statement maybe
  items : ∀ (context : Context) ⦃before s⦄, L.Has before [] s →
    L.Ended context before (r.items context s).1 (r.items context s).2

/-- All circles keep to the survey, and so do attempts at generic arguments. -/
structure Trusted (L : Survey) (r : Rules) : Prop extends Keeps L r where
  arguments : L.KeepsArguments r

/-! ### Blocks -/

/-- A block is made from what lies behind its brace. If there is no brace behind that, the error about
it is kept in mind. -/
theorem Laid.block {ys : List Piece} {close : Option Token} (h : L.Laid before
    (.token .plain token :: (found.map .node ++ ys)) s) (hL : L.Lawful)
    (hys : Piece.nodes ys = []) (hused : Piece.AllUsed (.block close.isSome) token [] ys)
    (hclose : ∀ t ∈ close, t.span ∈ Piece.spans ys)
    (hsound : close = none → ∃ e, .error e ∈ ys ∧ e.IsAbout (.block false) token) :
    L.Has before [.node (.build (.block close.isSome) token found []
      (found.map span ++ (close.map Token.span).toList))] s := by
  have hanchor : .token .plain token ∈ Piece.token .plain token :: (found.map .node ++ ys) :=
    List.mem_cons_self
  refine h.build hL (.of_isOpen rfl (Piece.mem_anchors_of_token hanchor)
    (fun use huse => absurd huse (Option.not_mem_none use)) (List.forall_mem_nil _)
    (by simp [hused]) ?_) (by simp [hys]) (.each (fun u hu => ?_) fun n hn => ?_)
  · cases close with
    | some close => exact .proper rfl
    | none =>
      obtain ⟨e, he, habout⟩ := hsound rfl
      exact .faulty (e := e) (by simp [he]) habout
  · rw [Piece.spans_cons_token, Piece.spans_append, Piece.spans_map_node]
    refine List.mem_cons_of_mem _ (List.mem_append.mpr ((List.mem_append.mp hu).imp_right fun hu => ?_))
    obtain ⟨t, ht, rfl⟩ := Option.map_eq_some_iff.mp (Option.mem_toList.mp hu)
    exact hclose t ht
  · have hmem := Piece.mem_nodes.mpr hn
    simp only [Piece.nodes_cons_token, Piece.nodes_append, Piece.nodes_map_node, hys,
      List.append_nil] at hmem
    exact List.mem_append_left _ (List.mem_map_of_mem hmem)

theorem Has.block (hs : L.Has before [] s) (h : L.Keeps r) (hat : s.isAt (.punctuation .lBrace))
    {enter : SymbolTable → SymbolTable} (op : SymbolTable.Operation) (hop : op.IsFor s.symbols)
    (henter : enter s.symbols = op.apply s.symbols) (context : Context) :
    Meets s (block r enter context) (block r enter context) (fun node => L.Has before [.node node])
      (L.Fails before) := by
  have hL := h.lawful
  have hbrace : L.Has before [.token .plain s.current] s.advance :=
    hs.advance hL (allows_of_isAt hat rfl)
  rw [← s.symbols_advance] at hop henter
  unfold Grammar.block
  rw [meets_advance]
  have hlist := meets_inScope_laid (p := (r.items context : Production (List Node)))
    (R := fun found ys t => ys = found.map .node ∧ (L.Strict → endsItems context t ∧ t.comments = []))
    hL (fun _ _ _ _ hR => hR) (fun _ _ ht => .result _ _ rfl rfl
      ⟨_, ⟨rfl, (h.items context ht).ends⟩, (h.items context ht).laid⟩) hbrace.aside op hop henter
  refine (hlist.mono (fun _ _ ht => ht) fun _ _ he => he.drop hL).bind fun statements t ht => ?_
  obtain ⟨_, ⟨rfl, hends⟩, ht⟩ := ht
  have heat := outcome_eat t (.punctuation .rBrace)
  split at heat
  · rename_i hclosed
    rw [meets_step heat heat]
    have hclose : L.Has (before ++ [.token .plain s.current] ++ statements.map .node)
        [.token .plain t.current] t.advance := ht.aside.advance hL (allows_of_isAt hclosed rfl)
    refine .pure (hclose.toLaid.pickUp.pickUp.block hL ?_ ?_ ?_ ?_)
    all_goals simp
  · rename_i hopen
    rw [meets_step heat heat, if_pos Option.isNone_none, meets_get, meets_record]
    have hnoted := ht.aside.note hL (e := t.error .missingBlock (some .unclosedBrace))
      (ht.aside.fit_current hL) fun hstrict _ => ?_
    · refine .pure (hnoted.toLaid.pickUp.pickUp.block hL ?_ ?_ ?_ ?_)
      · simp
      · simp
      · simp
      · exact fun _ => ⟨_, List.mem_cons_self, rfl, rfl⟩
    · have hend := (hends hstrict).1
      rw [endsItems, Bool.or_eq_true, Bool.and_eq_true] at hend
      exact hend.resolve_right fun hbrace => hopen hbrace.2

theorem yields_body (h : L.Keeps r) : L.Yields (body r) one := by
  intro before s hs
  unfold body
  rw [meets_isAt]
  split
  · rename_i hat
    exact hs.block h hat .push trivial rfl .block
  · exact .fail (hs.fails h.lawful _ _)

/-! ### Parameters -/

/-- A default is in hand with the equals sign before it. -/
theorem Has.defaultValue (hs : L.Has before xs s) (h : L.Keeps r) :
    Meets s (defaultValue r) (defaultValue r)
      (fun found => L.Has before
        (xs ++ found.elim [] fun value => [.token .equals s.current, .node value]))
      (L.Fails before) := by
  have hrun := outcome_eat s (.operator .eq)
  unfold Grammar.defaultValue
  split at hrun
  · rename_i hat
    rw [meets_step hrun hrun]
    dsimp only
    have hequals : L.Has before (xs ++ [.token .equals s.current]) s.advance :=
      hs.advance h.lawful (allows_of_isAt hat rfl)
    refine ((h.expression.operand h.lawful).beside h.lawful hequals).bind fun value t ht => .pure ?_
    rw [List.append_assoc] at ht
    exact ht
  · rw [meets_step hrun hrun]
    exact .pure ((List.append_nil xs).symm ▸ hs)

theorem yields_param (h : L.Trusted r) : L.Yields (param r) one := by
  intro before s hs
  have hL := h.lawful
  unfold param
  refine (turns_typeRef hL h.arguments none hs).bind fun type t ht => ?_
  cases type with
  | none =>
    dsimp only
    rw [meets_current]
    exact .failFor (ht.fails hL _ _)
  | some type =>
    refine (ht.expectIdent hL).bind fun ident u hname => ?_
    dsimp only
    rw [meets_get]
    refine (hname.declare _ hL hname.current_lt (fun i hi => name_of_ident? hi) rfl _).bind
      fun found v hv => ?_
    refine (hv.1.defaultValue h.toKeeps).bind fun default w hw => .pure ?_
    have htoken : found.1.token = ident.2 := hv.2
    have hanchor (ps : List Piece) :
        ident.2 ∈ Piece.anchors ([.node type] ++ declared found ++ ps) := by
      rw [← htoken]
      exact Piece.mem_anchors_of_node (by simp [declared])
    cases default with
    | none =>
      exact hw.branch hL (.of_place rfl rfl (hanchor _) (List.forall_mem_nil _)
        (by simp [one, declared])) (by simp [one, declared])
    | some default =>
      refine hw.branch hL ⟨rfl, hanchor _, fun use huse => ?_, List.forall_mem_nil _, ?_, .inr ?_,
        fun _ hi => Form.noConfusion hi, (fun _ hk => by cases hk), .proper rfl⟩
        (by simp [one, declared])
      · cases huse
      · simp [one, declared, Form.leavesOut]
      · exact ⟨⟨.node type, _, rfl, .inl rfl⟩, ⟨[.node type] ++ declared found ++
          [.token .equals v.current], .node default, by simp [one], .inl rfl⟩⟩

theorem yields_params (h : L.Trusted r) : L.Yields (params r) one := by
  intro before s hs
  have hL := h.lawful
  unfold params
  refine (hs.expect hL .plain rfl _).bind fun paren t ht => ?_
  refine (((yields_param h).commaNodes (yields_mark hL rfl) hL r.rounds _).beside hL ht).bind
    fun found u hu => .pure ?_
  exact hu.build hL (.of_place rfl rfl (Piece.mem_anchors_of_token List.mem_cons_self)
    (List.forall_mem_nil _) (by simp [listed])) (by simp [listed])
    (.ends (by simp [listed]) (by simp) (by simp [listed, List.getLast?_cons]))

/-! ### Signatures -/

theorem yields_signature (h : L.Trusted r) : L.Yields (signature r) Signature.pieces := by
  intro before s hs
  have hL := h.lawful
  unfold signature
  refine (yields_params h hs).bind fun params t ht => ?_
  refine (ht.eat hL .plain rfl).bind fun arrow u hu => ?_
  cases arrow with
  | some arrow =>
    refine ((yields_requireType hL h.arguments .missingReturnType).beside hL hu).bind fun type v hv => .pure ?_
    have hall : L.Has before ([.node params] ++ [.token .plain arrow, .node type]) v := hv
    have hreturns := hall.putDown
    exact (hreturns.branch hL (.of_place rfl rfl (Piece.mem_anchors_of_token List.mem_cons_self)
      (List.forall_mem_nil _) (by simp)) rfl).pickUp hall.bare_left
  | none => exact .pure hu

/-- What a callable returns may be told to the symbol in hand. -/
theorem turns_signatureAndBody (h : L.Trusted r) (id : Option SymbolId) :
    L.Turns (id.toList.map .symbol) (signatureAndBody r id)
      fun found => found.1.pieces ++ [.node found.2] := by
  intro before s hs
  have hL := h.lawful
  unfold signatureAndBody
  refine ((yields_signature h).beside hL hs).bind fun sig t ht => ?_
  have hbody {u : State} (hu : L.Has before (id.toList.map .symbol ++ sig.pieces) u) :
      Meets u (body r >>= fun body => pure (sig, body)) (body r >>= fun body => pure (sig, body))
        (fun found => L.Has before (found.1.pieces ++ [.node found.2])) (L.Fails before) := by
    refine ((yields_body h.toKeeps).beside hL hu).bind fun body v hv => .pure ?_
    rw [List.append_assoc] at hv
    refine hv.tidy hL (.right fun p hp => ?_)
    obtain ⟨_, -, rfl⟩ := List.mem_map.mp hp
    rfl
  cases id with
  | some id =>
    dsimp only
    rw [meets_modify]
    have hid : (SymbolTable.Operation.setReturns id sig.returnType).IsFor t.symbols :=
      ht.symbol_lt (by simp)
    exact hbody (ht.operate hL hid)
  | none => exact hbody ht

theorem Trusted.keepsLambda (h : L.Trusted r) : L.KeepsLambda r := by
  intro before s hs hkind
  have hL := h.lawful
  have hshown : Use.shown.allows s.current.kind := hkind ▸ rfl
  have hkeyword : L.Has before [.token .shown s.current] s.advance := hs.advance hL hshown
  unfold lambda
  rw [meets_advance]
  refine (Yields.beside ((turns_signatureAndBody h none).inNewScope hL) hL hkeyword).bind
    fun found t ht => .pure ?_
  exact ht.build hL (.of_token rfl rfl List.mem_cons_self (List.forall_mem_nil _)
    (by simp [Signature.pieces, Form.use?])) (by simp [Signature.pieces, Signature.nodes])
    (.ends (by simp) (by simp) (by simp [List.getLast?_cons]))

/-- Where attempts keep to the survey, all expressions do. -/
theorem Trusted.circle (h : L.Trusted r) : L.Circle r := ⟨h.toLinks, h.keepsLambda, h.arguments⟩

end Survey

end SableFront.Grammar
