import SableFront.Grammar.Callable
import SableFront.Proofs.Survey.Contract
import SableFront.Proofs.Rollback.Table

/-!
# Surveys: names and types

Names are bound to what the table has under them, and types are made from what was read of them.
Lambdas and attempts at generic arguments are left open here, because a survey may know that no
lambda can come, and because an attempt may go back. Where reading may go back, an attempt that is
given up leaves the hand as it was.
-/

namespace SableFront.Grammar

open Node

variable {L : Survey} {r : Rules} {before xs ys zs : List Piece} {s u : State} {node : Node}
  {token : Token} {id : SymbolId} {use : Use}

/-- A name in hand, with its symbol if that is new. -/
def declared (found : Node × Option SymbolId) : List Piece :=
  .node found.1 :: found.2.toList.map .symbol

/-- The nodes of a list of generics in hand, with the tokens around it. -/
def angled (opening : Token) (found : List Node × Token) : List Piece :=
  .token .angle opening :: listed .angle found

theorem allows_of_isAt {k : Kind} (hat : s.isAt k) (hk : use.allows k) :
    use.allows s.current.kind := by
  rw [beq_iff_eq.mp hat]
  exact hk

/-- What is read of a type behind its storage keyword in hand: its name, generics and modifiers. -/
def spelled (name : Node) (opening : Token) (args : Option (List Node × Token))
    (marks : List Token) : List Piece :=
  [.node name] ++ args.elim [] (angled opening) ++ marks.map (.token .shown)

/-- The type reference that is made from a storage keyword and what is read behind it. -/
def referring (storage : Option Node) (name : Node) (args : Option (List Node × Token))
    (marks : List Token) (type : SymbolType) : Node :=
  .build (.typeRef storage.isSome ((args.map (·.1)).getD []).length type) name.token
    (storage.toList ++ name :: (args.map (·.1)).getD []) marks
    ((storage.toList ++ [name]).map span ++ (args.map (·.2.span)).toList)

namespace Survey

/-- The circles of expressions keep to the survey. -/
structure Links (L : Survey) (r : Rules) : Prop where
  lawful : L.Lawful
  expression : L.Yields r.expression maybe
  shift : L.Yields r.shift maybe
  steps : L.Yields r.steps maybe
  deref : L.Yields r.deref maybe
  invert : L.Yields r.invert maybe
  typeRef : L.Yields r.typeRef maybe

/-- Attempts at generic arguments keep to the survey. -/
def KeepsArguments (L : Survey) (r : Rules) : Prop :=
  ∀ ⦃before s⦄, L.Has before [] s → s.isAt (.operator .lt) →
    Meets s (genericArguments r) (genericArguments r)
      (fun found => L.Has before (found.elim [] (angled s.current))) (L.Fails before)

/-- Lambdas keep to the survey. -/
def KeepsLambda (L : Survey) (r : Rules) : Prop :=
  ∀ ⦃before s⦄, L.Has before [] s → s.current.kind = .keyword .functionKw →
    Meets s (lambda r) (lambda r) (fun node => L.Has before (one node)) (L.Fails before)

/-- The circles keep to the survey, and so do lambdas and attempts at generic arguments. -/
structure Circle (L : Survey) (r : Rules) : Prop extends Links L r where
  lambda : L.KeepsLambda r
  arguments : L.KeepsArguments r

/-! ### Names -/

/-- What a name in hand is bound to may be changed. -/
theorem Has.bind (ys : List Piece) (h : L.Has before (ys ++ .node node :: zs) s) (hL : L.Lawful)
    {f : Ident → Ident}
    (hf : ∀ i, node.ident? = some i → i.Coherent s.symbols → (f i).Coherent s.symbols)
    (hname : ∀ i, (f i).name = i.name) :
    L.Has before (ys ++ .node (node.modifyIdent f) :: zs) s := by
  have hall : L.Has before (ys ++ ([.node node] ++ zs)) s := h
  exact hall.makeIn ys hL (.bound hf hname) ((h.bare node (by simp)).congr rfl rfl)

/-- The role of a name does not matter. -/
theorem Has.withRole (ys : List Piece) (h : L.Has before (ys ++ .node node :: zs) s)
    (hL : L.Lawful) (role : Role) : L.Has before (ys ++ .node (node.withRole role) :: zs) s :=
  h.bind ys hL (fun _ _ hi => hi.congr rfl rfl rfl) fun _ => rfl

/-- A name in hand is bound to a symbol of that name. -/
theorem Has.attach (ys : List Piece) (h : L.Has before (ys ++ .node node :: zs) s) (hL : L.Lawful)
    {symbol stored : Symbol} (hstored : s.symbols.symbol? id = some stored)
    (hname : ∀ i, node.ident? = some i → i.name = stored.name) (role : Role) :
    L.Has before (ys ++ .node (node.attach id symbol role) :: zs) s := by
  refine h.bind ys hL (fun i hi _ => ⟨fun other hother => ?_, fun _ => rfl⟩) fun _ => rfl
  cases hother
  exact ⟨stored, hstored, (hname i hi).symm⟩

/-- A name in hand that is bound to a symbol may introduce it. -/
theorem Has.attachDeclared (ys : List Piece) (h : L.Has before (ys ++ .node node :: zs) s)
    (hL : L.Lawful) {symbol stored : Symbol} (hstored : s.symbols.symbol? id = some stored)
    (hname : ∀ i, node.ident? = some i → i.name = stored.name) (role : Role) :
    L.Has before (ys ++ .node (node.attach id symbol role).declared :: zs) s := by
  refine (h.attach ys hL hstored hname role).bind ys hL (fun i hi hcoherent =>
    ⟨hcoherent.symbol, fun _ => ?_⟩) fun _ => rfl
  unfold Node.attach at hi
  rw [ident?_modifyIdent] at hi
  obtain ⟨j, -, rfl⟩ := Option.map_eq_some_iff.mp hi
  rfl

theorem name_of_ident? {text : String} {i : Ident} (h : (Node.name text token).ident? = some i) :
    i.name = text := congrArg Ident.name (Option.some.inj h).symm

/-- A token in hand becomes a name that is bound to what it means. -/
theorem Has.bindName (h : L.Has before (ys ++ [.token .name token]) s) (hL : L.Lawful)
    (hu : u.symbols = s.symbols) : L.Has before (ys ++ [.node (u.bindName token)]) s := by
  have hname := h.name hL rfl
  unfold State.bindName
  dsimp only
  rw [hu]
  split
  · rename_i id hfind
    split
    · rename_i symbol hsymbol
      obtain ⟨stored, hstored, hsame⟩ :=
        hname.kept.sane.reached.consistent.name_of_findFrom hfind
      refine hname.attach ys hL hstored (fun i hi => ?_) _
      rw [name_of_ident? hi, hsame]
    · exact hname
  · exact hname

/-- A name in hand is declared in a scope of the table. -/
theorem Has.declare (ys : List Piece) (hs : L.Has before (ys ++ [.node node]) s) (hL : L.Lawful)
    {symbol : Symbol} {scope : ScopeId} (hscope : scope < s.symbols.scopes.size)
    (hname : ∀ i, node.ident? = some i → i.name = symbol.name) (hmembers : symbol.members = none)
    (role : Role) :
    Meets s (declare node symbol scope role) (declare node symbol scope role)
      (fun found t => L.Has before (ys ++ declared found) t ∧ found.1.token = node.token)
      (L.Fails before) := by
  have hop : (SymbolTable.Operation.addIn scope symbol).IsFor s.symbols := by
    refine ⟨hscope, fun m hm => ?_⟩
    rw [hmembers] at hm
    cases hm
  unfold Grammar.declare
  rw [meets_get]
  cases hadd : s.symbols.addIn scope symbol with
  | ok added =>
    dsimp only
    rw [meets_set]
    have htable : (SymbolTable.Operation.addIn scope symbol).apply s.symbols = added.2 := by
      simp only [SymbolTable.Operation.apply, hadd]
    have hadded := hs.operate hL hop
    rw [htable] at hadded
    obtain ⟨hlt, hstored⟩ := SymbolTable.symbol?_of_addIn hadd
    have hbound : L.Has before (ys ++ [.node (node.attach added.1 symbol role).declared])
        { s with symbols := added.2 } := hadded.attachDeclared ys hL hstored hname role
    refine .pure ⟨?_, rfl⟩
    have hall := hbound.mindSymbol hL hlt
    rwa [List.append_assoc] at hall
  | error e =>
    dsimp only
    rw [meets_record]
    have hfit : L.Fit node.token := hs.fit hL (Piece.mem_anchors_of_node (by simp))
    obtain ⟨-, hfind⟩ := SymbolTable.addIn_error_iff.mp hadd
    obtain ⟨stored, hstored, hsame⟩ := hs.kept.sane.reached.consistent.name_of_findIn hfind
    rw [hstored]
    refine .pure ⟨(hs.attach ys hL hstored (fun i hi => ?_) role).record hL hfit, rfl⟩
    rw [hname i hi, hsame]

/-! ### Types -/

/-- A token that names something is a word. -/
theorem isWord_of_name? {t : Token} {name : String} (h : t.name? = some name) : t.kind.isWord := by
  unfold Token.name? at h
  split at h
  · rename_i hkind
    rw [hkind]
    rfl
  · rename_i k hkind
    rw [hkind]
    exact (Option.ite_none_right_eq_some.mp h).1
  · cases h

/-- A word may be taken in hand as a name. -/
theorem name_of_isWord {k : Kind} (h : k.isWord) : Use.name.allows k := by
  cases k
  case invalid | punctuation => cases h
  all_goals exact h

theorem isWord_of_atTypeName (h : s.atTypeName) : s.current.kind.isWord := by
  unfold State.atTypeName State.currentSymbol? at h
  cases hname : s.current.name? with
  | some name => exact isWord_of_name? hname
  | none =>
    rw [hname] at h
    cases h

theorem yields_angle (hL : L.Lawful) :
    L.Yields angle.close fun found => found.toList.map (.token .angle) := by
  intro before s hs
  change Meets s closeAngle closeAngle _ _
  unfold closeAngle
  rw [meets_current]
  split
  · rename_i hangle
    rw [meets_modify, meets_advance]
    exact .pure (hs.closeAngle hL hangle)
  · exact .pure hs

theorem yields_genericArgument (h : L.Links r) : L.Yields (genericArgument r) one := by
  intro before s hs
  unfold genericArgument
  rw [meets_get]
  split
  · exact Yields.require h.typeRef h.lawful _ hs
  · exact Yields.require h.shift h.lawful _ hs

/-- What stands between the angles of generic arguments. -/
theorem yields_argumentList (h : L.Links r) :
    L.Yields (commaList r.rounds angle (fun _ => .missingComma) (genericArgument r))
      (listed .angle) :=
  (yields_genericArgument h).commaNodes (yields_angle h.lawful) h.lawful r.rounds _

/-- **Attempts at generic arguments** keep to the survey where reading may go back from the lists that
cannot be read. -/
theorem Links.keepsArguments (h : L.Links r) {R : State → State → Prop} (hback : L.GoesBack R)
    (hread : ∀ ⦃before s⦄, L.Has before [] s → s.isAt (.operator .lt) →
      Meets s.advance (commaList r.rounds angle (fun _ => .missingComma) (genericArgument r))
        (commaList r.rounds angle (fun _ => .missingComma) (genericArgument r)) (fun _ _ => True)
        fun _ => R s) : L.KeepsArguments r := by
  intro before s hs hopening
  have hangle : Use.angle.allows s.current.kind := allows_of_isAt hopening rfl
  unfold genericArguments
  refine meets_orRewind h.lawful hback hs fun before hs => .orNone ?_
  rw [meets_advance]
  have hlist := (yields_argumentList h).beside h.lawful (hs.advance h.lawful hangle)
  exact (hlist.and (hread hs hopening)).mono (fun _ _ ht => ht.1) fun _ _ he => ⟨he.1.left, he.2⟩

/-- Generic arguments are in hand with the tokens around them, if there are any. -/
theorem Has.genericArguments (hs : L.Has before xs s) (hL : L.Lawful)
    (harguments : L.KeepsArguments r) (hopening : s.isAt (.operator .lt)) :
    Meets s (genericArguments r) (genericArguments r)
      (fun found => L.Has before (xs ++ found.elim [] (angled s.current))) (L.Fails before) :=
  (harguments hs.aside hopening).mono (fun _ _ ht => ht.pickUp hs.bare) fun _ _ he => he.drop hL

theorem shown_of_modifier {k : Kind} (h : (modifier? k).isSome) : Use.shown.allows k := by
  unfold modifier? at h
  split at h
  case h_4 => cases h
  all_goals rfl

theorem yields_modifiers (hL : L.Lawful) (rounds : Nat) :
    L.Yields (modifiers rounds) (List.map (.token .shown)) := by
  refine Turns.loop (List.map (.token .shown)) hL (fun marks before s hs => ?_) rounds []
  rw [meets_current]
  split
  · rename_i hmark
    rw [meets_advance]
    refine .pure ?_
    rw [Sum.elim_inl, List.map_append]
    exact hs.advance hL (shown_of_modifier hmark)
  · exact .pure hs

section Reference

variable {storage : Option Node} {node : Node} {ps : List Piece} {spans : List Span}
  {marks : List Token}

/-- The pieces of a type reference are a storage keyword, the name, those of the generic arguments and
the marks. -/
theorem assembled_typeRef {generics : Nat} {type : SymbolType}
    (hps : Piece.AllUsed (.typeRef storage.isSome generics type) node.token marks ps)
    (hlast : ps = [] ∨ ∃ rest use t, ps = rest ++ [.token use t] ∧ t.span ∈ spans)
    (hcount : (Piece.nodes ps).length = generics) :
    Assembled (maybe storage ++ [.node node] ++ ps ++ marks.map (.token .shown))
      (.typeRef storage.isSome generics type) node.token marks spans := by
  refine ⟨rfl, Piece.mem_anchors_of_node (by simp),
    fun use huse => absurd huse (Option.not_mem_none use),
    fun t ht => List.mem_append_right _ (List.mem_map_of_mem ht), ?_, .inr ⟨?_, ?_⟩,
    fun _ hi => Form.noConfusion hi, fun k hk => ?_, .proper rfl⟩
  · simp only [Piece.allUsed_append, Piece.allUsed_map_token]
    exact ⟨⟨by simp [maybe], hps⟩, fun t ht => .inr (.inr ⟨rfl, ht⟩)⟩
  · cases storage with
    | none => exact ⟨.node node, ps ++ marks.map (.token .shown), by simp, .inl rfl⟩
    | some storage => exact ⟨.node storage, _, rfl, .inl rfl⟩
  · -- a mark stands last, or else the token that closes the list, or the name
    rcases List.eq_nil_or_concat marks with rfl | ⟨ms, m, rfl⟩
    · rcases hlast with rfl | ⟨rest, use, t, rfl, ht⟩
      · exact ⟨maybe storage, .node node, by simp, .inl rfl⟩
      · exact ⟨maybe storage ++ [.node node] ++ rest, .token use t, by simp,
          .inr ⟨use, t, rfl, .inr ht⟩⟩
    · exact ⟨maybe storage ++ [.node node] ++ ps ++ ms.map (.token .shown), .token .shown m,
        by simp, .inr ⟨.shown, m, rfl, .inl (by simp)⟩⟩
  · cases hk
    cases storage <;> simp [hcount] <;> omega

/-- Of the generic arguments, only what stands last has to be covered. -/
theorem spanned_typeRef (hinside : ∀ s ∈ spans, s ∈ Piece.spans ps)
    (hlast : ∀ s ∈ (Piece.spans ps).getLast?, s ∈ spans) :
    Spanned (maybe storage ++ [.node node] ++ ps ++ marks.map (.token .shown)) node.token marks
      ((storage.toList ++ [node]).map span ++ spans) := by
  refine .ends (fun u hu => ?_) (by cases storage <;> simp [maybe]) fun u hu => ?_
  · simp only [maybe, Piece.spans_append, Piece.spans_map_node, List.map_append,
      List.mem_append] at hu ⊢
    exact .inl (hu.imp_right (hinside u))
  · simp only [Piece.spans_append, Piece.spans_map_token, List.getLast?_append, Option.mem_def,
      Option.or_eq_some_iff] at hu
    refine List.mem_cons_of_mem _ ?_
    rcases hu with hmark | ⟨-, hps | ⟨-, hname | ⟨hnone, -⟩⟩⟩
    · exact List.mem_append_right _ (List.mem_of_getLast? hmark)
    · exact List.mem_append_left _ (List.mem_append_right _ (hlast u hps))
    · cases hname
      simp
    · cases hnone

/-- What was read of a type becomes a type reference. -/
theorem Has.typeRef {opening : Token} {args : Option (List Node × Token)}
    (h : L.Has before (maybe storage ++ spelled node opening args marks) s) (hL : L.Lawful)
    (type : SymbolType) : L.Has before [.node (referring storage node args marks type)] s := by
  unfold spelled at h
  rw [← List.append_assoc, ← List.append_assoc] at h
  cases args with
  | none =>
    exact h.build hL (assembled_typeRef (by simp) (.inl rfl) rfl) (by simp [maybe])
      (spanned_typeRef (List.forall_mem_nil _) (by simp))
  | some args =>
    have hlast : (some args).elim [] (angled opening) =
        (.token .angle opening :: args.1.map .node) ++ [.token .angle args.2] := rfl
    exact h.build hL (assembled_typeRef (by simp [angled, listed, Form.leavesOut])
      (.inr ⟨_, _, _, hlast, by simp⟩) (by simp [angled, listed]))
      (by simp [maybe, angled, listed]) (spanned_typeRef (by simp [angled, listed])
        (by simp [angled, listed, List.getLast?_cons]))

end Reference

/-- What is read does not depend on the storage keyword, which only becomes a part of the node. -/
theorem meets_typeRef (hL : L.Lawful) (harguments : L.KeepsArguments r) (storage : Option Node)
    (hs : L.Has before [] s) :
    Meets s (typeRef r storage) (typeRef r storage)
      (fun found t => found.elim (L.Has before [] t) fun node => ∃ name opening args marks type,
        node = referring storage name args marks type ∧
          L.Has before (spelled name opening args marks) t)
      (L.Fails before) := by
  unfold Grammar.typeRef
  rw [meets_get]
  split
  · rename_i hname
    rw [meets_advance]
    dsimp only
    rw [meets_isAt]
    have hword : Use.name.allows s.current.kind := name_of_isWord (isWord_of_atTypeName hname)
    have htoken : L.Has before ([] ++ [.token .name s.current]) s.advance := hs.advance hL hword
    have hnamed : L.Has before [.node (s.bindName s.current)] s.advance :=
      htoken.bindName hL (State.symbols_advance s).symm
    split
    · rename_i hopening
      refine (hnamed.genericArguments hL harguments hopening).bind fun args t ht => ?_
      exact ((yields_modifiers hL r.rounds).beside hL ht).bind fun marks u hu =>
        .pure ⟨_, _, args, marks, _, rfl, hu⟩
    · rw [meets_pure_bind]
      exact ((yields_modifiers hL r.rounds).beside hL hnamed).bind fun marks u hu =>
        .pure ⟨_, s.current, none, marks, _, rfl, hu⟩
  · exact .pure hs

theorem turns_typeRef (hL : L.Lawful) (harguments : L.KeepsArguments r) (storage : Option Node) :
    L.Turns (maybe storage) (typeRef r storage) fun found => found.elim (maybe storage) one := by
  intro before s hs
  refine (meets_typeRef hL harguments storage hs.aside).mono (fun found t ht => ?_)
    fun _ _ he => he.drop hL
  cases found with
  | some node =>
    obtain ⟨name, opening, args, marks, type, rfl, ht⟩ := ht
    exact (ht.pickUp hs.bare).typeRef hL type
  | none => exact List.append_nil (maybe storage) ▸ ht.pickUp hs.bare

theorem yields_requireType (hL : L.Lawful) (harguments : L.KeepsArguments r) (missing : ErrorKind) :
    L.Yields (require (Grammar.typeRef r none) missing) one :=
  (turns_typeRef hL harguments none).require hL missing

end Survey

end SableFront.Grammar
