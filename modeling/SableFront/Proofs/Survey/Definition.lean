import SableFront.Grammar.Definition
import SableFront.Grammar.Import
import SableFront.Proofs.Survey.Callable

/-!
# Surveys: declarations, definitions and imports

What declares names changes the table, and each change is an operation on symbols and scopes that
are kept in mind. The name that is declared stays in hand with its symbol until both are needed for
the last time.
-/

namespace SableFront

namespace SymbolTable

variable {t : SymbolTable} {s : Symbol} {id : SymbolId}

/-- The symbol that is inserted is in the table. -/
theorem Consistent.symbol?_insert (h : t.Consistent) (s : Symbol) :
    (t.insert s).2.symbol? (t.insert s).1 = some { s with definedIn := t.current } := by
  unfold SymbolTable.insert
  split
  · rename_i id hfind
    obtain ⟨old, hold, -⟩ := h.name_of_findIn hfind
    exact Array.getElem?_setIfInBounds_self_of_lt (Array.getElem?_eq_some_iff.mp hold).1
  · exact (symbol?_bindNew t t.current s t.size).trans (if_pos rfl)

theorem lt_of_symbol? (h : t.symbol? id = some s) : id < t.size :=
  (Array.getElem?_eq_some_iff.mp h).1

/-- The scope for the members of a symbol is in the table. -/
theorem Consistent.allocateStruct_lt (h : t.Consistent) (id : SymbolId) :
    (t.allocateStruct id).1 < (t.allocateStruct id).2.scopes.size := by
  unfold SymbolTable.allocateStruct
  split
  · rename_i scope hmembers
    obtain ⟨s, hs, hscope⟩ := Option.bind_eq_some_iff.mp hmembers
    exact h.members id s scope hs hscope
  · change t.scopes.size < (t.scopes.push _).size
    rw [Array.size_push]
    exact Nat.lt_succ_self _

end SymbolTable

namespace Grammar

open Node

variable {L : Survey} {r : Rules} {before xs ys zs : List Piece} {s : State} {node type : Node}
  {id : Option SymbolId}

namespace Survey

/-! ### Variables and enumerators -/

/-- A name in hand, whose symbol is in hand, too, may get the type of a value. -/
theorem Has.infer (ys : List Piece) {id : SymbolId} (hs : L.Has before (ys ++ .node node :: zs) s)
    (hL : L.Lawful) (hid : .symbol id ∈ zs) (value : Node) :
    Meets s (infer id node value) (infer id node value)
      (fun found t => L.Has before (ys ++ .node found :: zs) t ∧ found.token = node.token)
      (L.Fails before) := by
  unfold Grammar.infer
  rw [meets_get]
  split
  · dsimp only
    split
    · exact .pure ⟨hs, rfl⟩
    · rw [meets_set]
      have hop (type : SymbolType) : (SymbolTable.Operation.updateType id type).IsFor s.symbols :=
        hs.symbol_lt (by simp [hid])
      have hbound (type : SymbolType) :
          L.Has before (ys ++ .node (node.modifyIdent fun i => { i with type }) :: zs) s :=
        hs.bind ys hL (fun _ _ hi => hi.congr rfl rfl rfl) fun _ => rfl
      exact .pure ⟨(hbound _).operate hL (hop _), rfl⟩
  · exact .pure ⟨hs, rfl⟩

theorem Has.shareMembers (hs : L.Has before xs s) (hL : L.Lawful)
    (hid : ∀ i ∈ id, .symbol i ∈ xs) {members : Option ScopeId}
    (hmembers : ∀ m ∈ members, m < s.symbols.scopes.size) :
    Meets s (shareMembers id members) (shareMembers id members) (fun _ => L.Has before xs)
      (L.Fails before) := by
  unfold Grammar.shareMembers
  split
  · rename_i i m
    have hop : (SymbolTable.Operation.setMembers i m).IsFor s.symbols :=
      ⟨hs.symbol_lt (hid i rfl), hmembers m rfl⟩
    exact .result ⟨⟩ _ rfl rfl (hs.operate hL hop)
  · exact .pure hs

theorem turns_initializer (h : L.Trusted r) (type node : Node) (id : Option SymbolId) :
    L.Turns (.node type :: declared (node, id)) (initializer r type node id) one := by
  intro before s hs
  have hL := h.lawful
  have hbranch {found : Node} {table : SymbolTable} (hfound : found.token = node.token) :
      Makes table [.node type, .node found] (.branch (.identDef false) node.token [type, found]) := by
    rw [← hfound]
    exact .branch (.of_place rfl rfl (Piece.mem_anchors_of_node (by simp)) (List.forall_mem_nil _)
      (by simp))
  unfold initializer
  dsimp only
  refine (hs.eat hL .shown rfl).bind fun op t ht => ?_
  cases op with
  | none =>
    have hboth : L.Has before [.node type, .node node] t :=
      ht.tidy hL (.keep _ (.keep _ (.of_idle (by simp))))
    exact .pure (hboth.make hL (hbranch rfl) ⟨rfl, rfl⟩)
  | some op =>
    refine (((takes_expression h.circle).yields.operand hL).beside hL ht).bind fun value u hu => ?_
    have hassign {found : Node} {v : State} (hfound : found.token = node.token)
        (hv : L.Has before ([.node type] ++ .node found ::
          (id.toList.map .symbol ++ [.token .shown op, .node value])) v) :
        Meets v (assignment (.branch (.identDef false) node.token [type, found]) op value)
          (assignment (.branch (.identDef false) node.token [type, found]) op value)
          (fun node => L.Has before [.node node]) (L.Fails before) := by
      have hfour :
          L.Has before ([] ++ ([.node type, .node found] ++ [.token .shown op, .node value])) v :=
        hv.tidy hL (.keep _ (.keep _ (.right (by simp))))
      exact turns_assignment hL _ op value
        (hfour.makeIn [] hL (hbranch hfound) ⟨rfl, rfl⟩)
    have hhand : L.Has before ([.node type] ++ .node node ::
        (id.toList.map .symbol ++ [.token .shown op, .node value])) u := by
      simpa [declared, one] using hu
    cases id with
    | none =>
      dsimp only
      rw [meets_pure_bind]
      exact hassign rfl hhand
    | some id =>
      exact (hhand.infer [.node type] hL (by simp) value).bind fun found v hv => hassign hv.2 hv.1

theorem turns_typedVariable (h : L.Trusted r) (type : Node) :
    L.Turns [.node type] (typedVariable r type) one := by
  intro before s hs
  have hL := h.lawful
  unfold typedVariable
  refine (hs.expectIdent hL).bind fun ident t hname => ?_
  dsimp only
  rw [meets_get]
  have hmembers : ∀ m ∈ (declaredType t type).2, m < t.symbols.scopes.size := by
    intro m hm
    obtain ⟨i, -, hm⟩ := Option.bind_eq_some_iff.mp hm
    obtain ⟨stored, hstored, hm⟩ := Option.bind_eq_some_iff.mp hm
    exact hname.kept.sane.reached.consistent.members i stored m hstored hm
  generalize declaredType t type = found at hmembers
  obtain ⟨declaredAs, members⟩ := found
  dsimp only
  -- the scope of the members is kept in mind while the name is declared
  have hmind : L.Has (before ++ members.toList.map .scope)
      ([.node type] ++ [.node (.name ident.1 ident.2)]) t := by
    cases members with
    | none => simpa using hname
    | some m => exact hname.mindScope hL (hmembers m rfl)
  refine ((hmind.declare _ hL hmind.current_lt (fun i hi => name_of_ident? hi) rfl _).mono
    (fun _ _ hu => hu) fun _ _ he => he.drop hL).bind fun found u hu => ?_
  have hknown : ∀ m ∈ members, m < u.symbols.scopes.size := by
    intro m hm
    exact hu.1.scope_lt (by simp [Option.mem_def.mp hm])
  refine ((hu.1.forget hL (by simp)).shareMembers hL (fun i hi => ?_) hknown).bind fun _ v hv => ?_
  · simp [declared, Option.mem_def.mp hi]
  · exact turns_initializer h type _ _ hv

/-- A declaration keeps to the survey. If there is none, what was read of it is given up. -/
theorem meets_declaration (h : L.Trusted r) (storage : Option Node)
    (hs : L.Has before (maybe storage) s) :
    Meets s (declaration r storage) (declaration r storage)
      (fun found t => found.elim (L.Left before t) fun node => L.Has before (one node) t)
      (L.Fails before) := by
  have hL := h.lawful
  unfold declaration
  refine (turns_typeRef hL h.arguments storage hs).bind fun found t ht => ?_
  cases found with
  | none => exact .pure (ht.drop hL)
  | some type =>
    dsimp only
    rw [meets_isAt]
    split
    · exact .map (turns_typedVariable h type ht)
    · split
      · exact .fail (ht.fails hL _ _)
      · exact .pure (ht.drop hL)

theorem yields_enumerator (h : L.Trusted r) : L.Yields (enumerator r) maybe := by
  intro before s hs
  have hL := h.lawful
  unfold enumerator
  refine (hs.expectIdent hL).bind fun ident t hname => ?_
  dsimp only
  rw [meets_get]
  refine (hname.declare _ hL hname.current_lt (fun i hi => name_of_ident? hi) rfl _).bind
    fun found u hu => ?_
  refine (hu.1.eat hL .shown rfl).bind fun op v hv => ?_
  have hcomma (node : Node) {w : State} (hw : L.Has before [.node node] w) :
      Meets w (eat (.punctuation .comma) >>= fun _ => pure (some node))
        (eat (.punctuation .comma) >>= fun _ => pure (some node))
        (fun found => L.Has before (maybe found)) (L.Fails before) :=
    (hw.eatSkip hL rfl).bind fun _ _ hx => .pure hx
  cases op with
  | some op =>
    refine (((takes_expression h.circle).yields.operand hL).beside hL hv).bind fun value w hw => ?_
    have hall : L.Has before (.node found.1 :: (found.2.toList.map .symbol ++
        [.token .shown op, .node value])) w := by
      simpa [declared, one] using hw
    exact (turns_assignment hL _ op value (hall.tidy hL (.keep _ (.right (by simp))))).bind
      fun node x hx => hcomma node hx
  | none =>
    dsimp only
    rw [meets_pure_bind]
    exact hcomma _ (hv.tidy hL (.keep _ (.of_idle (by simp))))

/-! ### Functions and operators -/

/-- Where the item of a template is to be declared is in the table, with or without a header. -/
theorem Has.itemScope_lt (hs : L.Has before xs s) :
    s.templateScope.getD s.symbols.current < s.symbols.scopes.size := by
  cases hnote : s.templateScope with
  | none => exact hs.current_lt
  | some scope => exact hs.kept.sane.note scope hnote

/-- A definition that has taken the note is named, and where it is to be declared stays in the table. -/
theorem Has.itemName (hs : L.Has before xs s) (hL : L.Lawful) :
    Meets { s with templateScope := none } Grammar.expectIdent Grammar.expectIdent
      (fun ident t => L.Has before (xs ++ [.node (.name ident.1 ident.2)]) t ∧
        s.templateScope.getD s.symbols.current < t.symbols.scopes.size)
      (L.Fails before) := by
  have hmind := (hs.clearNote hL).mindScope hL hs.itemScope_lt
  refine (hmind.expectIdent hL).mono (fun _ _ ht => ?_) fun _ _ he => he.drop hL
  exact ⟨ht.forget hL (by simp), ht.scope_lt (by simp)⟩

theorem opens_functionDef (h : L.Trusted r) (visibility storage : Option Node) :
    L.Opens .shown (maybe visibility ++ maybe storage) (functionDef r visibility storage) one := by
  intro before s hs huse
  have hL := h.lawful
  have hkeyword := hs.advance hL huse
  unfold functionDef
  rw [meets_advance, meets_takeTemplateScope, meets_get]
  dsimp only
  refine (hkeyword.itemName hL).bind fun ident t ht => ?_
  refine (ht.1.declare _ hL ht.2 (fun i hi => name_of_ident? hi) rfl _).bind fun found u hu => ?_
  have hsymbol : L.Has before (maybe visibility ++ maybe storage ++ [.token .shown s.current] ++
      [.node found.1] ++ found.2.toList.map .symbol) u := by
    simpa [declared] using hu.1
  refine (Turns.beside ((turns_signatureAndBody h found.2).inNewScope hL) hL hsymbol).bind
    fun parts v hv => .pure ?_
  refine hv.build hL (.of_token rfl rfl (by simp) (List.forall_mem_nil _)
    (by simp [maybe, Signature.pieces, Form.use?]))
    (by simp [maybe, Signature.pieces, Signature.nodes])
    (.ends ?_ ?_ (by simp [List.getLast?_cons]))
  · simp +contextual [maybe, or_imp]
  · cases visibility <;> cases storage <;> simp [maybe]

/-- The symbol of an operator is in hand, if it is bound. -/
theorem Has.bindOperator (hs : L.Has before xs s) (hL : L.Lawful) {template : Option ScopeId}
    (htemplate : ∀ scope ∈ template, scope < s.symbols.scopes.size) {symbol : Symbol}
    (hmembers : symbol.members = none) :
    Meets s (bindOperator template symbol) (bindOperator template symbol)
      (fun id => L.Has before (xs ++ id.toList.map .symbol)) (L.Fails before) := by
  have hnone : ∀ m ∈ symbol.members, m < s.symbols.scopes.size := by simp [hmembers]
  unfold Grammar.bindOperator
  rw [meets_get]
  cases template with
  | some scope =>
    have hop : (SymbolTable.Operation.addIn scope symbol).IsFor s.symbols :=
      ⟨htemplate scope rfl, hnone⟩
    dsimp only
    cases hadd : s.symbols.addIn scope symbol with
    | ok added =>
      dsimp only
      rw [meets_set]
      have hadded := hs.operate hL hop
      rw [show (SymbolTable.Operation.addIn scope symbol).apply s.symbols = added.2 by
        simp only [SymbolTable.Operation.apply, hadd]] at hadded
      exact .pure (hadded.mindSymbol hL (SymbolTable.symbol?_of_addIn hadd).1)
    | error e =>
      refine .pure ?_
      rw [Option.toList_none, List.map_nil, List.append_nil]
      exact hs
  | none =>
    have hop : (SymbolTable.Operation.insert symbol).IsFor s.symbols := hnone
    dsimp only
    rw [meets_set]
    have hstored := hs.kept.sane.reached.consistent.symbol?_insert symbol
    exact .pure ((hs.operate hL hop).mindSymbol hL (SymbolTable.lt_of_symbol? hstored))

theorem opens_operatorDef (h : L.Trusted r) (visibility storage : Option Node) :
    L.Opens .shown (maybe visibility ++ maybe storage) (operatorDef r visibility storage) one := by
  intro before s hs huse
  have hL := h.lawful
  have hkeyword := hs.advance hL huse
  have hnext := hkeyword.clearNote hL
  unfold operatorDef
  rw [meets_advance, meets_takeTemplateScope, meets_current]
  split
  · rename_i o hkind
    rw [meets_advance]
    have hshown : Use.shown.allows ({ s.advance with templateScope := none } : State).current.kind := by
      rw [hkind]
      rfl
    have hsymbol := hnext.advance hL hshown
    have hnote : ∀ scope ∈ s.advance.templateScope,
        scope < ({ s.advance with templateScope := none } : State).advance.symbols.scopes.size := by
      rw [State.symbols_advance]
      exact hkeyword.kept.sane.note
    refine (hsymbol.bindOperator hL hnote rfl).bind fun id t ht => ?_
    refine (Turns.beside ((turns_signatureAndBody h id).inNewScope hL) hL ht).bind
      fun found u hu => .pure ?_
    refine hu.build hL (.of_token rfl rfl (by simp) (by simp)
      (by simp [maybe, Signature.pieces, Form.use?]))
      (by simp [maybe, Signature.pieces, Signature.nodes])
      (.ends ?_ ?_ (by simp [List.getLast?_cons]))
    · simp +contextual [maybe, or_imp]
    · cases visibility <;> cases storage <;> simp [maybe]
  · exact .failFor (hnext.fails hL _ _)

/-! ### Classes and enums -/

theorem yields_bases (h : L.Trusted r) : L.Yields (bases r) (List.map .node) := by
  intro before s hs
  have hL := h.lawful
  unfold bases
  refine (hs.eatSkip hL rfl).bind fun colon t ht => ?_
  cases colon with
  | some colon =>
    exact Turns.recast ((yields_requireType hL h.arguments .missingType).commaItems hL r.rounds) flatMap_one ht
  | none => exact .pure ht

/-- The scope for the members of a class is entered by an operation on the table. -/
theorem Has.memberScope (hs : L.Has before xs s) (hL : L.Lawful) (hid : ∀ i ∈ id, .symbol i ∈ xs) :
    Meets s (memberScope id) (memberScope id)
      (fun enter t => L.Has before xs t ∧ t.lexer = s.lexer ∧ ∃ op : SymbolTable.Operation,
        op.IsFor t.symbols ∧ enter t.symbols = op.apply t.symbols)
      (L.Fails before) := by
  unfold Grammar.memberScope
  cases id with
  | some i =>
    have hop : (SymbolTable.Operation.allocateStruct i).IsFor s.symbols := hs.symbol_lt (hid i rfl)
    have hscope := hs.kept.sane.reached.consistent.allocateStruct_lt i
    dsimp only
    rw [meets_get, meets_set]
    exact .pure ⟨hs.operate hL hop, rfl, .enter _, hscope, rfl⟩
  | none => exact .pure ⟨hs, rfl, .push, trivial, rfl⟩

theorem opens_classDef (h : L.Trusted r) (visibility : Option Node) :
    L.Opens .shown (maybe visibility) (classDef r visibility) one := by
  intro before s hs huse
  have hL := h.lawful
  have hkeyword := hs.advance hL huse
  unfold classDef
  rw [meets_advance]
  dsimp only
  rw [meets_takeTemplateScope, meets_get]
  dsimp only
  refine (hkeyword.itemName hL).bind fun ident t ht => ?_
  refine (ht.1.declare _ hL ht.2 (fun i hi => name_of_ident? hi) rfl _).bind fun found u hu => ?_
  refine ((yields_bases h).beside hL hu.1).bind fun bases v hv => ?_
  rw [meets_isAt]
  split
  · rename_i hat
    refine (hv.memberScope hL fun i hi => ?_).bind fun enter w hw => ?_
    · simp [declared, Option.mem_def.mp hi]
    obtain ⟨hw, hlexer, op, hop, henter⟩ := hw
    have hbrace : w.isAt (.punctuation .lBrace) := by
      rw [State.isAt, State.current, hlexer]
      exact hat
    refine ((hw.aside.block h.toKeeps hbrace op hop henter _).mono (fun _ _ hx => hx.pickUp hw.bare)
      fun _ _ he => he.drop hL).bind fun body x hx => .pure ?_
    refine hx.build hL (.of_token rfl rfl (by simp) (List.forall_mem_nil _)
      (by simp [maybe, declared, Form.use?])) (by simp [maybe, declared])
      (.ends ?_ ?_ (by simp [List.getLast?_cons]))
    · simp +contextual [maybe, or_imp]
    · cases visibility <;> simp [maybe]
  · exact .fail (hv.fails hL _ _)

/-! ### Templates -/

theorem yields_templateParam (hL : L.Lawful) : L.Yields templateParam one := by
  intro before s hs
  unfold templateParam
  refine (hs.expectIdent hL).bind fun ident t ht => ?_
  have hname : L.Has before ([] ++ [.node (.name ident.1 ident.2)]) t := ht
  have hdeclare {node : Node} {symbol : Symbol} {u : State}
      (hu : L.Has before ([] ++ [.node node]) u)
      (hsame : ∀ i, node.ident? = some i → i.name = symbol.name) (hmembers : symbol.members = none) :
      Meets u (declare node symbol u.symbols.current .parameter >>= fun found => pure found.1)
        (declare node symbol u.symbols.current .parameter >>= fun found => pure found.1)
        (fun node => L.Has before (one node)) (L.Fails before) :=
    (hu.declare [] hL hu.current_lt hsame hmembers _).bind fun found v hv =>
      .pure (hv.1.tidy hL (.keep _ (.of_idle (by simp))))
  dsimp only
  refine (hname.eat hL .shown rfl).bind fun dots u hu => ?_
  cases dots with
  | some dots =>
    dsimp only
    rw [meets_pure_bind]
    dsimp only
    rw [meets_get]
    have hsame : ∀ i, ((Node.name ident.1 ident.2).mark dots).ident? = some i → i.name = ident.1 :=
      fun i hi => name_of_ident? (show (Node.name ident.1 ident.2).ident? = some i from hi)
    exact hdeclare (hu.make hL (.marked _ dots) ⟨rfl, rfl⟩) hsame rfl
  | none =>
    dsimp only
    rw [meets_pure_bind]
    dsimp only
    rw [meets_get]
    exact hdeclare hu (fun i hi => name_of_ident? hi) rfl

/-- The scope for the item of a template is kept in mind while the parameters are read. The closing
angle stays in hand between the parameters and the item. -/
theorem turns_templateRest (h : L.Keeps r) (outer : ScopeId) ⦃before : List Piece⦄ ⦃s : State⦄
    (hs : L.Has before [.scope outer] s) :
    Meets s (templateRest r outer) (templateRest r outer)
      (fun found t => ∃ closing, L.Has before
        (found.1.map .node ++ [.token .angle closing] ++ [.node found.2]) t)
      (L.Fails before) := by
  have hL := h.lawful
  unfold templateRest
  refine (((yields_templateParam hL).commaNodes (yields_angle hL) hL r.rounds _).beside hL hs).bind
    fun params t ht => ?_
  have hparams : L.Has before (listed .angle params) t := ht.tidy hL (.drop rfl (.refl _))
  dsimp only
  rw [meets_current]
  split
  · rw [meets_modify]
    have houter : ∀ id ∈ some outer, id < t.symbols.scopes.size := by
      intro id hid
      cases hid
      exact ht.scope_lt (by simp)
    exact ((h.statement.require hL _).beside hL (hparams.withNote hL houter)).bind
      fun item u hu => .pure ⟨params.2, hu⟩
  · exact .failFor (hparams.fails hL _ _)

/-- Parameters and item are read in a scope of their own. The note that is left for the item is taken
back in any case. -/
theorem turns_templateScope (h : L.Keeps r) ⦃before : List Piece⦄ ⦃s : State⦄
    (hs : L.Has before [] s) :
    let p := ensuring (fun s => { s with templateScope := none })
      (inNewScope (templateRest r s.symbols.current))
    Meets s p p
      (fun found t => ∃ closing, L.Has before
        (found.1.map .node ++ [.token .angle closing] ++ [.node found.2]) t)
      (L.Fails before) := by
  have hL := h.lawful
  have hnone : L.Has before ([] ++ []) s := hs
  have houter : L.Has before [.scope s.symbols.current] s :=
    hnone.mind hL rfl (fun _ => Piece.noConfusion) hs.current_lt
  have hscoped : Meets s (inNewScope (templateRest r s.symbols.current))
      (inNewScope (templateRest r s.symbols.current))
      (fun found t => ∃ ys, (∃ closing, ys = found.1.map .node ++ [.token .angle closing] ++
        [.node found.2]) ∧ L.Has before ys t) (L.Fails before) :=
    meets_inScope hL (fun _ _ hu => (turns_templateRest h s.symbols.current hu).weaken
      fun _ _ hv => hv.elim fun closing hv => ⟨_, ⟨closing, rfl⟩, hv⟩) houter .push trivial rfl
  refine .ensuring (hscoped.mono (fun _ _ hu => ?_) fun _ _ he => ?_)
  · obtain ⟨_, ⟨closing, rfl⟩, hu⟩ := hu
    exact ⟨closing, hu.clearNote hL⟩
  · exact ⟨he.left.withNote hL fun id hid => absurd hid (Option.not_mem_none id), he.fit⟩

/-- A template is made of its keyword, its parameters in angle brackets and its item. -/
theorem Has.template {keyword opening closing : Token} {params : List Node} {item : Node}
    (hs : L.Has before ([.token .shown keyword, .token .angle opening] ++
      (params.map .node ++ [.token .angle closing] ++ [.node item])) s) (hL : L.Lawful) :
    L.Has before (one (.build .template keyword (params ++ [item]) [] [item.span])) s := by
  refine hs.build hL ⟨rfl, Piece.mem_anchors.mpr (.inl ⟨.shown, by simp⟩), fun use huse => ?_,
    List.forall_mem_nil _, by simp [Form.use?, Form.leavesOut], .inr ⟨?_, ?_⟩,
    fun _ hi => Form.noConfusion hi, (fun _ hk => by cases hk), .proper rfl⟩ (by simp)
    (.ends (by simp) (by simp) (by simp [List.getLast?_cons]))
  · cases huse
    exact List.mem_cons_self
  · exact ⟨.token .shown keyword, _, rfl, .inr rfl⟩
  · refine ⟨[.token .shown keyword, .token .angle opening] ++ (params.map .node ++
      [.token .angle closing]), .node item, ?_, .inl rfl⟩
    simp

theorem opens_template (h : L.Keeps r) : L.Opens .shown [] (template r) one := by
  intro before s hs huse
  have hL := h.lawful
  have hkeyword : L.Has before [.token .shown s.current] s.advance := hs.advance hL huse
  unfold Grammar.template
  rw [meets_advance]
  refine (hkeyword.eat hL .angle rfl).bind fun angle t ht => ?_
  cases angle with
  | none => exact .failFor (ht.fails hL _ _)
  | some angle =>
    dsimp only
    rw [meets_get]
    refine ((turns_templateScope h ht.aside).mono (fun found u hu => ?_) fun _ _ he => he.drop hL).bind
      fun found u hu => .pure hu
    obtain ⟨closing, hu⟩ := hu
    exact (hu.pickUp ht.bare).template hL

/-! ### Imports -/

/-- The name that is imported is introduced where it stands. -/
theorem turns_importName (hL : L.Lawful) (ys : List Piece) (node : Node)
    (hs : L.Has before (ys ++ [.node node]) s) :
    Meets s (importName node) (importName node)
      (fun found t => L.Has before (ys ++ [.node found]) t ∧ found.token = node.token)
      (L.Fails before) := by
  unfold importName
  rw [meets_get]
  dsimp only
  rw [meets_set]
  generalize hsymbol :
    Symbol.new ((node.ident?.map (·.name)).getD "") .unknown .imported = symbol
  have hnone : symbol.members = none := by rw [← hsymbol]; rfl
  have hop : (SymbolTable.Operation.insert symbol).IsFor s.symbols := by
    simp [SymbolTable.Operation.IsFor, hnone]
  have hstored := hs.kept.sane.reached.consistent.symbol?_insert symbol
  refine .pure ⟨(hs.operate hL hop).attachDeclared ys hL hstored (fun i hi => ?_) .path, rfl⟩
  rw [← hsymbol, hi]
  rfl

theorem yields_importAlias (hL : L.Lawful) :
    L.Yields importAlias
      fun found => found.elim [] fun found => [.token .shown found.1, .node found.2] := by
  intro before s hs
  unfold importAlias
  refine (hs.eat hL .shown rfl).bind fun keyword t ht => ?_
  cases keyword with
  | some keyword =>
    refine (ht.expectIdent hL).bind fun ident u hu => ?_
    exact (turns_importName hL _ _ hu).bind fun found v hv => .pure hv.1
  | none => exact .pure ht

theorem yields_importItem (hL : L.Lawful) : L.Yields importItem one := by
  intro before s hs
  unfold importItem
  refine (hs.expectIdent hL).bind fun ident t ht => ?_
  have hname : L.Has before ([] ++ [.node (.name ident.1 ident.2)]) t := ht
  refine ((yields_importAlias hL).beside hL hname).bind fun found u hu => ?_
  cases found with
  | some found =>
    refine .pure (hu.build hL (.of_place rfl rfl ?_ (by simp) (by simp)) (by simp)
      (.each (by simp) (by simp)))
    exact Piece.mem_anchors.mpr (.inr ⟨.name ident.1 ident.2, by simp, rfl⟩)
  | none =>
    refine (turns_importName hL [] _ hu).bind fun found v hv =>
      .pure (hv.1.branch hL (.of_place rfl rfl ?_ (List.forall_mem_nil _) (by simp)) rfl)
    exact Piece.mem_anchors.mpr (.inr ⟨found, by simp, hv.2⟩)

theorem yields_pathSegments (hL : L.Lawful) (rounds : Nat) :
    L.Yields (pathSegments rounds) (List.map .node) := by
  refine Turns.loop (List.map .node) hL (fun segments before s hs => ?_) rounds []
  refine (hs.expectIdent hL).bind fun ident t ht => ?_
  have hmore : L.Has before
      ((segments ++ [(Node.name ident.1 ident.2).withRole .path]).map .node) t := by
    rw [List.map_append]
    exact ht.withRole _ hL _
  refine (hmore.eatSkip hL rfl).bind fun dot u hu => ?_
  cases dot with
  | some dot => exact .pure hu
  | none => exact .pure hu

/-- The segments in hand become a path, where they stand. -/
theorem Has.pathOf (ys : List Piece) {segments : List Node}
    (hs : L.Has before (ys ++ (segments.map .node ++ zs)) s) (hL : L.Lawful) :
    Meets s (pathOf segments) (pathOf segments) (fun path => L.Has before (ys ++ .node path :: zs))
      (L.Fails before) := by
  cases segments with
  | nil => exact .fail (hs.fails hL _ _)
  | cons first rest =>
    cases rest with
    | nil => exact .pure hs
    | cons second rest =>
      have hmade : Makes s.symbols ((first :: second :: rest).map .node)
          (.branch .dotted first.token (Piece.nodes ((first :: second :: rest).map .node))) :=
        .branch (.of_place rfl rfl (Piece.mem_anchors_of_node (by simp)) (List.forall_mem_nil _)
          (by simp))
      rw [Piece.nodes_map_node] at hmade
      exact .pure (hs.makeIn ys hL hmade ⟨rfl, rfl⟩)

theorem turns_importModule (hL : L.Lawful) (ys : List Piece) (segments : List Node)
    (hs : L.Has before (ys ++ segments.map .node) s) :
    Meets s (importModule segments) (importModule segments)
      (fun path => L.Has before (ys ++ [.node path])) (L.Fails before) := by
  have hpath {found : List Node} {t : State} (ht : L.Has before (ys ++ found.map .node) t) :
      Meets t (pathOf found) (pathOf found) (fun path => L.Has before (ys ++ [.node path]))
        (L.Fails before) := by
    refine Has.pathOf ys ?_ hL
    rwa [List.append_nil]
  unfold importModule
  cases hlast : segments.getLast? with
  | some last =>
    have hlist := List.dropLast_append_getLast? last hlast
    rw [← hlist, List.map_append, ← List.append_assoc] at hs
    refine (turns_importName hL _ last hs).bind fun found t ht => hpath ?_
    rw [List.map_append, ← List.append_assoc]
    exact ht.1
  | none => exact hpath hs

theorem opens_importStatement (hL : L.Lawful) : L.Opens .shown [] (importStatement r) one := by
  intro before s hs huse
  unfold importStatement
  rw [meets_advance]
  have hkeyword : L.Has before [.token .shown s.current] s.advance := hs.advance hL huse
  refine ((yields_pathSegments hL r.rounds).beside hL hkeyword).bind fun segments t ht => ?_
  split
  · refine (ht.eat hL .shown rfl).bind fun word u hu => ?_
    cases word with
    | some word =>
      have hitems := Turns.recast ((yields_importItem hL).commaItems hL r.rounds) flatMap_one
      refine (Yields.beside hitems hL hu).bind fun items v hv => ?_
      have hall : L.Has before ([.token .shown s.current] ++
          (segments.map .node ++ ([.token .shown word] ++ items.map .node))) v := by
        simpa using hv
      refine (hall.pathOf _ hL).bind fun path w hw => .pure ?_
      have hchildren : Piece.nodes ([.token .shown s.current] ++
          .node path :: ([.token .shown word] ++ items.map .node)) = path :: items := by simp
      exact hw.build hL (.of_token rfl rfl (by simp) (by simp) (by simp [Form.use?])) hchildren
        (.children hchildren)
    | none => exact .failFor (hu.fails hL _ _)
  · refine ((yields_importAlias hL).beside hL ht).bind fun found u hu => ?_
    cases found with
    | some found =>
      have hall : L.Has before ([.token .shown s.current] ++
          (segments.map .node ++ [.token .shown found.1, .node found.2])) u := by
        simpa using hu
      refine (hall.pathOf _ hL).bind fun path v hv => .pure ?_
      exact hv.build hL (.of_token rfl rfl (by simp) (by simp) (by simp [Form.use?])) (by simp)
        (.each (by simp) (by simp))
    | none =>
      have hpath : L.Has before ([.token .shown s.current] ++ segments.map .node) u := by
        simpa using hu
      exact (turns_importModule hL _ segments hpath).bind fun path v hv =>
        .pure (hv.branch hL (.of_token rfl rfl (by simp) (List.forall_mem_nil _)
          (by simp [Form.use?])) (by simp))

end Survey

end Grammar

end SableFront
