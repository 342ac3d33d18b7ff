import SableFront.Grammar.Statement
import SableFront.Proofs.Simulation.Expression

/-!
# Simulation: declarations, definitions and statements

Declarations, definitions and statements match. What they bind and where is told by names, types and
scopes, which are the same in related states.
-/

namespace SableFront.Grammar

instance : Visible (SymbolTable → SymbolTable) := ⟨fun _ => Eq⟩

namespace Simulation

variable {S : Simulation} {r : Rules}

/-! ### Variables and enumerators -/

theorem matches_infer (id : SymbolId) {name name' value value' : Node}
    (hname : S.view.Alike name name') (hvalue : S.view.Alike value value') :
    S.Matches (infer id name value) (infer id name' value') := by
  refine matches_get.bind fun s s' hs => ?_
  rw [← hs.symbols, Node.valueType_alike hvalue]
  split
  · dsimp only
    split
    · exact .pure hname
    · exact (matches_set (hs.withSymbols _)).bind fun _ _ _ =>
        .pure (Node.modifyIdent_alike hname _)
  · exact .pure hname

theorem typeName?_alike {n n' : Node} (h : S.view.Alike n n') :
    S.view.Alike (typeName? n) (typeName? n') := by
  have hchildren (storage : Bool) (generics : Nat) (type : SymbolType)
      (hform : n.form = .typeRef storage generics type) : S.view.Alike n.children n'.children := by
    refine Node.children_eq h ?_
    rw [hform]
    cases S.view <;> rfl
  unfold typeName?
  rw [← Node.form_eq h]
  split
  · rename_i hform
    exact getElem?_alike (hchildren _ _ _ hform) _
  · exact .none

theorem declaredType_alike {s s' : State} (hs : S.Holds s s') {n n' : Node} (h : S.view.Alike n n') :
    declaredType s n = declaredType s' n' := by
  have hname : (typeName? n).bind Node.ident? = (typeName? n').bind Node.ident? := by
    have hnames := typeName?_alike h
    generalize typeName? n = name at hnames
    generalize typeName? n' = name' at hnames
    cases hnames with
    | none => rfl
    | some hn => exact Node.ident?_alike hn
  rw [declaredType, declaredType, Node.referredType?_alike h, hname, hs.symbols]

theorem matches_shareMembers (id members : Option Nat) :
    S.Matches (shareMembers id members) (shareMembers id members) := by
  unfold shareMembers
  split
  · refine matches_modify fun s s' hs => ?_
    rw [← hs.symbols]
    exact hs.withSymbols _
  · exact .pure rfl

theorem matches_initializer (h : S.Circles r) {type type' name name' : Node}
    (htype : S.view.Alike type type') (hname : S.view.Alike name name') (id : Option SymbolId) :
    S.Matches (initializer r type name id) (initializer r type' name' id) := by
  have hplain := Node.alike_branch (.identDef false) (Node.token_eq hname)
    (.cons htype (.cons hname .nil))
  refine (matches_eat _).bind fun op op' hop => ?_
  cases hop with
  | none => exact .pure hplain
  | @some op op' hop =>
    refine (matches_operand (matches_expression h)).bind fun value value' hvalue => ?_
    have hassignment (n n' : Node) (hn : S.view.Alike n n') :
        S.Matches (assignment (.branch (.identDef false) name.token [type, n]) op value)
          (assignment (.branch (.identDef false) name'.token [type', n']) op' value') :=
      matches_assignment (Node.alike_branch _ (Node.token_eq hname) (.cons htype (.cons hn .nil))) hop
        hvalue
    cases id with
    | none => exact MatchesBy.bind (.pure hname) hassignment
    | some id => exact (matches_infer id hname hvalue).bind hassignment

theorem matches_typedVariable (h : S.Circles r) {type type' : Node} (htype : S.view.Alike type type') :
    S.Matches (typedVariable r type) (typedVariable r type') := by
  refine matches_expectIdent_bind fun text token token' htoken => matches_get.bind fun s s' hs => ?_
  dsimp only
  rw [declaredType_alike hs htype, hs.memberRole, hs.symbols]
  refine (matches_declare (Node.alike_name text htoken) _ _ _).bind fun declared declared' hd => ?_
  obtain ⟨name, id⟩ := declared
  obtain ⟨name', id'⟩ := declared'
  obtain ⟨hname, hid⟩ : S.view.Alike name name' ∧ S.view.Alike id id' := hd
  obtain rfl := index_alike hid
  exact (matches_shareMembers id _).bind fun _ _ _ => matches_initializer h htype hname id

theorem matches_declaration (h : S.Circles r) {storage storage' : Option Node}
    (hstorage : S.view.Alike storage storage') :
    S.Matches (declaration r storage) (declaration r storage') := by
  refine (matches_typeRef h hstorage).bind fun found found' hfound => ?_
  cases hfound with
  | none => exact .pure .none
  | some htype =>
    refine matches_isAt_bind _ fun named => ?_
    split
    · exact matches_some (matches_typedVariable h htype)
    · rw [isSome_alike hstorage]
      split
      · exact .fail _
      · exact .pure .none

theorem matches_unknownNameStatement (h : S.Circles r) :
    S.Matches (unknownNameStatement r) (unknownNameStatement r) := by
  refine matches_advance.bind fun token token' htoken => matches_get.bind fun s s' hs => ?_
  have hname := hs.bindName htoken
  refine (matches_set (hs.withLookaside (.some hname))).bind fun _ _ _ => ?_
  rw [hs.isAt, hs.newlineBefore]
  split
  · exact .throw ⟨rfl, htoken, reason_alike htoken _⟩
  · exact matches_expression h

theorem matches_nameStatement (h : S.Circles r) :
    S.Matches (nameStatement r) (nameStatement r) := by
  refine matches_get.bind fun s s' hs => ?_
  rw [hs.atTypeName, hs.currentSymbol?]
  split
  · refine (matches_orRewind (matches_declaration h .none)).bind fun found found' hfound => ?_
    cases hfound with
    | some hn => exact .pure (.some hn)
    | none => exact matches_expression h
  · split
    · exact matches_unknownNameStatement h
    · exact matches_expression h

theorem matches_enumerator (h : S.Circles r) : S.Matches (enumerator r) (enumerator r) := by
  refine matches_expectIdent_bind fun text token token' htoken => matches_get.bind fun s s' hs => ?_
  rw [← hs.symbols]
  refine (matches_declare (Node.alike_name text htoken) _ _ _).bind fun declared declared' hd => ?_
  have hrest (n n' : Node) (hn : S.view.Alike n n') :
      S.Matches (eat (.punctuation .comma) >>= fun _ => pure (some n))
        (eat (.punctuation .comma) >>= fun _ => pure (some n')) :=
    (matches_eat _).bind fun _ _ _ => .pure (.some hn)
  refine (matches_eat _).bind fun op op' hop => ?_
  cases hop with
  | none => exact MatchesBy.bind (.pure hd.1) hrest
  | some hop =>
    exact (matches_operand (matches_expression h)).bind fun value value' hvalue =>
      (matches_assignment hd.1 hop hvalue).bind hrest

/-! ### Functions and operators -/

theorem matches_takeTemplateScope : S.Matches takeTemplateScope takeTemplateScope := by
  refine matches_get.bind fun s s' hs => ?_
  rw [hs.templateScope]
  exact (matches_set (hs.withTemplate none)).bind fun _ _ _ => .pure (alike_index _)

theorem matches_functionDef (h : S.Circles r) {visibility visibility' storage storage' : Option Node}
    (hvisibility : S.view.Alike visibility visibility') (hstorage : S.view.Alike storage storage') :
    S.Matches (functionDef r visibility storage) (functionDef r visibility' storage') := by
  refine matches_advance.bind fun keyword keyword' hkeyword => ?_
  refine matches_takeTemplateScope.bind fun template template' htemplate => ?_
  obtain rfl := index_alike htemplate
  refine matches_get.bind fun s s' hs => matches_expectIdent_bind fun text token token' htoken => ?_
  dsimp only
  rw [hs.memberRole, hs.symbols]
  refine (matches_declare (Node.alike_name text htoken) _ _ _).bind fun declared declared' hd => ?_
  rw [index_alike hd.2]
  refine (matches_inNewScope (matches_signatureAndBody h _)).bind fun found found' hfound => .pure ?_
  obtain ⟨⟨hparams, hreturns, -⟩, hbody⟩ := hfound
  rw [isSome_alike hvisibility, isSome_alike hstorage, isSome_alike hreturns]
  have hbefore := alike_append (alike_toList hvisibility) (alike_toList hstorage)
  exact Node.alike_build _ hkeyword (alike_append (alike_append hbefore
    (.cons hd.1 (.cons hparams (alike_toList hreturns)))) (.cons hbody .nil)) .nil
    (Node.alike_spans (alike_concat hbefore hbody))

theorem matches_bindOperator (template : Option ScopeId) (symbol : Symbol) :
    S.Matches (bindOperator template symbol) (bindOperator template symbol) := by
  refine matches_get.bind fun s s' hs => ?_
  rw [← hs.symbols]
  have hset (id : SymbolId) (symbols : SymbolTable) :
      S.Matches (set { s with symbols } >>= fun _ => pure (some id))
        (set { s' with symbols } >>= fun _ => pure (some id)) :=
    (matches_set (hs.withSymbols symbols)).bind fun _ _ _ => .pure (.some rfl)
  split
  · split
    · exact hset _ _
    · exact .pure .none
  · exact hset _ _

theorem matches_operatorDef (h : S.Circles r) {visibility visibility' storage storage' : Option Node}
    (hvisibility : S.view.Alike visibility visibility') (hstorage : S.view.Alike storage storage') :
    S.Matches (operatorDef r visibility storage) (operatorDef r visibility' storage') := by
  refine matches_advance.bind fun keyword keyword' hkeyword => ?_
  refine matches_takeTemplateScope.bind fun template template' htemplate => ?_
  obtain rfl := index_alike htemplate
  refine matches_current.bind fun t t' ht => ?_
  rw [kind_alike ht]
  split
  · refine matches_advance.bind fun symbol symbol' hsymbol => ?_
    refine (matches_bindOperator _ _).bind fun id id' hid => ?_
    rw [index_alike hid]
    refine (matches_inNewScope (matches_signatureAndBody h _)).bind fun found found' hfound => .pure ?_
    obtain ⟨⟨hparams, hreturns, -⟩, hbody⟩ := hfound
    rw [isSome_alike hvisibility, isSome_alike hstorage, isSome_alike hreturns]
    have hbefore := alike_append (alike_toList hvisibility) (alike_toList hstorage)
    exact Node.alike_build _ hkeyword (alike_append (alike_append hbefore
      (.cons hparams (alike_toList hreturns))) (.cons hbody .nil)) (.cons hsymbol .nil)
      (Node.alike_spans (alike_concat hbefore hbody))
  · exact .failFor _ _

/-! ### Classes and enums -/

theorem matches_bases (h : S.Circles r) : S.Matches (bases r) (bases r) := by
  refine (matches_eat _).bind fun colon colon' hcolon => ?_
  cases hcolon with
  | none => exact .pure .nil
  | some => exact matches_commaItems (matches_require (matches_typeRef h .none) _) _

theorem matches_memberScope (id : Option SymbolId) :
    S.Matches (memberScope id) (memberScope id) := by
  cases id with
  | none => exact .pure rfl
  | some id =>
    refine matches_get.bind fun s s' hs => ?_
    rw [← hs.symbols]
    exact (matches_set (hs.withSymbols _)).bind fun _ _ _ => .pure rfl

theorem matches_classDef (h : S.Circles r) {visibility visibility' : Option Node}
    (hvisibility : S.view.Alike visibility visibility') :
    S.Matches (classDef r visibility) (classDef r visibility') := by
  refine matches_advance.bind fun keyword keyword' hkeyword => ?_
  dsimp only
  rw [isKeyword_alike hkeyword]
  refine matches_takeTemplateScope.bind fun template template' htemplate => ?_
  obtain rfl := index_alike htemplate
  refine matches_get.bind fun s s' hs => matches_expectIdent_bind fun text token token' htoken => ?_
  dsimp only
  rw [hs.symbols]
  refine (matches_declare (Node.alike_name text htoken) _ _ _).bind fun declared declared' hd => ?_
  rw [index_alike hd.2]
  refine (matches_bases h).bind fun types types' htypes => ?_
  refine matches_isAt_bind _ fun opens => ?_
  split
  · refine (matches_memberScope _).bind fun enter enter' henter => ?_
    obtain rfl : enter = enter' := henter
    refine (matches_block h _ _).bind fun body body' hbody => .pure ?_
    rw [isSome_alike hvisibility, htypes.length_eq]
    have hbefore := alike_toList hvisibility
    exact Node.alike_build _ hkeyword
      (alike_append (alike_append hbefore (.cons hd.1 htypes)) (.cons hbody .nil)) .nil
      (Node.alike_spans (alike_concat hbefore hbody))
  · exact .fail _

/-! ### Templates -/

theorem matches_templateParam : S.Matches templateParam templateParam := by
  refine matches_expectIdent_bind fun text token token' htoken => ?_
  have hname := Node.alike_name text htoken
  have hdeclare (found found' : Node × SymbolType) (hfound : S.view.Alike found found') :
      S.Matches
        (get >>= fun s =>
          declare found.1 (.new text found.2 .parameter) s.symbols.current .parameter >>=
            fun declared => pure declared.1)
        (get >>= fun s =>
          declare found'.1 (.new text found'.2 .parameter) s.symbols.current .parameter >>=
            fun declared => pure declared.1) := by
    refine matches_get.bind fun s s' hs => ?_
    rw [hs.symbols, show found.2 = found'.2 from hfound.2]
    exact (matches_declare hfound.1 _ _ _).bind fun declared declared' hd => .pure hd.1
  have hparts (type : SymbolType) {name name' : Node} (hname : S.view.Alike name name') :
      S.Matches (pure (name, type) : Production (Node × SymbolType)) (pure (name', type)) :=
    .pure ⟨hname, rfl⟩
  refine (matches_eat _).bind fun dots dots' hdots => ?_
  cases hdots with
  | none => exact (hparts _ hname).bind hdeclare
  | some hdots => exact (hparts _ (Node.mark_alike hname hdots)).bind hdeclare

theorem matches_templateRest (h : S.Circles r) (outer : ScopeId) :
    S.Matches (templateRest r outer) (templateRest r outer) := by
  refine (matches_commaList matches_templateParam closes_angle (fun _ _ _ => rfl) _).bind
    fun params params' hparams => matches_current.bind fun t t' ht => ?_
  rw [kind_alike ht]
  split
  · refine (matches_modify fun s s' hs => hs.withTemplate _).bind fun _ _ _ => ?_
    exact (matches_require h.statement _).bind fun item item' hitem => .pure ⟨hparams.1, hitem⟩
  · exact .failFor _ _

theorem matches_template (h : S.Circles r) : S.Matches (template r) (template r) := by
  refine matches_advance.bind fun keyword keyword' hkeyword => ?_
  refine (matches_eat _).bind fun opens opens' hopens => ?_
  cases hopens with
  | none => exact .failFor _ _
  | some =>
    refine matches_get.bind fun s s' hs => ?_
    rw [hs.symbols]
    have hrest := matches_inNewScope (matches_templateRest h s'.symbols.current)
    refine (matches_ensuring hrest fun t t' ht => ht.withTemplate none).bind
      fun found found' hfound => .pure ?_
    exact Node.alike_build _ hkeyword (alike_concat hfound.1 hfound.2) .nil
      (Node.alike_spans (.cons hfound.2 .nil))

/-! ### Imports -/

theorem matches_importName {name name' : Node} (hname : S.view.Alike name name') :
    S.Matches (importName name) (importName name') := by
  refine matches_get.bind fun s s' hs => ?_
  dsimp only
  rw [← hs.symbols, Node.ident?_alike hname]
  exact (matches_set (hs.withSymbols _)).bind fun _ _ _ =>
    .pure (Node.declared_alike (Node.attach_alike hname _ _ _))

theorem matches_importAlias : S.Matches importAlias importAlias := by
  refine (matches_eat _).bind fun keyword keyword' hkeyword => ?_
  cases hkeyword with
  | none => exact .pure .none
  | some hkeyword =>
    refine matches_expectIdent_bind fun text token token' htoken => ?_
    exact (matches_importName (Node.alike_name text htoken)).bind fun name name' hname =>
      .pure (.some ⟨hkeyword, hname⟩)

theorem matches_importItem : S.Matches importItem importItem := by
  refine matches_expectIdent_bind fun text token token' htoken => ?_
  have hname := Node.alike_name text htoken
  refine matches_importAlias.bind fun found found' hfound => ?_
  cases hfound with
  | some hfound =>
    have hnames := List.Forall₂.cons hname (.cons hfound.2 .nil)
    exact .pure (Node.alike_build _ htoken hnames (.cons hfound.1 .nil) (Node.alike_spans hnames))
  | none =>
    exact (matches_importName hname).bind fun name name' hname =>
      .pure (Node.alike_branch _ htoken (.cons hname .nil))

theorem matches_pathSegments (rounds : Nat) :
    S.Matches (pathSegments rounds) (pathSegments rounds) := by
  refine matches_loop (R := S.view.Alike) (fun segments segments' hsegments => ?_) rounds
    List.Forall₂.nil
  refine matches_expectIdent_bind fun text token token' htoken => ?_
  have hmore := alike_concat hsegments (Node.withRole_alike (Node.alike_name text htoken) .path)
  refine (matches_eat _).bind fun dot dot' hdot => ?_
  cases hdot with
  | some => exact .pure (.inl hmore)
  | none => exact .pure (.inr hmore)

theorem matches_pathOf {segments segments' : List Node} (h : S.view.Alike segments segments') :
    S.Matches (pathOf segments) (pathOf segments') := by
  cases h with
  | nil => exact .fail _
  | cons hfirst hrest =>
    cases hrest with
    | nil => exact .pure hfirst
    | cons hnext hrest =>
      exact .pure (Node.alike_branch _ (Node.token_eq hfirst) (.cons hfirst (.cons hnext hrest)))

theorem matches_importModule {segments segments' : List Node}
    (h : S.view.Alike segments segments') :
    S.Matches (importModule segments) (importModule segments') := by
  have hlast := getLast?_alike h
  unfold importModule
  generalize segments.getLast? = last at hlast ⊢
  generalize segments'.getLast? = last' at hlast ⊢
  cases hlast with
  | some hlast =>
    exact (matches_importName hlast).bind fun name name' hname =>
      matches_pathOf (alike_concat (dropLast_alike h) hname)
  | none => exact matches_pathOf h

theorem matches_importStatement : S.Matches (importStatement r) (importStatement r) := by
  refine matches_advance.bind fun keyword keyword' hkeyword => ?_
  refine (matches_pathSegments _).bind fun segments segments' hsegments => ?_
  rw [isKeyword_alike hkeyword]
  split
  · refine (matches_eat _).bind fun word word' hword => ?_
    cases hword with
    | none => exact .failFor _ _
    | some hword =>
      refine (matches_commaItems matches_importItem _).bind fun items items' hitems => ?_
      exact (matches_pathOf hsegments).bind fun path path' hpath =>
        .pure (Node.alike_build _ hkeyword (.cons hpath hitems) (.cons hword .nil)
          (Node.alike_spans (.cons hpath hitems)))
  · refine matches_importAlias.bind fun found found' hfound => ?_
    cases hfound with
    | some hfound =>
      exact (matches_pathOf hsegments).bind fun path path' hpath =>
        have hnames := List.Forall₂.cons hpath (.cons hfound.2 .nil)
        .pure (Node.alike_build _ hkeyword hnames (.cons hfound.1 .nil) (Node.alike_spans hnames))
    | none =>
      exact (matches_importModule hsegments).bind fun path path' hpath =>
        .pure (Node.alike_branch _ hkeyword (.cons hpath .nil))

/-! ### Control flow -/

theorem matches_condition (h : S.Circles r) : S.Matches (condition r) (condition r) :=
  matches_require (matches_expression h) _

theorem matches_guarded (h : S.Circles r) (form : Form) {keyword keyword' : Token}
    (hkeyword : S.view.Alike keyword keyword') :
    S.Matches (guarded r form keyword) (guarded r form keyword') :=
  (matches_condition h).bind fun _ _ hcondition => (matches_body h).bind fun _ _ hbody =>
    .pure (Node.alike_build form hkeyword (.cons hcondition (.cons hbody .nil)) .nil
      (Node.alike_spans (.cons hbody .nil)))

theorem matches_elifBranches (h : S.Circles r) {branches branches' : List Node}
    (hbranches : S.view.Alike branches branches') :
    S.Matches (elifBranches r branches) (elifBranches r branches') := by
  refine matches_loop (R := S.view.Alike) (fun branches branches' hbranches => ?_) _ hbranches
  refine (matches_eat _).bind fun keyword keyword' hkeyword => ?_
  cases hkeyword with
  | some hkeyword =>
    exact (matches_guarded h _ hkeyword).bind fun branch branch' hbranch =>
      .pure (.inl (alike_concat hbranches hbranch))
  | none => exact .pure (.inr hbranches)

theorem matches_conditional (h : S.Circles r) : S.Matches (conditional r) (conditional r) := by
  refine matches_advance.bind fun keyword keyword' hkeyword => ?_
  refine (matches_guarded h _ hkeyword).bind fun first first' hfirst => ?_
  refine (matches_elifBranches h (.cons hfirst .nil)).bind fun branches branches' hbranches => ?_
  refine (matches_eat _).bind fun word word' hword => ?_
  cases hword with
  | some hword =>
    exact (matches_body h).bind fun body body' hbody => .pure (Node.alike_branch _ hkeyword
      (alike_concat hbranches (Node.alike_branch _ hword (.cons hbody .nil))))
  | none => exact .pure (Node.alike_branch _ hkeyword hbranches)

theorem matches_whileLoop (h : S.Circles r) : S.Matches (whileLoop r) (whileLoop r) :=
  matches_advance.bind fun _ _ hkeyword => matches_guarded h _ hkeyword

theorem matches_doWhile (h : S.Circles r) : S.Matches (doWhile r) (doWhile r) := by
  refine matches_advance.bind fun keyword keyword' hkeyword => ?_
  refine (matches_body h).bind fun body body' hbody => (matches_eat _).bind fun word word' hword => ?_
  cases hword with
  | some hword =>
    exact (matches_condition h).bind fun condition condition' hcondition =>
      .pure (Node.alike_build _ hkeyword (.cons hbody (.cons hcondition .nil)) (.cons hword .nil)
        (Node.alike_spans (.cons hcondition .nil)))
  | none => exact .fail _

theorem matches_forStart (h : S.Circles r) : S.Matches (forStart r) (forStart r) := by
  refine matches_isAt_bind _ fun empty => ?_
  split
  · exact .pure .none
  · refine matches_isAt_bind _ fun named => ?_
    split
    · exact matches_nameStatement h
    · exact matches_expression h

theorem bindsItems_alike {s s' : State} (hs : S.Holds s s') {start start' : Option Node}
    (hstart : S.view.Alike start start') :
    S.view.Alike (bindsItems s start) (bindsItems s' start') := by
  cases hstart with
  | none => exact .none
  | some hn =>
    unfold bindsItems
    rw [Option.filter_some, Option.filter_some, Node.form_eq hn, hs.isAt]
    generalize (_ && s'.isAt _) = here
    cases here with
    | true => exact .some hn
    | false => exact .none

theorem matches_forHeader (h : S.Circles r) : S.Matches (forHeader r) (forHeader r) := by
  refine (matches_forStart h).bind fun start start' hstart => matches_get.bind fun s s' hs => ?_
  have hbinding := bindsItems_alike hs hstart
  generalize bindsItems s start = binding at hbinding ⊢
  generalize bindsItems s' start' = binding' at hbinding ⊢
  cases hbinding with
  | some hbinding =>
    refine matches_advance.bind fun _ _ _ => ?_
    exact (matches_require h.expression _).bind fun items items' hitems =>
      .pure ⟨rfl, .cons hbinding (.cons hitems .nil)⟩
  | none =>
    refine (matches_expect _ _).bind fun _ _ _ => ?_
    refine (matches_expression h).bind fun condition condition' hcondition => ?_
    refine (matches_expect _ _).bind fun _ _ _ => ?_
    refine (matches_expression h).bind fun step step' hstep => .pure ?_
    rw [isSome_alike hstart, isSome_alike hcondition, isSome_alike hstep]
    exact ⟨rfl, alike_append (alike_append (alike_toList hstart) (alike_toList hcondition))
      (alike_toList hstep)⟩

theorem matches_forRest (h : S.Circles r) : S.Matches (forRest r) (forRest r) := by
  refine (matches_eat _).bind fun paren paren' hparen => ?_
  refine (matches_forHeader h).bind fun found found' hfound => ?_
  have hbody : S.Matches (body r >>= fun block => pure (found, block))
      (body r >>= fun block => pure (found', block)) :=
    (matches_body h).bind fun block block' hblock => .pure ⟨hfound, hblock⟩
  dsimp only
  rw [isSome_alike hparen]
  split
  · exact (matches_expect _ _).bind fun _ _ _ => hbody
  · exact hbody

theorem matches_forLoop (h : S.Circles r) : S.Matches (forLoop r) (forLoop r) := by
  refine matches_advance.bind fun keyword keyword' hkeyword => ?_
  refine (matches_inNewScope (matches_forRest h)).bind fun found found' hfound => .pure ?_
  obtain ⟨⟨hform, hparts⟩, hbody⟩ := hfound
  rw [show found.1.1 = found'.1.1 from hform]
  exact Node.alike_build _ hkeyword (alike_concat hparts hbody) .nil
    (Node.alike_spans (.cons hbody .nil))

theorem matches_returnStatement (h : S.Circles r) :
    S.Matches (returnStatement r) (returnStatement r) := by
  refine matches_advance.bind fun keyword keyword' hkeyword => matches_get.bind fun s s' hs => ?_
  have hnode (value value' : Option Node) (hvalue : S.view.Alike value value') :
      S.Matches (pure (Node.branch .returns keyword value.toList))
        (pure (Node.branch .returns keyword' value'.toList)) :=
    .pure (Node.alike_branch _ hkeyword (alike_toList hvalue))
  dsimp only
  rw [hs.newlineBefore, hs.isAt, hs.isAt, hs.isAt]
  split
  · exact MatchesBy.bind (.pure .none) hnode
  · exact (matches_expression h).bind hnode

theorem matches_delete (h : S.Circles r) : S.Matches (delete r) (delete r) :=
  matches_advance.bind fun _ _ hkeyword =>
    (matches_require (matches_expression h) _).bind fun _ _ hvalue =>
      .pure (Node.alike_branch _ hkeyword (.cons hvalue .nil))

/-! ### Storage and visibility -/

theorem matches_afterStorage (h : S.Circles r) {storage storage' : Node}
    (hstorage : S.view.Alike storage storage') :
    S.Matches (afterStorage r storage) (afterStorage r storage') := by
  refine matches_current.bind fun t t' ht => ?_
  rw [kind_alike ht]
  split
  · exact matches_functionDef h .none (.some hstorage)
  · exact matches_operatorDef h .none (.some hstorage)
  · exact matches_require (matches_declaration h (.some hstorage)) _

theorem matches_storageNode : S.Matches storageNode storageNode :=
  matches_advance.bind fun _ _ ht => .pure (Node.alike_leaf _ ht)

theorem matches_storageHere : S.Matches storageHere storageHere := by
  refine matches_current.bind fun t t' ht => ?_
  rw [kind_alike ht]
  split
  · split
    · exact matches_some matches_storageNode
    · exact .pure .none
  · exact .pure .none

theorem matches_afterVisibility (h : S.Circles r) {visibility visibility' : Node}
    (hvisibility : S.view.Alike visibility visibility') {storage storage' : Option Node}
    (hstorage : S.view.Alike storage storage') :
    S.Matches (afterVisibility r visibility storage) (afterVisibility r visibility' storage') := by
  refine matches_current.bind fun t t' ht => ?_
  rw [kind_alike ht]
  cases hstorage with
  | none =>
    split
    · exact matches_classDef h (.some hvisibility)
    · exact matches_classDef h (.some hvisibility)
    · exact matches_functionDef h (.some hvisibility) .none
    · exact matches_operatorDef h (.some hvisibility) .none
    · exact .pure hvisibility
    · contradiction
  | some hstorage =>
    split
    · contradiction
    · contradiction
    · rename_i hkind
      rw [hkind]
      exact matches_functionDef h (.some hvisibility) (.some hstorage)
    · rename_i hkind
      rw [hkind]
      exact matches_operatorDef h (.some hvisibility) (.some hstorage)
    · contradiction
    · rename_i hsome _ _
      cases hsome
      exact (matches_afterStorage h hstorage).bind fun node node' hnode =>
        .pure (Node.markFirst_alike hnode (Node.token_eq hvisibility))

theorem matches_visibilityStatement (h : S.Circles r) :
    S.Matches (visibilityStatement r) (visibilityStatement r) := by
  refine matches_advance.bind fun keyword keyword' hkeyword => ?_
  have hvisibility := Node.alike_leaf .visibility hkeyword
  refine (matches_eat _).bind fun colon colon' hcolon => ?_
  cases hcolon with
  | some => exact .pure hvisibility
  | none =>
    exact matches_storageHere.bind fun storage storage' hstorage =>
      matches_afterVisibility h hvisibility hstorage

/-! ### Statements -/

theorem lambdaAhead_alike {s s' : State} (hs : S.Holds s s') : lambdaAhead s = lambdaAhead s' := by
  have htoken := S.token (S.next hs.lexer).1
  rw [lambdaAhead, lambdaAhead]
  exact congrArg (· == Kind.punctuation .lParen) (kind_alike htoken)

theorem matches_keywordStatement (h : S.Circles r) (k : Keyword) :
    S.Matches (keywordStatement r k) (keywordStatement r k) := by
  unfold keywordStatement
  split
  · exact matches_some (matches_conditional h)
  · exact matches_some (matches_whileLoop h)
  · exact matches_some (matches_doWhile h)
  · exact matches_some (matches_forLoop h)
  · exact matches_some (matches_returnStatement h)
  · exact matches_some (matches_delete h)
  · exact matches_some matches_importStatement
  · exact matches_some matches_importStatement
  · exact matches_some (matches_classDef h .none)
  · exact matches_some (matches_classDef h .none)
  · refine matches_get.bind fun s s' hs => ?_
    rw [lambdaAhead_alike hs]
    split
    · exact matches_expression h
    · exact matches_some (matches_functionDef h .none .none)
  · exact matches_some (matches_operatorDef h .none .none)
  · exact matches_some (matches_template h)
  · split
    · exact matches_some (matches_visibilityStatement h)
    · split
      · exact matches_nameStatement h
      · split
        · exact matches_some (matches_storageNode.bind fun _ _ hn => matches_afterStorage h hn)
        · exact matches_expression h

theorem matches_statement (h : S.Circles r) : S.Matches (statement r) (statement r) := by
  refine matches_current.bind fun t t' ht => ?_
  rw [kind_alike ht]
  split
  · exact matches_keywordStatement h _
  · exact matches_some (matches_block h _ _)
  · exact matches_nameStatement h
  · exact matches_expression h

end Simulation

end SableFront.Grammar
