import SableFront.Proofs.Scoping.Definition
import SableFront.Proofs.Survey.Behind

/-!
# Symbols: names that are declared again

A declaration whose name its scope binds already notes that, once, and is read to its end all the
same. What it would have told its symbol goes nowhere: its members live in a scope that belongs to
no symbol, and types are neither inferred nor handed on. So the table afterwards lies beyond the one
before, and whatever is noted later is about tokens behind the name.

Two things come together here: what is read behind the name stays in a frame, which takes care of
the table, and it keeps to a survey, which tells what errors are about.
-/

namespace SableFront

open Grammar

namespace Node

/-- The node of the name that a declaration is for. A declaration with a value is an assignment. -/
def declaredName? (n : Node) : Option Node :=
  let target := if n.form = .assignment then n.children.head?.getD n else n
  match target.form with
  | .ident _ => some target
  | .identDef _ => target.children[1]?
  | .function visibility storage _ => target.children[visibility.toNat + storage.toNat]?
  | .classDef _ visibility _ => target.children[visibility.toNat]?
  | _ => none

/-- The node is a name at a token that refers to a symbol and does not introduce it. -/
structure RefersTo (n : Node) (anchor : Token) (id : SymbolId) (s : Symbol) : Prop where
  token : n.token = anchor
  ident : ∃ i, n.ident? = some i ∧ i.name = anchor.text?.getD "" ∧ i.symbol = some id ∧
    i.type = s.type ∧ i.declaration = false

theorem refersTo_attach {n : Node} {token : Token} {i : Ident} (htoken : n.token = token)
    (hi : n.ident? = some i) (hname : i.name = token.text?.getD "") (hnew : i.declaration = false)
    (id : SymbolId) (s : Symbol) (role : Role) : (n.attach id s role).RefersTo token id s := by
  have hattached : (n.attach id s role).ident? = some
      { i with symbol := some id, type := s.type, builtin := s.origin == .builtin, role } := by
    unfold Node.attach
    rw [ident?_modifyIdent, hi]
    rfl
  exact ⟨htoken, _, hattached, hname, rfl, rfl, hnew⟩

/-- A name by itself is for itself. -/
theorem RefersTo.declaredName? {n : Node} {anchor : Token} {id : SymbolId} {s : Symbol}
    (h : n.RefersTo anchor id s) : n.declaredName? = some n := by
  obtain ⟨i, hi, -⟩ := h.ident
  obtain ⟨⟨form, token, span, marks, leading, trailing⟩, children⟩ := n
  cases form
  case ident => rfl
  all_goals cases hi

end Node

namespace Grammar

/-! ### Declarations -/

/-- The forms of declarations. -/
inductive Declaration
  /-- A variable, behind a storage keyword or not. -/
  | value (storage : Option Node)
  | parameter
  | templateParameter
  | function (visibility storage : Option Node)
  /-- A class or an enum. -/
  | type (visibility : Option Node)
  | enumerator

namespace Declaration

/-- The production that reads the declaration. -/
def production (rules : Rules) : Declaration → Production (Option Node)
  | .value storage => declaration rules storage
  | .parameter => some <$> param rules
  | .templateParameter => some <$> templateParam
  | .function visibility storage => some <$> functionDef rules visibility storage
  | .type visibility => some <$> classDef rules visibility
  | .enumerator => Grammar.enumerator rules

/-- Started in `s`, the declaration gets to its name in `t`: behind a type, or behind a keyword. -/
def Reaches (rules : Rules) (s t : State) : Declaration → Prop
  | .value storage => ∃ type, outcome (typeRef rules storage) s = (.ok (some type), t)
  | .parameter => ∃ type, outcome (typeRef rules none) s = (.ok (some type), t)
  | .function .. | .type _ => t = s.advance
  | .templateParameter | .enumerator => t = s

/-- The scope in which the name is declared. -/
def target (t : State) : Declaration → ScopeId
  | .function .. | .type _ => t.templateScope.getD t.symbols.current
  | _ => t.symbols.current

/-- The declaration reads on behind its name and leaves the note of a template header alone. -/
def leavesNote : Declaration → Bool
  | .value _ | .parameter | .enumerator => true
  | _ => false

end Declaration

variable {total : Nat} {config : ParseConfig} {source text : String} {s t u : State}
  {r : Rules} {id : SymbolId} {scope : ScopeId} {existing : Symbol}

/-- A state between two productions: reading the text can get to it, with a table that operations
lead to. -/
structure State.Proper (source : String) (config : ParseConfig) (s : State) : Prop where
  reached : s.Reached source config
  table : s.symbols.Reached
  note : ∀ scope ∈ s.templateScope, scope < s.symbols.scopes.size
  idle : s.lookaside = none
  comments : ∀ t ∈ s.comments, t.kind.isComment

/-- The error that a name is taken. -/
def State.taken (t : State) : SyntaxError :=
  ⟨.symbolAlreadyDefined, t.current, some (.about (t.current.text?.getD ""))⟩

/-- What a declaration leaves behind in `u` whose name at `t` is bound already. -/
structure State.Redeclares (t : State) (target : ScopeId) (id : SymbolId) (u : State) : Prop where
  /-- All symbols and scopes there were are as they were, -/
  symbol : ∀ i < t.symbols.size, u.symbols.symbol? i = t.symbols.symbol? i
  scope : ∀ i < t.symbols.scopes.size, u.symbols.scope? i = t.symbols.scope? i
  /-- the name stays bound to its symbol, -/
  bound : u.symbols.findIn target (t.current.text?.getD "") = some id
  /-- and that it is taken is noted once. -/
  errors : ∃ later, u.errors = t.errors ++ t.taken :: later ∧ ∀ e ∈ later, e.token ≠ t.current

/-- A note that waits does not matter. -/
theorem State.Redeclares.of_quiet {target : ScopeId}
    (h : State.Redeclares { t with templateScope := none } target id u) :
    t.Redeclares target id u := ⟨h.symbol, h.scope, h.bound, h.errors⟩

theorem State.redeclares (htable : t.symbols.Beyond u.symbols)
    (hbound : t.symbols.findIn scope (t.current.text?.getD "") = some id)
    (hkept : t.errors ++ [t.taken] <+: u.errors)
    (hlater : ∀ e ∈ u.errors.drop (t.errors.length + 1), e.token ≠ t.current) :
    t.Redeclares scope id u := by
  refine ⟨htable.symbol, htable.scope, ?_, ?_⟩
  · obtain ⟨found, hfound, -⟩ := Option.bind_eq_some_iff.mp hbound
    have hlt : scope < t.symbols.scopes.size := (Array.getElem?_eq_some_iff.mp hfound).1
    unfold SymbolTable.findIn at hbound ⊢
    rw [htable.scope scope hlt]
    exact hbound
  · obtain ⟨later, hlist⟩ := hkept
    have hsplit : u.errors = t.errors ++ t.taken :: later := by simpa using hlist.symm
    refine ⟨later, hsplit, fun e he => hlater e ?_⟩
    rw [hsplit]
    simpa using he

/-! ### What is read behind a name that is taken -/

variable {α β : Type} {e : SyntaxError} {p : Production α}

/-- What must not be lost behind a name at `t` that is taken. -/
def State.takenFrame (t : State) : Frame := ⟨t.symbols, t.errors ++ [t.taken]⟩

/-- What is about the name at `t` that is taken, or not. -/
def State.takenSurvey (source : String) (config : ParseConfig) (t : State) : Survey :=
  behind source.utf8ByteSize config t.current (t.errors.length + 1)

/-- Reading goes on in `u` behind the name at `t`, which is taken. -/
structure State.GoesOn (source : String) (config : ParseConfig) (t u : State) : Prop where
  frame : t.takenFrame.Holds t.place u
  hand : (t.takenSurvey source config).Has [] [] u

/-- Reading ends in `u` with an error behind the name at `t`, which is taken. -/
structure State.Stops (source : String) (config : ParseConfig) (t : State) (e : SyntaxError)
    (u : State) : Prop where
  frame : t.takenFrame.Holds t.place u
  fails : (t.takenSurvey source config).Fails [] e u

namespace State

theorem redeclares_of_kept (hframe : t.takenFrame.Holds t.place u)
    (hkept : (t.takenSurvey source config).Kept [] u)
    (hbound : t.symbols.findIn scope (t.current.text?.getD "") = some id) :
    t.Redeclares scope id u :=
  redeclares hframe.table hbound hframe.errors hkept.holds.errors

/-- Noting that the name is taken changes nothing else. -/
theorem redeclares_record (hsymbols : u.symbols = t.symbols)
    (herrors : u.errors = t.errors) (hcap : u.config.maxErrors = none)
    (hbound : t.symbols.findIn scope (t.current.text?.getD "") = some id) :
    t.Redeclares scope id (u.record t.taken) := by
  have hrecorded : (u.record t.taken).errors = t.errors ++ [t.taken] := by
    rw [errors_record _ _ hcap, herrors]
  refine redeclares ?_ hbound (hrecorded ▸ List.prefix_rfl) fun e he => ?_
  · rw [symbols_record, hsymbols]
    exact .refl _
  · rw [hrecorded, List.drop_eq_nil_of_le (by simp)] at he
    cases he

theorem GoesOn.redeclares (h : t.GoesOn source config u)
    (hbound : t.symbols.findIn scope (t.current.text?.getD "") = some id) :
    t.Redeclares scope id u := redeclares_of_kept h.frame h.hand.kept hbound

theorem Stops.redeclares (h : t.Stops source config e u)
    (hbound : t.symbols.findIn scope (t.current.text?.getD "") = some id) :
    t.Redeclares scope id u ∧ e.token ≠ t.current :=
  ⟨redeclares_of_kept h.frame h.fails.left.kept hbound, h.fails.fit⟩

/-- That the name is taken has been noted behind it, while no note of a template header waits. -/
theorem goesOn_record (hhas : (grounded source.utf8ByteSize config).Has [] [] t)
    (hname : t.isAt .ident) (hcap : config.maxErrors = none) (hnote : t.templateScope = none) :
    t.GoesOn source config (t.advance.record t.taken) := by
  have hgrounded : t.Grounded source.utf8ByteSize config := hhas.holds
  have hloose := loose_grounded source.utf8ByteSize config
  have hafter := (hhas.pass hloose).record (e := t.taken) hloose.complete.toLawful trivial
  have heof : t.current.isEof = false := by
    have hkind : t.current.kind = .ident := beq_iff_eq.mp hname
    rw [Token.isEof, hkind]
    rfl
  have herrors : (t.advance.record t.taken).errors = t.errors ++ [t.taken] := by
    rw [errors_record, errors_advance]
    rw [config_advance, hgrounded.config, hcap]
  have hsymbols : (t.advance.record t.taken).symbols = t.symbols := by
    rw [symbols_record, symbols_advance]
  refine ⟨⟨hsymbols ▸ .refl _, herrors ▸ List.prefix_rfl, fun outer ho => ?_, ?_⟩,
    .intro ⟨hafter.holds, ?_, List.forall_mem_nil _, fun d hd => ?_⟩ hafter.kept.sane hafter.idle
      hafter.bare⟩
  · rw [templateScope_record, templateScope_advance, hnote] at ho
    exact absurd ho (Option.not_mem_none _)
  · rw [hsymbols]
    rfl
  · unfold State.current
    rw [lexer_record]
    exact hgrounded.offset_lt heof
  · rw [herrors, List.drop_eq_nil_of_le (by simp)] at hd
    cases hd

end State

theorem lawful_takenSurvey (hname : t.isAt .ident) : (t.takenSurvey source config).Lawful :=
  (loose_behind (beq_iff_eq.mp hname) _).complete.toLawful

theorem whole_takenSurvey (hname : t.isAt .ident) {n : Nat} :
    (t.takenSurvey source config).Whole (rules n) :=
  (loose_behind (beq_iff_eq.mp hname) _).whole n

/-- What is read behind the name leaves alone what it must. -/
def PassesBy (source : String) (config : ParseConfig) (t : State) (p : Production α) : Prop :=
  ∀ ⦃u⦄, t.GoesOn source config u →
    Meets u p p (fun _ => t.GoesOn source config) (t.Stops source config)

/-- What is in hand in the end does not matter. -/
theorem State.GoesOn.meets {carry : α → List Piece} (hu : t.GoesOn source config u)
    {Q : α → Prop} (hname : t.isAt .ident) (hframe : Preserves (t.takenFrame.Holds t.place) p Q)
    (hhand : Meets u p p (fun a => (t.takenSurvey source config).Has [] (carry a))
      ((t.takenSurvey source config).Fails [])) :
    Meets u p p (fun _ => t.GoesOn source config) (t.Stops source config) := by
  refine ((hframe hu.frame).and hhand).mono (fun a v hv => ⟨hv.1.1, ?_⟩) fun e v hv => ⟨hv.1, hv.2⟩
  exact hv.2.sublist (lawful_takenSurvey hname) (List.nil_sublist _)

theorem PassesBy.of_frame {carry : α → List Piece} {Q : α → Prop} (hname : t.isAt .ident)
    (hframe : Preserves (t.takenFrame.Holds t.place) p Q)
    (hyields : (t.takenSurvey source config).Yields p carry) :
    PassesBy source config t p := fun _ hu => hu.meets hname hframe (hyields hu.hand)

theorem goesOn_advance (hname : t.isAt .ident) (hu : t.GoesOn source config u) :
    t.GoesOn source config u.advance :=
  ⟨hu.frame.advance, hu.hand.pass (loose_behind (beq_iff_eq.mp hname) _)⟩

/-- Behind the name there are other tokens. -/
theorem meets_eatBehind (hname : t.isAt .ident) (hu : t.GoesOn source config u) (k : Kind) :
    Meets u (eat k) (eat k)
      (fun found v => t.GoesOn source config v ∧ ∀ token ∈ found, token ≠ t.current)
      (t.Stops source config) := by
  have hrun := outcome_eat u k
  split at hrun
  · refine .result _ _ hrun hrun ⟨goesOn_advance hname hu, fun token htoken => ?_⟩
    cases htoken
    exact Behind.current_ne hu.hand.holds
  · exact .result _ _ hrun hrun ⟨hu, fun _ htoken => absurd htoken (Option.not_mem_none _)⟩

theorem meets_assignmentBehind (hname : t.isAt .ident) (hu : t.GoesOn source config u) {op : Token}
    (hop : op ≠ t.current) (target value : Node) :
    Meets u (assignment target op value) (assignment target op value)
      (fun node v => t.GoesOn source config v ∧ node = .branch .assignment op [target, value])
      (t.Stops source config) := by
  unfold assignment
  split
  · rw [meets_record]
    exact .pure ⟨⟨hu.frame.record _, hu.hand.record (lawful_takenSurvey hname) hop⟩, rfl⟩
  · exact .pure ⟨hu, rfl⟩

variable {n : Nat}

theorem passesBy_value (hname : t.isAt .ident) :
    PassesBy source config t (operand (expression (rules n))) :=
  .of_frame hname (Discipline.operand (obeys_expression (framed_rules n _)))
    ((Survey.takes_expression (whole_takenSurvey hname).circle).yields.operand
      (lawful_takenSurvey hname))

/-! ### The forms of declarations -/

/-- A name that its scope binds already is bound to what it is bound to there. -/
theorem meets_declareTaken {name : Node} {symbol : Symbol} {role : Role}
    {E : SyntaxError → State → Prop} (hfind : s.symbols.findIn scope symbol.name = some id)
    (hexisting : s.symbols.symbol? id = some existing) :
    Meets s (declare name symbol scope role) (declare name symbol scope role)
      (fun found u => found = (name.attach id existing role, none) ∧
        u = s.record ⟨.symbolAlreadyDefined, name.token, some (.about symbol.name)⟩) E := by
  have hadd : s.symbols.addIn scope symbol = .error ⟨symbol.name, id⟩ := by
    rw [SymbolTable.addIn, hfind]
  unfold declare
  rw [meets_get, hadd]
  dsimp only
  rw [meets_record, hexisting]
  exact .pure ⟨rfl, rfl⟩

theorem meets_expectName (hname : t.isAt .ident) {f g : String × Token → Production β}
    {Q : β → State → Prop} {E : SyntaxError → State → Prop} :
    Meets t (expectIdent >>= f) (expectIdent >>= g) Q E ↔
      Meets t.advance (f (t.current.text?.getD "", t.current))
        (g (t.current.text?.getD "", t.current)) Q E := by
  have hrun := outcome_expectIdent t
  rw [if_pos hname] at hrun
  exact meets_step hrun hrun

/-- A declaration has been read in `u` whose name at `t` is bound to a symbol already. -/
def State.Reads (t : State) (target : ScopeId) (id : SymbolId) (existing : Symbol) (node : Node)
    (u : State) : Prop :=
  t.Redeclares target id u ∧
    ∃ name, node.declaredName? = some name ∧ name.RefersTo t.current id existing

theorem refersTo_name (token : Token) (id : SymbolId) (existing : Symbol) (role : Role) :
    ((Node.name (token.text?.getD "") token).attach id existing role).RefersTo token id existing :=
  Node.refersTo_attach rfl rfl rfl rfl id existing role

section Forms

variable {target : ScopeId} (hhas : (grounded source.utf8ByteSize config).Has [] [] t)
  (hcap : config.maxErrors = none) (hname : t.isAt .ident)
  (hbound : t.symbols.findIn target (t.current.text?.getD "") = some id)
  (hexisting : t.symbols.symbol? id = some existing)

include hhas hcap hname hbound hexisting

/-- What the forms have in common: the name is noted to be taken, and reading goes on. -/
theorem meets_taken {symbol : Symbol} (hsymbol : symbol.name = t.current.text?.getD "")
    (hnote : t.templateScope = none) {node : Node} (hnode : node.token = t.current) (role : Role)
    {f : Node × Option SymbolId → Production β} {Q : β → State → Prop}
    (hf : ∀ u, t.GoesOn source config u →
      Meets u (f (node.attach id existing role, none)) (f (node.attach id existing role, none)) Q
        (t.Stops source config)) :
    Meets t.advance (declare node symbol target role >>= f) (declare node symbol target role >>= f) Q
      fun e u => t.Redeclares target id u ∧ e.token ≠ t.current := by
  have hfind := hbound
  rw [← t.symbols_advance, ← hsymbol] at hfind
  rw [← t.symbols_advance] at hexisting
  refine (meets_declareTaken hfind hexisting).bind fun found u hu => ?_
  obtain ⟨rfl, rfl⟩ := hu
  rw [hnode, hsymbol]
  exact (hf _ (State.goesOn_record hhas hname hcap hnote)).mono (fun _ _ h => h)
    fun _ _ he => he.redeclares hbound

/-- A variable that is taken gets neither the members nor the type that it is declared with. -/
theorem meets_typedVariable (hnote : t.templateScope = none)
    (htarget : t.symbols.current = target) (type : Node) :
    Meets t (typedVariable (rules n) type) (typedVariable (rules n) type)
      (t.Reads target id existing) fun e u => t.Redeclares target id u ∧ e.token ≠ t.current := by
  subst htarget
  unfold typedVariable
  rw [meets_expectName hname]
  dsimp only
  rw [meets_get, t.symbols_advance]
  generalize declaredType t.advance type = found
  obtain ⟨declaredAs, members⟩ := found
  dsimp only
  refine meets_taken hhas hcap hname hbound hexisting rfl hnote rfl _ fun u hu => ?_
  have hshare : shareMembers none members = pure ⟨⟩ := rfl
  dsimp only
  rw [hshare, meets_pure_bind]
  unfold initializer
  refine (meets_eatBehind hname hu _).bind fun op v hv => ?_
  cases op with
  | none => exact .pure ⟨hv.1.redeclares hbound, _, rfl, refersTo_name _ _ _ _⟩
  | some op =>
    refine (passesBy_value hname hv.1).bind fun value w hw => ?_
    rw [meets_pure_bind]
    refine (meets_assignmentBehind hname hw (hv.2 op rfl) _ value).weaken fun node x hx => ?_
    rw [hx.2]
    exact ⟨hx.1.redeclares hbound, _, rfl, refersTo_name _ _ _ _⟩

theorem meets_enumerator (hnote : t.templateScope = none) (htarget : t.symbols.current = target) :
    Meets t (enumerator (rules n)) (enumerator (rules n))
      (fun found u => ∃ node ∈ found, t.Reads target id existing node u)
      fun e u => t.Redeclares target id u ∧ e.token ≠ t.current := by
  subst htarget
  unfold enumerator
  rw [meets_expectName hname]
  dsimp only
  rw [meets_get, t.symbols_advance]
  refine meets_taken hhas hcap hname hbound hexisting rfl hnote rfl _ fun u hu => ?_
  dsimp only
  have hcomma {node : Node} {v : State} (hv : t.GoesOn source config v)
      (hnode : ∃ name, node.declaredName? = some name ∧ name.RefersTo t.current id existing) :
      Meets v (eat (.punctuation .comma) >>= fun _ => pure (some node))
        (eat (.punctuation .comma) >>= fun _ => pure (some node))
        (fun found u => ∃ node ∈ found, t.Reads t.symbols.current id existing node u)
        (t.Stops source config) :=
    (meets_eatBehind hname hv _).bind fun _ w hw =>
      .pure ⟨node, rfl, hw.1.redeclares hbound, hnode⟩
  refine (meets_eatBehind hname hu _).bind fun op v hv => ?_
  cases op with
  | none =>
    dsimp only
    rw [meets_pure_bind]
    exact hcomma hv.1 ⟨_, rfl, refersTo_name _ _ _ _⟩
  | some op =>
    refine (passesBy_value hname hv.1).bind fun value w hw => ?_
    refine (meets_assignmentBehind hname hw (hv.2 op rfl) _ value).bind fun node x hx => ?_
    rw [hx.2]
    exact hcomma hx.1 ⟨_, rfl, refersTo_name _ _ _ _⟩

theorem meets_param {type : Node} (htype : outcome (typeRef (rules n) none) s = (.ok (some type), t))
    (hnote : t.templateScope = none) (htarget : t.symbols.current = target) :
    Meets s (param (rules n)) (param (rules n)) (t.Reads target id existing)
      fun e u => t.Redeclares target id u ∧ e.token ≠ t.current := by
  subst htarget
  unfold param
  rw [meets_step htype htype]
  dsimp only
  rw [meets_expectName hname]
  dsimp only
  rw [meets_get, t.symbols_advance]
  refine meets_taken hhas hcap hname hbound hexisting rfl hnote rfl _ fun u hu => ?_
  have hdefault := hu.meets hname (obeys_defaultValue (framed_rules n _))
    (hu.hand.defaultValue (whole_takenSurvey hname).toKeeps)
  exact hdefault.bind fun default v hv =>
    .pure ⟨hv.redeclares hbound, _, rfl, refersTo_name _ _ _ _⟩

/-- Nothing is read behind the name of a template parameter, so a note may go on waiting. -/
theorem meets_takenTemplateParam (htarget : t.symbols.current = target) :
    Meets t templateParam templateParam (t.Reads target id existing)
      fun e u => t.Redeclares target id u ∧ e.token ≠ t.current := by
  subst htarget
  have hconfig : t.config.maxErrors = none := by
    have hgrounded : t.Grounded source.utf8ByteSize config := hhas.holds
    rw [hgrounded.config, hcap]
  -- the name may be marked, and is declared in the state behind the mark
  have hdeclare {u : State} {node : Node} {type : SymbolType} (hsymbols : u.symbols = t.symbols)
      (herrors : u.errors = t.errors) (hcap : u.config.maxErrors = none)
      (htoken : node.token = t.current)
      (hnode : node.ident? = (Node.name (t.current.text?.getD "") t.current).ident?) :
      Meets u (declare node (.new (t.current.text?.getD "") type .parameter) u.symbols.current
          .parameter >>= fun found => pure found.1)
        (declare node (.new (t.current.text?.getD "") type .parameter) u.symbols.current
          .parameter >>= fun found => pure found.1)
        (t.Reads t.symbols.current id existing)
        fun e u => t.Redeclares t.symbols.current id u ∧ e.token ≠ t.current := by
    rw [← hsymbols] at hexisting
    have hfind : u.symbols.findIn u.symbols.current (t.current.text?.getD "") = some id := by
      rw [hsymbols]
      exact hbound
    refine (meets_declareTaken hfind hexisting).bind fun found v hv => ?_
    obtain ⟨rfl, rfl⟩ := hv
    rw [htoken]
    have hrefers : (node.attach id existing .parameter).RefersTo t.current id existing :=
      Node.refersTo_attach htoken hnode rfl rfl id existing .parameter
    exact .pure ⟨State.redeclares_record hsymbols herrors hcap hbound, _, hrefers.declaredName?,
      hrefers⟩
  unfold templateParam
  rw [meets_expectName hname]
  dsimp only
  have hrun := outcome_eat t.advance (.punctuation .ellipsis)
  split at hrun
  all_goals
    rw [meets_step hrun hrun]
    dsimp only
    rw [meets_pure_bind]
    dsimp only
    rw [meets_get]
    exact hdeclare (by simp) (by simp) (by simpa using hconfig) rfl rfl

/-- What a function that is taken returns is told to no symbol. -/
theorem meets_functionDef (ht : t = { s.advance with templateScope := none })
    (htarget : s.advance.templateScope.getD s.advance.symbols.current = target)
    (visibility storage : Option Node) :
    Meets s (functionDef (rules n) visibility storage) (functionDef (rules n) visibility storage)
      (t.Reads target id existing) fun e u => t.Redeclares target id u ∧ e.token ≠ t.current := by
  unfold functionDef
  rw [meets_advance, meets_takeTemplateScope, meets_get, ← ht]
  have hcurrent : s.advance.symbols.current = t.symbols.current := by rw [ht]
  have hnote : t.templateScope = none := by rw [ht]
  rw [hcurrent] at htarget
  rw [htarget, meets_expectName hname]
  dsimp only
  refine meets_taken hhas hcap hname hbound hexisting rfl hnote rfl _ fun u hu => ?_
  have hsignature : PassesBy source config t (inNewScope (signatureAndBody (rules n) none)) :=
    .of_frame hname
      (obeys_newSignature (framed_rules n _) fun _ hi => absurd hi (Option.not_mem_none _))
      ((Survey.turns_signatureAndBody (whole_takenSurvey hname).toTrusted none).inNewScope
        (lawful_takenSurvey hname))
  refine (hsignature hu).bind fun parts v hv =>
    .pure ⟨hv.redeclares hbound, _, ?_, refersTo_name t.current id existing (t.memberRole target)⟩
  cases visibility <;> cases storage <;> rfl

/-- The members of a class or an enum that is taken live in a scope that belongs to no symbol. -/
theorem meets_classDef (ht : t = { s.advance with templateScope := none })
    (htarget : s.advance.templateScope.getD s.advance.symbols.current = target)
    (visibility : Option Node) :
    Meets s (classDef (rules n) visibility) (classDef (rules n) visibility)
      (t.Reads target id existing) fun e u => t.Redeclares target id u ∧ e.token ≠ t.current := by
  unfold classDef
  rw [meets_advance]
  dsimp only
  rw [meets_takeTemplateScope, meets_get, ← ht]
  have hcurrent : s.advance.symbols.current = t.symbols.current := by rw [ht]
  have hnote : t.templateScope = none := by rw [ht]
  rw [hcurrent] at htarget
  rw [htarget, meets_expectName hname]
  dsimp only
  generalize (if s.current.isKeyword .enumKw = true then Role.enumeration else .plain) = role
  refine meets_taken hhas hcap hname hbound hexisting rfl hnote rfl _ fun u hu => ?_
  have hwhole : (t.takenSurvey source config).Whole (rules n) := whole_takenSurvey hname
  have hbases : PassesBy source config t (bases (rules n)) :=
    .of_frame hname (obeys_bases (framed_rules n _)) (Survey.yields_bases hwhole.toTrusted)
  refine (hbases hu).bind fun types v hv => ?_
  rw [meets_isAt]
  split
  · rename_i hbrace
    have hblock (context : Context) :=
      hv.meets hname (obeys_block (framed_rules n _) Discipline.enters_push context)
        (hv.hand.block hwhole.toKeeps hbrace .push trivial rfl context)
    unfold memberScope
    rw [meets_pure_bind]
    refine (hblock _).bind fun body w hw =>
      .pure ⟨hw.redeclares hbound, _, ?_, refersTo_name t.current id existing role⟩
    cases visibility <;> rfl
  · exact .fail ⟨hv.frame, hv.hand.fails (lawful_takenSurvey hname) _ _⟩

end Forms

/-! ### All declarations -/

theorem State.proper_start (source : String) (config : ParseConfig) :
    (State.start source config).Proper source config := by
  have hsymbols : (State.start source config).symbols = .initial := by
    simp only [State.start, State.bump, State.unread]
  have hcomments : (State.start source config).comments =
      (State.unread source config).lexer.cursor.significant.comments := by
    simp only [State.start, State.bump, State.unread, List.nil_append]
  refine ⟨.start, hsymbols ▸ .initial, fun _ hid => absurd hid (Option.not_mem_none _), ?_, ?_⟩
  · simp only [State.start, State.bump, State.unread]
  · rw [hcomments]
    exact fun _ ht => Cursor.isComment_of_mem_comments ht

/-- A proper state has nothing in hand. -/
theorem State.Proper.has (h : s.Proper source config) :
    (grounded source.utf8ByteSize config).Has [] [] s := by
  have hstate : s.Grounded source.utf8ByteSize config :=
    ⟨h.reached.sound.lexer, h.comments, h.reached.config_eq⟩
  have hwaiting (n : Node) (hn : n ∈ s.lookaside) : n.IsBare := by
    rw [h.idle] at hn
    cases hn
  exact .intro hstate ⟨h.table, h.note, List.forall_mem_nil _, hwaiting⟩ h.idle
    fun _ hn => absurd hn List.not_mem_nil

/-- A declaration gets to its name in good order. -/
theorem Declaration.Reaches.has {n : Nat} {d : Declaration} (hd : d.Reaches (rules n) s t)
    (hs : s.Proper source config) : (grounded source.utf8ByteSize config).Has [] [] t := by
  have hloose := loose_grounded source.utf8ByteSize config
  have hL := hloose.complete.toLawful
  have htyped {storage : Option Node} {type : Node}
      (htype : outcome (typeRef (rules n) storage) s = (.ok (some type), t)) :
      (grounded source.utf8ByteSize config).Has [] [] t := by
    obtain ⟨_, _, _, _, _, -, hread⟩ :=
      (Survey.meets_typeRef hL (hloose.whole n).arguments storage hs.has).of_ok htype
    exact hread.sublist hL (List.nil_sublist _)
  cases d with
  | value storage | parameter =>
    obtain ⟨type, htype⟩ := hd
    exact htyped htype
  | function visibility storage | type visibility =>
    cases hd
    exact hs.has.pass hloose
  | templateParameter | enumerator =>
    cases hd
    exact hs.has

/-- **A name that is taken stays with its symbol.** Without a limit of errors, let a declaration get
to a name that its scope binds already, and let no note of a template header wait, unless the
declaration takes it or ends with its name. Then, in the end or with an error behind the name, all
symbols and scopes there were are as they were, the name is bound to the same symbol as before, and
that it is taken has been noted exactly once. The node of the name is bound to that symbol, and does
not introduce it. -/
theorem redeclaration_leaves_symbol (n : Nat) (d : Declaration) (hs : s.Proper source config)
    (hcap : config.maxErrors = none) (hd : d.Reaches (rules n) s t) (hname : t.isAt .ident)
    (hnote : d.leavesNote → t.templateScope = none)
    (hbound : t.symbols.findIn (d.target t) (t.current.text?.getD "") = some id) :
    ∃ existing, t.symbols.symbol? id = some existing ∧
      Meets s (d.production (rules n)) (d.production (rules n))
        (fun found u => ∃ node ∈ found, t.Redeclares (d.target t) id u ∧
          ∃ name, node.declaredName? = some name ∧ name.RefersTo t.current id existing)
        fun e u => t.Redeclares (d.target t) id u ∧ e.token ≠ t.current := by
  have hhas := hd.has hs
  have hL := (loose_grounded source.utf8ByteSize config).complete.toLawful
  obtain ⟨existing, hexisting, -⟩ := hhas.kept.sane.reached.consistent.name_of_findIn hbound
  refine ⟨existing, hexisting, ?_⟩
  have hfound {p : Production Node}
      (hp : Meets s p p (t.Reads (d.target t) id existing)
        fun e u => t.Redeclares (d.target t) id u ∧ e.token ≠ t.current) :
      Meets s (some <$> p) (some <$> p)
        (fun found u => ∃ node ∈ found, t.Reads (d.target t) id existing node u)
        fun e u => t.Redeclares (d.target t) id u ∧ e.token ≠ t.current :=
    .map (hp.weaken fun node u hu => ⟨node, rfl, hu⟩)
  cases d with
  | value storage =>
    obtain ⟨type, htype⟩ := hd
    change Meets s (declaration _ _) (declaration _ _) _ _
    unfold declaration
    rw [meets_step htype htype]
    dsimp only
    rw [meets_isAt, if_pos hname]
    have htyped := meets_typedVariable (n := n) hhas hcap hname hbound hexisting (hnote rfl) rfl type
    exact .map (htyped.weaken fun node u hu => ⟨node, rfl, hu⟩)
  | parameter =>
    obtain ⟨type, htype⟩ := hd
    exact hfound (meets_param hhas hcap hname hbound hexisting htype (hnote rfl) rfl)
  | templateParameter =>
    cases hd
    exact hfound (meets_takenTemplateParam hhas hcap hname hbound hexisting rfl)
  | function visibility storage =>
    cases hd
    exact hfound ((meets_functionDef (hhas.clearNote hL) hcap hname hbound hexisting rfl rfl
      visibility storage).mono (fun _ _ hu => ⟨hu.1.of_quiet, hu.2⟩) fun _ _ he =>
        ⟨he.1.of_quiet, he.2⟩)
  | type visibility =>
    cases hd
    exact hfound ((meets_classDef (hhas.clearNote hL) hcap hname hbound hexisting rfl rfl
      visibility).mono (fun _ _ hu => ⟨hu.1.of_quiet, hu.2⟩) fun _ _ he => ⟨he.1.of_quiet, he.2⟩)
  | enumerator =>
    cases hd
    exact meets_enumerator hhas hcap hname hbound hexisting (hnote rfl) rfl

/-- Operations lead to the table of a program. -/
theorem reached_symbols (source : String) (config : ParseConfig) :
    (Program.parse source config).symbols.Reached := by
  have hstart := (State.proper_start source config).has
  obtain ⟨s, -, -, hsymbols, hreached⟩ :=
    Survey.reading_keeps ((loose_grounded source.utf8ByteSize config).whole _) hstart.holds
  rw [← hsymbols]
  exact hreached

/-- A variable is declared again with a class in its value, in a table that binds it already. -/
theorem variable_is_declared_again :
    let source := "Foo x = function() { class A { } };"
    let table := (Program.parse "class Foo { }\nFoo x;" .standard).symbols
    let s : State := { State.start source .standard with symbols := table }
    let t := (outcome (typeRef (rules 40) none) s).2
    s.Proper source .standard ∧ t.isAt .ident ∧ t.templateScope = none ∧
      t.symbols.findIn t.symbols.current (t.current.text?.getD "") = some 21 ∧
      ∃ existing, t.symbols.symbol? 21 = some existing ∧
        Meets s (declaration (rules 40) none) (declaration (rules 40) none)
          (fun found u => ∃ node ∈ found, t.Redeclares t.symbols.current 21 u ∧
            ∃ name, node.declaredName? = some name ∧ name.RefersTo t.current 21 existing)
          fun e u => t.Redeclares t.symbols.current 21 u ∧ e.token ≠ t.current := by
  intro source table s t
  have hs : s.Proper source .standard := by
    refine ⟨.note .start table none (State.start source .standard).comments none,
      reached_symbols _ _, fun _ hid => absurd hid (Option.not_mem_none _), rfl, ?_⟩
    exact (State.proper_start source .standard).comments
  have hat : t.isAt .ident := by decide +kernel
  have hnote : t.templateScope = none := by decide +kernel
  have hbound : t.symbols.findIn t.symbols.current (t.current.text?.getD "") = some 21 := by
    decide +kernel
  have htype : ((outcome (typeRef (rules 40) none) s).1.toOption.bind id).isSome := by decide +kernel
  rcases hrun : outcome (typeRef (rules 40) none) s with ⟨_ | _ | type, u⟩
  · rw [hrun] at htype
    cases htype
  · rw [hrun] at htype
    cases htype
  · have ht : u = t := (congrArg Prod.snd hrun).symm
    have hreaches : (Declaration.value none).Reaches (rules 40) s t := ⟨type, ht ▸ hrun⟩
    exact ⟨hs, hat, hnote, hbound,
      redeclaration_leaves_symbol 40 (.value none) hs rfl hreaches hat (fun _ => hnote) hbound⟩

/-- While a note waits, a class in the value of such a variable may be declared among the members of
the symbol that the name is bound to. -/
theorem waiting_note_reaches_members :
    let source := "Foo x = function() { class A { } };"
    let table := (Program.parse "class Foo { }\nFoo x;" .standard).symbols
    let s : State := { State.start source .standard with symbols := table, templateScope := some 1 }
    let t := (outcome (typeRef (rules 40) none) s).2
    let u := (outcome (declaration (rules 40) none) s).2
    s.Proper source .standard ∧ t.isAt .ident ∧
      t.symbols.findIn t.symbols.current (t.current.text?.getD "") = some 21 ∧
      (t.symbols.symbol? 21).bind (·.members) = some 1 ∧ t.symbols.findIn 1 "A" = none ∧
      (u.symbols.findIn 1 "A").isSome := by
  intro source table s t u
  have hsize : table.scopes.size = 2 := by decide +kernel
  have hs : s.Proper source .standard := by
    refine ⟨.note .start table none (State.start source .standard).comments (some 1),
      reached_symbols _ _, fun scope hscope => ?_, rfl, ?_⟩
    · cases hscope
      exact Nat.lt_of_lt_of_eq Nat.one_lt_two hsize.symm
    · exact (State.proper_start source .standard).comments
  refine ⟨hs, ?_, ?_, ?_, ?_, ?_⟩
  all_goals decide +kernel

end Grammar

end SableFront
