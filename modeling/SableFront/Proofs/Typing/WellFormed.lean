import SableFront.Proofs.Survey.Node
import SableFront.Tree.ValueType

/-!
# Typing: well-formed types

A set of flags may say anything: that a value is an integer and a float, or a number of two sizes. A
type is *well formed* if its flags make sense as a number or as something else. Only the numeric
flags matter for this, so whatever adds or takes away other flags (`IsPlain`) keeps a type well
formed, and arithmetic on well-formed types gives a well-formed type.

A table is well typed if all types that it stores are well formed. Then so are the types of all
values that are worked out with it (`Node.wellFormed_valueType`).
-/

namespace SableFront

/-- The flags that describe numbers. -/
def Flag.isNumeric : Flag → Bool
  | integer | signed | w8 | w16 | w32 | w64 | float => true
  | _ => false

/-- All widths. -/
def Width.all : List Width := [w8, w16, w32, w64]

namespace SymbolType

/-- The widths in the set. -/
def widths (t : SymbolType) : List Width := Width.all.filter fun w => t.has w.flag

/-- A type is an integer, a float or neither, has one width if it is a number and none otherwise,
and is signed only if it is an integer. -/
structure WellFormed (t : SymbolType) : Prop where
  number : ¬ (t.isInteger ∧ t.isFloat)
  widths : t.widths.length = if t.isNumeric then 1 else 0
  signed : t.isSigned → t.isInteger

instance (t : SymbolType) : Decidable t.WellFormed :=
  decidable_of_iff (¬ (t.isInteger ∧ t.isFloat) ∧
      t.widths.length = (if t.isNumeric then 1 else 0) ∧ (t.isSigned → t.isInteger))
    ⟨fun h => ⟨h.1, h.2.1, h.2.2⟩, fun h => ⟨h.number, h.widths, h.signed⟩⟩

/-- The type has no numeric flag. -/
def IsPlain (t : SymbolType) : Prop := ∀ f : Flag, f.isNumeric → t.has f = false

variable {s t : SymbolType}

/-! ### Numeric flags -/

theorem has_ofFlag (f g : Flag) : (ofFlag f).has g = decide (f = g) := by
  have hbit : (ofFlag f).has g = decide (f.bit = g.bit) := by
    simp [has, ofFlag, BitVec.getLsbD_twoPow, f.bit_lt]
  rw [hbit, decide_eq_decide]
  exact ⟨Flag.bit_injective, congrArg Flag.bit⟩

theorem has_unknown (f : Flag) : unknown.has f = false := by simp [has, unknown]

theorem isPlain_unknown : unknown.IsPlain := fun f _ => has_unknown f

theorem isPlain_ofFlag {f : Flag} (hf : f.isNumeric = false) : (ofFlag f).IsPlain := by
  intro g hg
  rw [has_ofFlag, decide_eq_false_iff_not]
  rintro rfl
  rw [hf] at hg
  cases hg

theorem IsPlain.append (hs : s.IsPlain) (ht : t.IsPlain) : (s.append t).IsPlain := by
  intro f hf
  rw [has_append, hs f hf, ht f hf]
  rfl

theorem IsPlain.mask (ht : t.IsPlain) (s : SymbolType) : (s.mask t).IsPlain := by
  intro f hf
  rw [has_mask, ht f hf, Bool.and_false]

/-- Only the numeric flags matter. -/
theorem WellFormed.congr (h : s.WellFormed) (hsame : ∀ f : Flag, f.isNumeric → t.has f = s.has f) :
    t.WellFormed := by
  have hinteger : t.isInteger = s.isInteger := hsame .integer rfl
  have hfloat : t.isFloat = s.isFloat := hsame .float rfl
  have hsigned : t.isSigned = s.isSigned := hsame .signed rfl
  have hwidths : t.widths = s.widths := by
    refine List.filter_congr fun w _ => hsame w.flag ?_
    cases w <;> rfl
  constructor
  · rw [hinteger, hfloat]
    exact h.number
  · rw [hwidths, isNumeric, hinteger, hfloat]
    exact h.widths
  · rw [hsigned, hinteger]
    exact h.signed

theorem wellFormed_unknown : unknown.WellFormed := by decide

theorem IsPlain.wellFormed (h : t.IsPlain) : t.WellFormed :=
  wellFormed_unknown.congr fun f hf => (h f hf).trans (has_unknown f).symm

theorem WellFormed.append (h : s.WellFormed) (ht : t.IsPlain) : (s.append t).WellFormed :=
  h.congr fun f hf => by rw [has_append, ht f hf, Bool.or_false]

theorem WellFormed.without (h : s.WellFormed) (ht : t.IsPlain) : (s.without t).WellFormed :=
  h.congr fun f hf => by rw [has_without, ht f hf, Bool.not_false, Bool.and_true]

/-! ### Named types -/

theorem wellFormed_int (w : Width) (signed : Bool) : (int w signed).WellFormed := by
  cases w <;> cases signed <;> decide

theorem wellFormed_float (w : Width) : (float w).WellFormed := by cases w <;> decide

theorem wellFormed_builtin (b : BuiltinType) : (builtin b).WellFormed := by
  cases b <;> decide

theorem isPlain_anyType : anyType.IsPlain := isPlain_ofFlag rfl

theorem isPlain_structType : struct.asType.IsPlain := (isPlain_ofFlag rfl).append isPlain_anyType

/-- A value of a well-formed type has a well-formed type. -/
theorem WellFormed.forValue (h : t.WellFormed) : t.forValue.WellFormed := by
  have hopened : (t.without pack).WellFormed := h.without (isPlain_ofFlag rfl)
  unfold SymbolType.forValue
  dsimp only
  split
  · exact hopened.append (isPlain_ofFlag rfl)
  · exact hopened.without isPlain_anyType

/-- **Arithmetic** on well-formed types gives a well-formed type. -/
theorem WellFormed.promote (hs : s.WellFormed) (t : SymbolType) : (promote s t).WellFormed := by
  unfold SymbolType.promote
  split
  · exact hs
  · split
    · exact wellFormed_unknown
    · dsimp only
      split
      · exact wellFormed_float _
      · exact wellFormed_int _ _

end SymbolType

/-! ### Tables -/

/-- The types of the symbol are well formed. -/
structure Symbol.WellTyped (s : Symbol) : Prop where
  type : s.type.WellFormed
  returns : ∀ r ∈ s.returns, r.WellFormed

namespace SymbolTable

/-- All types that the table stores are well formed. -/
def WellTyped (t : SymbolTable) : Prop := ∀ id s, t.symbol? id = some s → s.WellTyped

/-- A name is bound to symbols of that name. -/
def Labelled (t : SymbolTable) : Prop :=
  ∀ scope name id, t.findIn scope name = some id → ∃ s, t.symbol? id = some s ∧ s.name = name

variable {t : SymbolTable} {id : SymbolId} {s : Symbol}

theorem Consistent.labelled (h : t.Consistent) : t.Labelled := by
  intro scope name id hfind
  obtain ⟨s, hs, hname, -⟩ := (h.bound scope name id).mp hfind
  exact ⟨s, hs, hname⟩

/-! ### What operations keep -/

theorem symbol?_modifySymbol (t : SymbolTable) (i : SymbolId) (f : Symbol → Symbol) (id : SymbolId) :
    (t.modifySymbol i f).symbol? id = if i = id then (t.symbol? id).map f else t.symbol? id :=
  Array.getElem?_modify

theorem WellTyped.newScope (h : t.WellTyped) (owner : Option SymbolId) :
    (t.newScope owner).WellTyped := h

theorem WellTyped.bindNew (h : t.WellTyped) (hs : s.WellTyped) (scope : ScopeId) :
    (t.bindNew scope s).WellTyped := by
  intro id a ha
  rw [symbol?_bindNew] at ha
  split at ha
  · cases ha
    exact ⟨hs.type, hs.returns⟩
  · exact h id a ha

theorem WellTyped.insert (h : t.WellTyped) (hs : s.WellTyped) : (t.insert s).2.WellTyped := by
  unfold SymbolTable.insert
  split
  · intro id a ha
    change (t.symbols.setIfInBounds _ _)[id]? = some a at ha
    rw [Array.getElem?_setIfInBounds] at ha
    split at ha
    · split at ha
      · cases ha
        exact ⟨hs.type, hs.returns⟩
      · cases ha
    · exact h id a ha
  · exact h.bindNew hs _

theorem WellTyped.modifySymbol (h : t.WellTyped) {f : Symbol → Symbol}
    (hf : ∀ a, a.WellTyped → (f a).WellTyped) (i : SymbolId) : (t.modifySymbol i f).WellTyped := by
  intro id a ha
  rw [symbol?_modifySymbol] at ha
  split at ha
  · obtain ⟨old, hold, rfl⟩ := Option.map_eq_some_iff.mp ha
    exact hf old (h id old hold)
  · exact h id a ha

theorem wellTyped_initial : SymbolTable.initial.WellTyped := by
  refine List.foldlRecOn BuiltinType.all _ (fun id s hs => by cases hs) fun _ h b _ => h.insert ?_
  exact ⟨SymbolType.wellFormed_builtin b, fun r hr => by cases hr⟩

theorem Labelled.newScope (h : t.Labelled) (owner : Option SymbolId) :
    (t.newScope owner).Labelled := by
  intro scope name id hfind
  rw [findIn_newScope] at hfind
  exact h scope name id hfind

theorem Labelled.bindNew (h : t.Labelled) (scope : ScopeId) (s : Symbol) :
    (t.bindNew scope s).Labelled := by
  intro other name id hfind
  obtain ⟨c, hc, hget⟩ := Option.bind_eq_some_iff.mp hfind
  have hold (hfind : t.findIn other name = some id) :
      ∃ a, (t.bindNew scope s).symbol? id = some a ∧ a.name = name := by
    obtain ⟨a, ha, hname⟩ := h other name id hfind
    have hlt : id < t.size := (Array.getElem?_eq_some_iff.mp ha).1
    exact ⟨a, by rw [symbol?_bindNew, if_neg (Nat.ne_of_lt hlt), ha], hname⟩
  rw [scope?_bindNew] at hc
  split at hc
  · obtain ⟨old, hscope, rfl⟩ := Option.map_eq_some_iff.mp hc
    by_cases hname : name = s.name
    · subst hname
      rw [Scope.get?_bind_self] at hget
      cases hget
      exact ⟨{ s with definedIn := scope }, by rw [symbol?_bindNew, if_pos rfl], rfl⟩
    · rw [Scope.get?_bind_ne _ _ hname] at hget
      exact hold (Option.bind_eq_some_iff.mpr ⟨old, hscope, hget⟩)
  · exact hold (Option.bind_eq_some_iff.mpr ⟨c, hc, hget⟩)

theorem Labelled.modifySymbol (h : t.Labelled) {f : Symbol → Symbol} (hf : ∀ a, (f a).name = a.name)
    (i : SymbolId) : (t.modifySymbol i f).Labelled := by
  intro scope name id hfind
  obtain ⟨a, ha, hname⟩ := h scope name id hfind
  rw [symbol?_modifySymbol, ha]
  split
  · exact ⟨f a, rfl, (hf a).trans hname⟩
  · exact ⟨a, rfl, hname⟩

/-- What takes the place of a symbol has its name. -/
theorem Labelled.insert (h : t.Labelled) (s : Symbol) : (t.insert s).2.Labelled := by
  unfold SymbolTable.insert
  split
  · rename_i found hfound
    intro scope name id hfind
    obtain ⟨a, ha, hname⟩ := h scope name id hfind
    by_cases hid : found = id
    · subst hid
      obtain ⟨old, hold, hsame⟩ := h _ _ _ hfound
      cases ha.symm.trans hold
      have hlt : found < t.size := (Array.getElem?_eq_some_iff.mp ha).1
      exact ⟨_, Array.getElem?_setIfInBounds_self_of_lt hlt, hsame.symm.trans hname⟩
    · exact ⟨a, (Array.getElem?_setIfInBounds_ne hid).trans ha, hname⟩
  · exact h.bindNew _ s

end SymbolTable

/-! ### Values -/

namespace Node

variable {table : SymbolTable} {n : Node}

/-- If the node is a type reference, the type that it stands for is well formed. -/
def RefersWell (n : Node) : Prop := ∀ t ∈ n.referredType?, t.WellFormed

/-- What a symbol that may be missing says about a type is well formed, if it says so when it is
there. -/
theorem wellFormed_ofSymbol (h : table.WellTyped) {f : Symbol → SymbolType}
    (hf : ∀ s : Symbol, s.WellTyped → (f s).WellFormed) (id : Option SymbolId) :
    (((id.bind table.symbol?).map f).getD .unknown).WellFormed := by
  cases hs : id.bind table.symbol? with
  | none => exact SymbolType.wellFormed_unknown
  | some s =>
    obtain ⟨id, -, hs⟩ := Option.bind_eq_some_iff.mp hs
    exact hf s (h id s hs)

theorem wellFormed_callType {s : Symbol} (hs : s.WellTyped) : (callType s).WellFormed := by
  unfold callType
  split
  · exact hs.type.forValue
  · cases hr : s.returns with
    | none => exact SymbolType.wellFormed_unknown
    | some r => exact hs.returns r hr

/-- One step of the work: the types of the children are well formed. -/
theorem wellFormed_valueType_step (h : table.WellTyped) {data : NodeData} {children : List Node}
    (hchildren : ∀ c ∈ children, (c.valueType table).WellFormed ∧ c.RefersWell) :
    ((mk data children).valueType table).WellFormed := by
  have hplain (f : Flag) (hf : f.isNumeric = false) : (SymbolType.ofFlag f).WellFormed :=
    (SymbolType.isPlain_ofFlag hf).wellFormed
  have hpair (f g : Flag) (hf : f.isNumeric = false) (hg : g.isNumeric = false) :
      ((SymbolType.ofFlag f).append (.ofFlag g)).WellFormed :=
    (hplain f hf).append (SymbolType.isPlain_ofFlag hg)
  have hbool : SymbolType.bool.WellFormed := hplain .bool rfl
  have hself := wellFormed_ofSymbol h (fun _ hs => hs.type) (mk data children).boundSymbol?
  have hunknown := SymbolType.wellFormed_unknown
  obtain ⟨form, ⟨kind, _, _, _, _, _⟩, _, _, _, _⟩ := data
  -- on the form, which tells how many of the children are looked at
  cases form
  case int => exact SymbolType.wellFormed_int _ _
  case float => exact SymbolType.wellFormed_float _
  case str => exact hpair .char .list rfl rfl
  case char => exact hplain .char rfl
  case null => exact hplain .pointer rfl
  case list => exact hplain .list rfl
  case dict => exact hpair .struct .list rfl rfl
  case lambda => exact hplain .function rfl
  case bool | between => exact hbool
  case ident | dotted => exact hself
  case binary =>
    rcases children with _ | ⟨left, _ | ⟨right, _ | _⟩⟩
    case cons.cons.nil =>
      have hboth := (hchildren left (by simp)).1.promote (valueType table right)
      cases kind with
      | operator o => cases o <;> first | exact hbool | exact hboth
      | _ => exact hboth
    all_goals exact hunknown
  case invert =>
    rcases children with _ | ⟨operand, _ | _⟩
    case cons.nil =>
      have hoperand := (hchildren operand (by simp)).1
      cases kind with
      | operator o => cases o <;> first | exact hbool | exact hoperand
      | _ => exact hoperand
    all_goals exact hunknown
  case stepBefore | stepAfter =>
    rcases children with _ | ⟨operand, _ | _⟩
    case cons.nil => exact (hchildren operand (by simp)).1
    all_goals exact hunknown
  case deref =>
    rcases children with _ | ⟨operand, _ | _⟩
    case cons.nil =>
      exact (hchildren operand (by simp)).1.without (SymbolType.isPlain_ofFlag rfl)
    all_goals exact hunknown
  case call =>
    rcases children with _ | ⟨callee, _⟩
    · exact hunknown
    · exact wellFormed_ofSymbol h (fun _ => wellFormed_callType) callee.boundSymbol?
  case index =>
    rcases children with _ | ⟨target, _⟩
    · exact hunknown
    · have hchoice : (if valueType table target = .string then SymbolType.char
          else .unknown).WellFormed := by
        split
        · exact hplain .char rfl
        · exact hunknown
      exact hchoice
  case slice =>
    rcases children with _ | ⟨target, _⟩
    · exact hunknown
    · exact (hchildren target List.mem_cons_self).1
  case new =>
    rcases children with _ | ⟨⟨⟨type, _, _, _, _, _⟩, _⟩, _⟩
    · exact hunknown
    · have hrefers := (hchildren _ List.mem_cons_self).2
      cases type with
      | typeRef _ _ t =>
        exact (hrefers t rfl).forValue.append (SymbolType.isPlain_ofFlag (f := .pointer) rfl)
      | _ => exact hplain .pointer rfl
  case assignment =>
    rcases children with _ | ⟨_, _ | ⟨value, _ | _⟩⟩
    case cons.cons.nil => exact (hchildren value (by simp)).1
    all_goals exact hunknown
  all_goals exact hunknown

mutual

/-- **The type of every value is well formed**, if those that the table stores and those that type
references stand for are. -/
theorem wellFormed_valueType (h : table.WellTyped) : ∀ n : Node, n.Everywhere RefersWell →
    (n.valueType table).WellFormed
  | mk _ children, hn => wellFormed_valueType_step h fun c hc =>
    have hbelow := (everywhere_iff.mp hn).2
    ⟨all_wellFormed_valueType h children hbelow c hc, (hbelow c hc).self⟩

theorem all_wellFormed_valueType (h : table.WellTyped) : ∀ ns : List Node,
    (∀ n ∈ ns, n.Everywhere RefersWell) → ∀ n ∈ ns, (n.valueType table).WellFormed
  | [], _, _, hn => by cases hn
  | first :: others, hns, m, hm => by
    rcases List.mem_cons.mp hm with hfirst | hm
    · rw [hfirst]
      exact wellFormed_valueType h first (hns first List.mem_cons_self)
    · exact all_wellFormed_valueType h others (fun k hk => hns k (List.mem_cons_of_mem _ hk)) m hm

end

end Node

end SableFront
