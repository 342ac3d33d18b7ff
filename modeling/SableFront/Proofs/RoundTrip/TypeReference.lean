import SableFront.Proofs.RoundTrip.Angles
import SableFront.Proofs.RoundTrip.TypeTerm
import SableFront.Proofs.Spaced.Operand
import SableFront.Program

/-!
# Round trip: type references

A type term that is written down is read as a type reference that says it, however the angles that
close it are cut into tokens. This is shown for one level, from the same for the arguments
(`readsType_mk`), and then for types of any depth (`readsType`).
-/

namespace SableFront

open Grammar TypeTerm

variable {P : SymbolTable → Prop} {rest : List Char} {s : State} {b : BuiltinType}

/-! ### Words -/

namespace Word

/-- The name of a builtin type, which may be a reserved word. -/
def type (b : BuiltinType) : Word :=
  ⟨b.spelling, (Lexeme.ofWord b.spelling).1, (Lexeme.ofWord b.spelling).2⟩

theorem type_before (b : BuiltinType) (hrest : ∀ d ∈ rest.head?, Lexeme.isWordChar d = false) :
    (type b).IsReadBefore rest := by
  obtain ⟨c, cs, htext, hstart, hall⟩ : ∃ c cs, b.spelling.toList = c :: cs ∧
      Lexeme.isWordStart c ∧ cs.all Lexeme.isWordChar := by
    cases b <;> exact ⟨_, _, rfl, rfl, rfl⟩
  refine ⟨⟨c, cs, htext, ?_⟩, by cases b <;> rfl, by cases b <;> exact Kind.noConfusion⟩
  rw [Lexeme.scan_word hstart (List.all_eq_true.mp hall) hrest, ← htext, String.ofList_toList]
  rfl

theorem name_before {x : String} (hx : IsName x)
    (hrest : ∀ d ∈ rest.head?, Lexeme.isWordChar d = false) : (name x).IsReadBefore rest := by
  obtain ⟨c, cs, htext, hscan⟩ := scan_name hx
  exact ⟨⟨c, cs, htext, hscan rest hrest⟩, rfl, Kind.noConfusion⟩

theorem comma_before (rest : List Char) : (mark .comma).IsReadBefore rest :=
  ⟨⟨',', [], rfl, rfl⟩, rfl, Kind.noConfusion⟩

theorem semicolon_before (rest : List Char) : (mark .semicolon).IsReadBefore rest :=
  ⟨⟨';', [], rfl, rfl⟩, rfl, Kind.noConfusion⟩

theorem lt_before (b : BuiltinType) (rest : List Char) :
    (operator .lt).IsReadBefore ((type b).text.toList ++ rest) := by
  refine ⟨⟨'<', [], rfl, ?_⟩, rfl, Kind.noConfusion⟩
  cases b <;> rfl

end Word

/-- Names of types are names or reserved words. -/
theorem kind_type (b : BuiltinType) : isClosingAngle (Word.type b).kind = false ∧
    (Word.type b).kind ≠ .punctuation .semicolon ∧ (Word.type b).kind ≠ .eof := by
  refine ⟨?_, ?_, ?_⟩ <;> cases b <;> first | rfl | exact Kind.noConfusion

theorem name?_type {t : Token} (h : IsToken (.type b) t) : t.name? = some b.spelling := by
  obtain ⟨kind, value, span, offset, size, width⟩ := t
  obtain ⟨rfl, rfl⟩ := h
  cases b <;> rfl

/-- The names of the builtin types denote types at the start of a program. -/
theorem isType_find_initial (b : BuiltinType) :
    ((SymbolTable.initial.find b.spelling).bind SymbolTable.initial.symbol?).any
      (·.type.isType) := by
  have hall : BuiltinType.all.all (fun b => ((SymbolTable.initial.find b.spelling).bind
      SymbolTable.initial.symbol?).any (·.type.isType)) = true := by decide +kernel
  exact List.all_eq_true.mp hall b b.mem_all

namespace Grammar

/-- No symbols have been declared. -/
def IsFresh (t : SymbolTable) : Prop := t = .initial

theorem isFresh_initial : IsFresh .initial := by
  unfold IsFresh
  rfl

theorem Faces.atTypeName (h : Faces IsFresh ((Word.type b).text.toList ++ rest) s)
    (hw : (Word.type b).IsReadBefore rest) : s.atTypeName := by
  obtain ⟨hkind, hvalue, -⟩ := h.word hw
  have hsymbols : s.symbols = .initial := h.symbols
  rw [State.atTypeName, State.currentSymbol?, name?_type ⟨hkind, hvalue⟩, hsymbols]
  exact isType_find_initial b

theorem ident?_bindName (s : State) {t : Token} {x : String} (h : t.name? = some x) :
    (s.bindName t).ident?.map Ident.name = some x := by
  unfold State.bindName
  rw [h]
  dsimp only
  split
  · split <;> rfl
  · rfl

/-! ### What follows a type -/

/-- What may follow a type: a comma, a closing angle, or a name behind a blank. Neither a mark nor
generic arguments come next. -/
structure Follows (rest : List Char) : Prop where
  head : rest.head? ∈ [some ',', some '>', some ' ']
  stops : ∀ ⦃s⦄, Faces IsFresh rest s →
    modifier? s.current.kind = none ∧ s.isAt (.operator .lt) = false

theorem follows_comma (cs : List Char) : Follows (',' :: cs) := by
  refine ⟨List.mem_cons_self, fun s hs => ?_⟩
  obtain ⟨hkind, -, -⟩ := Faces.word (w := .mark .comma) hs (Word.comma_before cs)
  rw [State.isAt, hkind]
  exact ⟨rfl, rfl⟩

theorem follows_angle (n : Nat) (cs : List Char) : Follows (List.replicate n ' ' ++ '>' :: cs) := by
  refine ⟨?_, fun s hs => ?_⟩
  · cases n with
    | zero => exact List.mem_cons_of_mem _ List.mem_cons_self
    | succ n => exact List.mem_cons_of_mem _ (List.mem_cons_of_mem _ List.mem_cons_self)
  · obtain ⟨hcloses, -, -⟩ := hs.pastBlanks.splitAngle
    rw [State.isAt]
    revert hcloses
    cases s.current.kind with
    | operator o => cases o <;> decide
    | _ => exact fun h => absurd h Bool.false_ne_true

theorem follows_name {x : String} (hx : IsName x)
    (hrest : ∀ d ∈ rest.head?, Lexeme.isWordChar d = false) :
    Follows (' ' :: (x.toList ++ rest)) := by
  refine ⟨List.mem_cons_of_mem _ (List.mem_cons_of_mem _ List.mem_cons_self), fun s hs => ?_⟩
  obtain ⟨hkind, -, -⟩ := Faces.word (w := .name x) hs.pastBlank (Word.name_before hx hrest)
  rw [State.isAt, hkind]
  exact ⟨rfl, rfl⟩

/-! ### Marks -/

section Marks

variable {marks : List TypeMark}

theorem toList_trailed_cons (m : TypeMark) (marks : List TypeMark) :
    (trailed (m :: marks)).toList =
      ' ' :: (m.operator.spelling.toList ++ (trailed marks).toList) := by
  rw [trailed, List.map_cons, String.join_cons, String.toList_append, String.toList_append,
    List.append_assoc]
  rfl

theorem head_trailed (hrest : Follows rest) (marks : List TypeMark) :
    ((trailed marks).toList ++ rest).head? ∈ [some ',', some '>', some ' '] := by
  cases marks with
  | nil => exact hrest.head
  | cons m marks =>
    rw [toList_trailed_cons]
    exact List.mem_cons_of_mem _ (List.mem_cons_of_mem _ List.mem_cons_self)

theorem mark_before (m : TypeMark) (h : rest.head? ∈ [some ',', some '>', some ' ']) :
    (Word.operator m.operator).IsReadBefore rest := by
  obtain ⟨d, ds, rfl, hd⟩ : ∃ d ds, rest = d :: ds ∧ d ∈ [',', '>', ' '] := by
    cases rest with
    | nil => simp at h
    | cons d ds => exact ⟨d, ds, rfl, by simpa using h⟩
  simp only [List.mem_cons, List.not_mem_nil, or_false] at hd
  cases m <;> rcases hd with rfl | rfl | rfl <;> exact ⟨⟨_, [], rfl, rfl⟩, rfl, Kind.noConfusion⟩

/-- One round of reading marks. -/
def markRound (marks : List Token) : Production (List Token ⊕ List Token) := do
  if (modifier? (← current).kind).isSome then return .inl (marks ++ [← advance])
  else return .inr marks

theorem leads_markRound_last (hrest : Follows rest) (before : List Token) :
    Leads (Faces IsFresh rest) (markRound before) (Faces IsFresh rest) (· = .inr before) := by
  refine leads_current.bind fun t ht => ?_
  obtain ⟨s, hs, rfl⟩ := ht
  rw [(hrest.stops hs).1, Option.isSome_none, if_neg Bool.false_ne_true]
  exact .pure rfl

theorem leads_markRound (m : TypeMark) (h : rest.head? ∈ [some ',', some '>', some ' '])
    (before : List Token) :
    Leads (Faces IsFresh (' ' :: (m.operator.spelling.toList ++ rest))) (markRound before)
      (Faces IsFresh rest) fun found => ∃ after, found = .inl after ∧
        after.map Token.kind = before.map Token.kind ++ [.operator m.operator] := by
  have hmark := mark_before m h
  suffices hmain : Leads (Faces IsFresh ((Word.operator m.operator).text.toList ++ rest))
      (markRound before) (Faces IsFresh rest) fun found => ∃ after, found = .inl after ∧
        after.map Token.kind = before.map Token.kind ++ [.operator m.operator] from
    hmain.start fun s hs => hs.pastBlank
  refine leads_current.bind fun t ht => ?_
  obtain ⟨s, hs, rfl⟩ := ht
  have hsome : (modifier? s.current.kind).isSome := by
    rw [(hs.word hmark).1]
    cases m <;> rfl
  rw [if_pos hsome]
  refine (leads_advance hmark).bind fun t ht => .pure ⟨_, rfl, ?_⟩
  rw [List.map_append, List.map_singleton, ht.1]
  rfl

theorem leads_markRounds (hrest : Follows rest) (before : List Token) {k : Nat}
    (hk : marks.length < k) :
    Leads (Faces IsFresh ((trailed marks).toList ++ rest)) (loop markRound k before)
      (Faces IsFresh rest) fun found => found.map Token.kind =
        before.map Token.kind ++ marks.map fun m => .operator m.operator := by
  induction marks generalizing k before with
  | nil =>
    obtain ⟨k, rfl⟩ := Nat.exists_eq_add_one_of_ne_zero (Nat.ne_zero_of_lt hk)
    refine .loop_last ((leads_markRound_last hrest before).mono fun found hfound => ?_)
    exact ⟨before, hfound, by rw [List.map_nil, List.append_nil]⟩
  | cons m marks ih =>
    obtain ⟨k, rfl⟩ := Nat.exists_eq_add_one_of_ne_zero (Nat.ne_zero_of_lt hk)
    have hround := leads_markRound m (head_trailed hrest marks) before
    rw [toList_trailed_cons, List.cons_append, List.append_assoc]
    refine .loop_next hround fun after hafter => ?_
    refine (ih after (Nat.lt_of_succ_lt_succ hk)).mono fun found hfound => ?_
    rw [hfound, hafter, List.append_assoc]
    rfl

/-- The marks after a type are read, and nothing else. -/
theorem leads_modifiers (hrest : Follows rest) {k : Nat} (hk : marks.length < k) :
    Leads (Faces IsFresh ((trailed marks).toList ++ rest)) (modifiers k) (Faces IsFresh rest)
      fun found => found.map Token.kind = marks.map fun m => .operator m.operator :=
  leads_markRounds hrest [] hk

end Marks

/-! ### Arguments -/

section Arguments

variable {gap : TypeTerm → Nat} {t : TypeTerm} {args : List TypeTerm} {blanks : Nat}

/-- Arguments as they are written, with commas between them. -/
def joined (gap : TypeTerm → Nat) (args : List TypeTerm) : List Char :=
  [',', ' '].intercalate (args.map fun t => (t.render gap).toList)

theorem joined_singleton (t : TypeTerm) : joined gap [t] = (t.render gap).toList :=
  List.intercalate_singleton

theorem joined_cons_cons (t u : TypeTerm) (args : List TypeTerm) :
    joined gap (t :: u :: args) =
      (t.render gap).toList ++ (',' :: ' ' :: joined gap (u :: args)) := by
  rw [joined, List.map_cons, List.map_cons, List.intercalate_cons_cons, List.append_assoc]
  rfl

theorem renderAll_eq_map (gap : TypeTerm → Nat) (args : List TypeTerm) :
    renderAll gap args = args.map (render gap) := by
  induction args with
  | nil => rw [renderAll, List.map_nil]
  | cons t args ih => rw [renderAll, ih, List.map_cons]

theorem toList_angled (hargs : args ≠ []) :
    (angled blanks (renderAll gap args)).toList =
      '<' :: (joined gap args ++ (List.replicate blanks ' ' ++ ['>'])) := by
  obtain ⟨t, more, rfl⟩ := List.exists_cons_of_ne_nil hargs
  rw [renderAll_eq_map, List.map_cons, angled]
  simp only [String.toList_append, String.toList_intercalate, String.toList_ofList,
    List.append_assoc, ← List.map_cons, List.map_map]
  rfl

theorem head_angled (hrest : Follows rest) (marks : List TypeMark) (blanks : Nat)
    (strings : List String) :
    ∀ d ∈ ((angled blanks strings).toList ++ ((trailed marks).toList ++ rest)).head?,
      Lexeme.isWordChar d = false := by
  cases strings with
  | nil =>
    have hhead := head_trailed hrest marks
    intro d hd
    change d ∈ ((trailed marks).toList ++ rest).head? at hd
    rw [Option.mem_def.mp hd] at hhead
    simp only [List.mem_cons, Option.some.injEq, List.not_mem_nil, or_false] at hhead
    rcases hhead with rfl | rfl | rfl <;> rfl
  | cons text more =>
    rw [angled, String.append_assoc, String.append_assoc, String.toList_append]
    intro d hd
    cases hd
    rfl

/-- A type starts with the name of a builtin type. -/
theorem starts_with_type (gap : TypeTerm → Nat) (t : TypeTerm) (hrest : Follows rest) :
    ∃ b behind, (t.render gap).toList ++ rest = (Word.type b).text.toList ++ behind ∧
      (Word.type b).IsReadBefore behind := by
  obtain ⟨b, args, marks⟩ := t
  refine ⟨b, _, ?_, Word.type_before b (head_angled hrest marks (gap (mk b args marks))
    (renderAll gap args))⟩
  rw [render, String.toList_append, String.toList_append, List.append_assoc, List.append_assoc]
  rfl

theorem Faces.of_type (hrest : Follows rest)
    (h : Faces IsFresh ((t.render gap).toList ++ rest) s) :
    s.atTypeName ∧ ∃ b, s.current.kind = (Word.type b).kind := by
  obtain ⟨b, behind, htext, hw⟩ := starts_with_type gap t hrest
  rw [htext] at h
  exact ⟨h.atTypeName hw, b, (h.word hw).1⟩

variable {missing : State → ErrorKind} {item : Production Node} {behind next : List Char}

/-- The type is read by the production as an item of a list, whatever may follow it. -/
def ReadsArgument (gap : TypeTerm → Nat) (item : Production Node) (t : TypeTerm) : Prop :=
  ∀ ⦃rest⦄, Follows rest → Leads (Faces IsFresh ((t.render gap).toList ++ rest)) item
    (Faces IsFresh rest) fun n => n.typeTerm? = some t

theorem leads_angleRound_last (items : List Node) :
    Leads (Faces IsFresh (List.replicate blanks ' ' ++ '>' :: rest))
      (commaRound angle missing item items) (Faces IsFresh rest)
      fun found => ∃ t, found = .inr (items, t) := by
  refine (leads_closeAngle.start fun s hs => hs.pastBlanks).bind fun found hfound => ?_
  obtain ⟨t, rfl⟩ := Option.isSome_iff_exists.mp hfound
  exact .pure ⟨t, rfl⟩

/-- An item, and a comma or an angle after it. -/
theorem leads_angleRound {C : Option Token → Prop} (ht : ReadsArgument gap item t)
    (hbehind : Follows behind)
    (hcomma : Leads (Faces IsFresh behind) (eat (.punctuation .comma)) (Faces IsFresh next) C)
    (hnext : ∀ comma s, C comma → Faces IsFresh next s →
      (comma.isNone && !isClosingAngle s.current.kind) = false) (items : List Node) :
    Leads (Faces IsFresh ((t.render gap).toList ++ behind)) (commaRound angle missing item items)
      (Faces IsFresh next) fun found => ∃ after, found = .inl after ∧
        after.map Node.typeTerm? = items.map Node.typeTerm? ++ [some t] := by
  have hcloses (s : State) (hs : Faces IsFresh ((t.render gap).toList ++ behind) s) :
      isClosingAngle s.current.kind = false := by
    obtain ⟨-, b, hkind⟩ := hs.of_type hbehind
    exact hkind ▸ (kind_type b).1
  refine (leads_closeAngle_none hcloses).bind fun found hfound => ?_
  subst hfound
  refine (ht hbehind).bind fun a ha => hcomma.bind fun comma hc => Leads.get.bind fun s hs => ?_
  change Leads _ (if (comma.isNone && !isClosingAngle s.current.kind) = true then _ else _) _ _
  rw [hnext comma s hc hs, if_neg Bool.false_ne_true]
  refine .pure ⟨_, rfl, ?_⟩
  rw [List.map_append, List.map_singleton, ha]

theorem leads_comma (cs : List Char) :
    Leads (Faces IsFresh (',' :: cs)) (eat (.punctuation .comma)) (Faces IsFresh cs)
      fun comma => ∃ t, comma = some t := leads_eat (Word.comma_before cs) rfl

theorem leads_comma_none :
    Leads (Faces IsFresh (List.replicate blanks ' ' ++ '>' :: rest)) (eat (.punctuation .comma))
      (Faces IsFresh (List.replicate blanks ' ' ++ '>' :: rest)) (· = none) := by
  refine leads_eat_none fun s hs => beq_false_of_ne fun hkind => ?_
  have hcloses := hs.pastBlanks.splitAngle.1
  rw [hkind] at hcloses
  cases hcloses

theorem leads_angleRounds (hargs : ∀ t ∈ args, ReadsArgument gap item t) (items : List Node)
    {k : Nat} (hk : args.length < k) :
    Leads (Faces IsFresh (joined gap args ++ (List.replicate blanks ' ' ++ '>' :: rest)))
      (loop (commaRound angle missing item) k items) (Faces IsFresh rest) fun found =>
        found.1.map Node.typeTerm? = items.map Node.typeTerm? ++ args.map some := by
  -- on the arguments, of which each round reads one
  induction args generalizing k items with
  | nil =>
    obtain ⟨k, rfl⟩ := Nat.exists_eq_add_one_of_ne_zero (Nat.ne_zero_of_lt hk)
    refine .loop_last ((leads_angleRound_last items).mono fun found hfound => ?_)
    obtain ⟨t, rfl⟩ := hfound
    exact ⟨_, rfl, by rw [List.map_nil, List.append_nil]⟩
  | cons t args ih =>
    obtain ⟨k, rfl⟩ := Nat.exists_eq_add_one_of_ne_zero (Nat.ne_zero_of_lt hk)
    obtain ⟨ht, hmore⟩ := List.forall_mem_cons.mp hargs
    have hrest : ∀ after : List Node,
        after.map Node.typeTerm? = items.map Node.typeTerm? ++ [some t] →
        Leads (Faces IsFresh (joined gap args ++ (List.replicate blanks ' ' ++ '>' :: rest)))
          (loop (commaRound angle missing item) k after) (Faces IsFresh rest) fun found =>
            found.1.map Node.typeTerm? = items.map Node.typeTerm? ++ (t :: args).map some := by
      intro after hafter
      refine (ih hmore after (Nat.lt_of_succ_lt_succ hk)).mono fun found hfound => ?_
      rw [hfound, hafter, List.append_assoc]
      rfl
    cases args with
    | nil =>
      rw [joined_singleton]
      refine .loop_next (leads_angleRound ht (follows_angle blanks rest) leads_comma_none
        (fun comma s _ hs => ?_) items) hrest
      rw [hs.pastBlanks.splitAngle.1, Bool.not_true, Bool.and_false]
    | cons u args =>
      rw [joined_cons_cons, List.append_assoc]
      refine .loop_next (leads_angleRound ht (follows_comma _) (leads_comma _)
        (fun comma s hcomma _ => ?_) items) fun after hafter =>
          (hrest after hafter).start fun s hs => hs.pastBlank
      obtain ⟨t, rfl⟩ := hcomma
      rfl

/-- A list of arguments starts with the name of a builtin type. -/
theorem starts_joined (gap : TypeTerm → Nat) (hne : args ≠ []) (blanks : Nat) (rest : List Char) :
    ∃ b behind, joined gap args ++ (List.replicate blanks ' ' ++ '>' :: rest) =
      (Word.type b).text.toList ++ behind := by
  obtain ⟨t, more, rfl⟩ := List.exists_cons_of_ne_nil hne
  cases more with
  | nil =>
    obtain ⟨b, behind, htext, -⟩ := starts_with_type gap t (follows_angle blanks rest)
    refine ⟨b, behind, ?_⟩
    rw [joined_singleton]
    exact htext
  | cons u more =>
    obtain ⟨b, behind, htext, -⟩ := starts_with_type gap t (follows_comma
      (' ' :: joined gap (u :: more) ++ (List.replicate blanks ' ' ++ '>' :: rest)))
    refine ⟨b, behind, ?_⟩
    rw [joined_cons_cons, List.append_assoc]
    exact htext

/-- The type is read by the production, whatever may follow it. -/
def ReadsType (gap : TypeTerm → Nat) (p : Production (Option Node)) (t : TypeTerm) : Prop :=
  ∀ ⦃rest⦄, Follows rest → Leads (Faces IsFresh ((t.render gap).toList ++ rest)) p
    (Faces IsFresh rest) fun found => ∃ n, found = some n ∧ n.typeTerm? = some t

theorem readsArgument_genericArgument {r : Rules} (h : ReadsType gap r.typeRef t) :
    ReadsArgument gap (genericArgument r) t := by
  intro rest hrest
  refine Leads.get.bind fun s hs => ?_
  rw [if_pos (hs.of_type hrest).1]
  exact (h hrest).require _

theorem angled_append (hne : args ≠ []) (rest : List Char) :
    (angled blanks (renderAll gap args)).toList ++ rest = (Word.operator .lt).text.toList ++
      (joined gap args ++ (List.replicate blanks ' ' ++ '>' :: rest)) := by
  rw [toList_angled hne, List.cons_append, List.append_assoc, List.append_assoc]
  rfl

theorem lt_before_joined (hne : args ≠ []) (rest : List Char) :
    (Word.operator .lt).IsReadBefore
      (joined gap args ++ (List.replicate blanks ' ' ++ '>' :: rest)) := by
  obtain ⟨b, behind, hbehind⟩ := starts_joined gap hne blanks rest
  exact hbehind ▸ Word.lt_before b behind

/-- **Generic arguments** are read up to the angle that closes them, glued to others or not. -/
theorem leads_genericArguments {r : Rules} (hargs : ∀ t ∈ args, ReadsType gap r.typeRef t)
    (hne : args ≠ []) (hk : args.length < r.rounds) (blanks : Nat) (rest : List Char) :
    Leads (Faces IsFresh ((angled blanks (renderAll gap args)).toList ++ rest))
      (genericArguments r) (Faces IsFresh rest)
      fun found => ∃ list, found = some list ∧ list.1.map Node.typeTerm? = args.map some := by
  rw [angled_append hne]
  refine .orRewind (.orNone ((leads_advance (lt_before_joined hne rest)).bind fun _ _ => ?_))
  exact leads_angleRounds (fun t ht => readsArgument_genericArgument (hargs t ht)) [] hk

end Arguments

/-! ### Type references -/

section References

variable {gap : TypeTerm → Nat} {t : TypeTerm} {args : List TypeTerm} {marks : List TypeMark}
  {r : Rules}

/-- Behind a name without arguments no `<` comes next. -/
theorem isAt_lt_trailed (hrest : Follows rest)
    (hs : Faces IsFresh ((trailed marks).toList ++ rest) s) : s.isAt (.operator .lt) = false := by
  cases marks with
  | nil => exact (hrest.stops hs).2
  | cons m marks =>
    rw [toList_trailed_cons, List.cons_append, List.append_assoc] at hs
    have hkind := hs.pastBlank.isAt (w := .operator m.operator)
      (mark_before m (head_trailed hrest marks)) (.operator .lt)
    rw [hkind]
    cases m <;> rfl

/-- Behind a name, its arguments are read, if there are any. -/
theorem leads_arguments {α : Type} {f : Option (List Node × Token) → Production α}
    {after : State → Prop} {Q : α → Prop} (hargs : ∀ t ∈ args, ReadsType gap r.typeRef t)
    (hk : args.length < r.rounds) (hrest : Follows rest) (blanks : Nat)
    (hf : ∀ found : Option (List Node × Token),
      ((found.map (·.1)).getD []).map Node.typeTerm? = args.map some →
      Leads (Faces IsFresh ((trailed marks).toList ++ rest)) (f found) after Q) :
    Leads (Faces IsFresh ((angled blanks (renderAll gap args)).toList ++
        ((trailed marks).toList ++ rest)))
      (do if ← isAt (.operator .lt) then genericArguments r >>= f else pure none >>= f)
      after Q := by
  by_cases hne : args = []
  · subst hne
    refine (leads_isAt fun s hs => isAt_lt_trailed hrest hs).bind fun opens hopens => ?_
    rw [hopens, if_neg Bool.false_ne_true]
    exact (Leads.pure (Q := (· = none)) rfl).bind fun found hfound => hf found (hfound ▸ rfl)
  · have hgeneric := leads_genericArguments hargs hne hk blanks
      ((trailed marks).toList ++ rest)
    have hopens (s : State) (hs : Faces IsFresh ((angled blanks (renderAll gap args)).toList ++
        ((trailed marks).toList ++ rest)) s) : s.isAt (.operator .lt) = true := by
      rw [angled_append hne] at hs
      rw [hs.isAt (lt_before_joined hne _)]
      rfl
    refine (leads_isAt hopens).bind fun opens hopens => ?_
    rw [hopens, if_pos rfl]
    refine hgeneric.bind fun found hfound => hf found ?_
    obtain ⟨list, rfl, hlist⟩ := hfound
    exact hlist

theorem readsType_mk {b : BuiltinType} (hargs : ∀ t ∈ args, ReadsType gap r.typeRef t)
    (hk : args.length < r.rounds) (hmarks : marks.length < r.rounds) :
    ReadsType gap (typeRef r none) (mk b args marks) := by
  intro rest hrest
  have hw := Word.type_before b
    (head_angled hrest marks (gap (mk b args marks)) (renderAll gap args))
  have htext : ((mk b args marks).render gap).toList ++ rest = (Word.type b).text.toList ++
      ((angled (gap (mk b args marks)) (renderAll gap args)).toList ++
        ((trailed marks).toList ++ rest)) := by
    rw [render, String.toList_append, String.toList_append, List.append_assoc, List.append_assoc]
    rfl
  rw [htext]
  refine Leads.get.bind fun s hs => ?_
  rw [if_pos (hs.atTypeName hw)]
  refine (leads_advance hw).bind fun token htoken => ?_
  have hname := ident?_bindName s (name?_type htoken)
  refine leads_arguments hargs hk hrest _ fun found hfound => ?_
  refine (leads_modifiers hrest hmarks).bind fun modifiers hmodifiers => .pure ⟨_, rfl, ?_⟩
  exact Node.typeTerm?_build _ _ _ hname hfound hmodifiers

/-! ### Types of any depth -/

theorem length_render (b : BuiltinType) (args : List TypeTerm) (marks : List TypeMark) :
    ((mk b args marks).render gap).toList.length = b.spelling.toList.length +
      (angled (gap (mk b args marks)) (renderAll gap args)).toList.length +
        (trailed marks).toList.length := by
  rw [render, String.toList_append, String.toList_append, List.length_append, List.length_append]

theorem length_render_pos (gap : TypeTerm → Nat) (t : TypeTerm) :
    0 < (t.render gap).toList.length := by
  obtain ⟨b, args, marks⟩ := t
  have hpos : 0 < b.spelling.toList.length := by cases b <;> decide
  rw [length_render]
  omega

theorem length_le_trailed (marks : List TypeMark) :
    marks.length ≤ (trailed marks).toList.length := by
  induction marks with
  | nil => exact Nat.zero_le _
  | cons m marks ih =>
    rw [toList_trailed_cons, List.length_cons, List.length_cons, List.length_append]
    omega

theorem length_le_joined (gap : TypeTerm → Nat) (args : List TypeTerm) :
    args.length ≤ (joined gap args).length ∧
      ∀ t ∈ args, (t.render gap).toList.length ≤ (joined gap args).length := by
  induction args with
  | nil => exact ⟨Nat.zero_le _, fun t ht => absurd ht List.not_mem_nil⟩
  | cons t args ih =>
    have hpos := length_render_pos gap t
    cases args with
    | nil =>
      rw [joined_singleton]
      exact ⟨hpos, fun u hu => List.mem_singleton.mp hu ▸ Nat.le_refl _⟩
    | cons u args =>
      have hlength : (joined gap (t :: u :: args)).length =
          (t.render gap).toList.length + ((joined gap (u :: args)).length + 2) := by
        rw [joined_cons_cons, List.length_append, List.length_cons, List.length_cons]
      rw [hlength, List.length_cons]
      refine ⟨by omega, List.forall_mem_cons.mpr ⟨Nat.le_add_right _ _, fun v hv => ?_⟩⟩
      have hle := ih.2 v hv
      omega

/-- The arguments of a type are written in less text than the type. -/
theorem length_args_lt (gap : TypeTerm → Nat) (b : BuiltinType) (args : List TypeTerm)
    (marks : List TypeMark) :
    args.length < ((mk b args marks).render gap).toList.length ∧ ∀ t ∈ args,
      (t.render gap).toList.length < ((mk b args marks).render gap).toList.length := by
  have hpos : 0 < b.spelling.toList.length := by cases b <;> decide
  obtain ⟨hcount, hle⟩ := length_le_joined gap args
  rw [length_render]
  by_cases hne : args = []
  · subst hne
    exact ⟨by rw [List.length_nil]; omega, fun t ht => absurd ht List.not_mem_nil⟩
  · have hangled : (joined gap args).length ≤
        (angled (gap (mk b args marks)) (renderAll gap args)).toList.length := by
      rw [toList_angled hne, List.length_cons, List.length_append]
      omega
    refine ⟨by omega, fun t ht => ?_⟩
    have := hle t ht
    omega

/-- **A type of any depth** is read back, if there are as many circles as its text is long. -/
theorem readsType (t : TypeTerm) {n : Nat} (hn : (t.render gap).toList.length ≤ n) :
    ReadsType gap (typeRef (rules n) none) t := by
  -- on the number of circles: the arguments are read with one less
  induction n generalizing t with
  | zero => exact absurd (length_render_pos gap t) (Nat.not_lt.mpr hn)
  | succ n ih =>
    obtain ⟨b, args, marks⟩ := t
    obtain ⟨hcount, hargs⟩ := length_args_lt gap b args marks
    have hmarks : marks.length < (rules (n + 1)).rounds := by
      have hpos : 0 < b.spelling.toList.length := by cases b <;> decide
      have hle := length_le_trailed marks
      rw [length_render] at hn
      change marks.length < n + 1
      omega
    refine readsType_mk (fun u hu => ?_) (Nat.lt_of_lt_of_le hcount hn) hmarks
    exact ih u (Nat.le_of_lt_succ (Nat.lt_of_lt_of_le (hargs u hu) hn))

end References

end Grammar

end SableFront
