import SableFront.Proofs.Typing.WellFormed
import SableFront.SymbolType.Text

/-!
# Typing: the text of a type

The text of a type is made of three parts (`text_eq`): `type ` in front of what denotes a type, a label
for the values alone, and the marks of pointers and references. No part has a character in common with
another one, so they can be told apart. The label is a builtin name, or the list of the names of the
flags, in which no name has a bar; so it tells the type of the values (`label_injective`).

Hence the text tells the type (`text_identifies_type`), but for what is called `auto`, `none` or `type`:
these names never have `type ` in front of them.
-/

namespace SableFront

theorem BuiltinType.isAlphanum_spelling (b : BuiltinType) : b.spelling.toList.all Char.isAlphanum := by
  cases b <;> decide

theorem BuiltinType.spelling_injective : Function.Injective spelling := by
  have hfound (b : BuiltinType) : ofSpelling? b.spelling = some b := by cases b <;> rfl
  intro b c h
  have hb := hfound b
  rw [h, hfound c] at hb
  exact (Option.some.inj hb).symm

namespace Flag

theorem isAlphanum_name (f : Flag) : f.name.toList.all Char.isAlphanum := by cases f <;> decide

theorem name_injective : Function.Injective name := by
  have hfound (f : Flag) : all.find? (fun g => g.name == f.name) = some f := by cases f <;> rfl
  intro f g h
  have hf := hfound f
  rw [h, hfound g] at hf
  exact (Option.some.inj hf).symm

/-- Three flags have the names of builtin types. -/
theorem name_eq_spelling {f : Flag} {b : BuiltinType} (h : f.name = b.spelling) :
    (f, b) ∈ [(.auto, .auto), (.none, .none), (.type, .type)] := by
  have hall : all.all (fun f => BuiltinType.all.all fun b => f.name != b.spelling ||
      [(auto, BuiltinType.auto), (none, .none), (type, .type)].contains (f, b)) = true := by
    decide +kernel
  have hpair := List.all_eq_true.mp (List.all_eq_true.mp hall f f.mem_all) b b.mem_all
  rw [bne, beq_iff_eq.mpr h, Bool.not_true, Bool.false_or] at hpair
  exact List.contains_iff_mem.mp hpair

end Flag

namespace SymbolType

variable {s t : SymbolType}

/-- Only bits of flags are set. -/
def IsDefined (t : SymbolType) : Prop := ∀ i, t.bits.getLsbD i → ∃ f : Flag, f.bit = i

theorem IsDefined.ext (hs : s.IsDefined) (ht : t.IsDefined) (h : ∀ f, s.has f = t.has f) : s = t := by
  refine congrArg mk (BitVec.eq_of_getLsbD_eq fun i _ => ?_)
  by_cases hflag : ∃ f : Flag, f.bit = i
  · obtain ⟨f, rfl⟩ := hflag
    exact h f
  · have hno {t : SymbolType} (ht : t.IsDefined) : t.bits.getLsbD i = false :=
      Bool.eq_false_iff.mpr fun hi => hflag (ht i hi)
    rw [hno hs, hno ht]

theorem IsDefined.without (hs : s.IsDefined) (t : SymbolType) : (s.without t).IsDefined := by
  intro i hi
  rw [SymbolType.without, BitVec.getLsbD_and, Bool.and_eq_true] at hi
  exact hs i hi.1

theorem isDefined_unknown : unknown.IsDefined := fun i hi => by simp [unknown] at hi

theorem isDefined_ofFlag (f : Flag) : (ofFlag f).IsDefined := by
  intro i hi
  rw [ofFlag, BitVec.getLsbD_twoPow, Bool.and_eq_true] at hi
  exact ⟨f, of_decide_eq_true hi.2⟩

theorem IsDefined.append (hs : s.IsDefined) (ht : t.IsDefined) : (s.append t).IsDefined := by
  intro i hi
  rw [SymbolType.append, BitVec.getLsbD_or, Bool.or_eq_true] at hi
  exact hi.elim (hs i) (ht i)

theorem isDefined_ofFlags (fs : List Flag) : (ofFlags fs).IsDefined := by
  have hfold (t : SymbolType) (ht : t.IsDefined) :
      (fs.foldl (fun t f => t.append (ofFlag f)) t).IsDefined := by
    induction fs generalizing t with
    | nil => exact ht
    | cons f fs ih => exact ih _ (ht.append (isDefined_ofFlag f))
  exact hfold unknown isDefined_unknown

theorem IsDefined.core (ht : t.IsDefined) : t.core.IsDefined :=
  ((ht.without _).without _).without _

/-- The flags that the text shows apart from the label. -/
def showsApart : Flag → Bool
  | .type | .pointer | .reference => true
  | _ => false

theorem has_core (t : SymbolType) (f : Flag) : t.core.has f = (t.has f && !showsApart f) := by
  have hflag (f g : Flag) : (ofFlag f).has g = decide (f = g) := has_ofFlag f g
  rw [core, has_without, has_without, has_without, anyType, pointer, reference, hflag, hflag, hflag]
  cases f <;> simp [showsApart]

theorem has_of_core_eq (h : s.core = t.core) {f : Flag} (hf : showsApart f = false) :
    s.has f = t.has f := by
  have hsame : s.core.has f = t.core.has f := by rw [h]
  rwa [has_core, has_core, hf, Bool.not_false, Bool.and_true, Bool.and_true] at hsame

/-! ### Labels -/

/-- What the values of a type are called. -/
def label (t : SymbolType) : String :=
  match named? t with
  | some b => b.spelling
  | Option.none => if t = unknown then "type" else "|".intercalate t.flagNames

theorem named?_eq_some {b : BuiltinType} (h : named? t = some b) :
    b.shape ≠ .anyType ∧ (builtin b).without anyType = t := by
  have hfound := List.find?_some h
  rw [Bool.and_eq_true, bne_iff_ne, beq_iff_eq] at hfound
  exact hfound

theorem named?_builtin {b : BuiltinType} (hb : b.shape ≠ .anyType) :
    named? ((builtin b).without anyType) = some b := by
  cases b <;> first | exact absurd rfl hb | decide

theorem label_of_named {b : BuiltinType} (h : named? t = some b) : t.label = b.spelling := by
  rw [label, h]

theorem label_unknown : unknown.label = "type" := by decide

/-- The names of the flags in a label that is no builtin name. -/
theorem splitOn_label (hnamed : named? t = Option.none) (ht : t ≠ unknown) (hdefined : t.IsDefined) :
    t.label.toList.splitOn '|' = t.flagNames.map String.toList := by
  have hbar : ∀ name ∈ t.flagNames.map String.toList, '|' ∉ name := by
    intro name hname hmem
    obtain ⟨_, hflag, rfl⟩ := List.mem_map.mp hname
    obtain ⟨f, -, rfl⟩ := List.mem_map.mp hflag
    exact absurd (List.all_eq_true.mp f.isAlphanum_name _ hmem) (by decide)
  have hne : t.flagNames.map String.toList ≠ [] := by
    intro hnil
    rw [List.map_eq_nil_iff, flagNames, List.map_eq_nil_iff, List.filter_eq_nil_iff] at hnil
    refine ht (hdefined.ext isDefined_unknown fun f => ?_)
    rw [has_unknown, Bool.eq_false_iff]
    exact hnil f f.mem_all
  have hlabel : t.label = "|".intercalate t.flagNames := by
    rw [label, hnamed]
    exact if_neg ht
  rw [hlabel, String.toList_intercalate]
  exact List.splitOn_intercalate '|' hbar hne

/-- A label without a bar is the name of a single flag. -/
theorem eq_ofFlag_of_label (name : String) (hname : name.toList.all Char.isAlphanum)
    (hnamed : named? t = Option.none) (ht : t ≠ unknown) (hdefined : t.IsDefined)
    (hlabel : t.label = name) : ∃ f, f.name = name ∧ t = ofFlag f := by
  have hbar : ∀ word ∈ [name.toList], '|' ∉ word := by
    intro word hword hmem
    rw [List.mem_singleton.mp hword] at hmem
    exact absurd (List.all_eq_true.mp hname _ hmem) (by decide)
  have hsplit := splitOn_label hnamed ht hdefined
  have hsingle := List.splitOn_intercalate '|' hbar (List.cons_ne_nil _ _)
  rw [List.intercalate_singleton] at hsingle
  rw [hlabel, hsingle] at hsplit
  obtain ⟨name', hnames, hname'⟩ := List.map_eq_singleton_iff.mp hsplit.symm
  obtain ⟨f, hflags, rfl⟩ := List.map_eq_singleton_iff.mp hnames
  refine ⟨f, String.toList_inj.mp hname', hdefined.ext (isDefined_ofFlag f) fun g => ?_⟩
  have hmem : g ∈ Flag.all.filter t.has ↔ g = f := by rw [hflags, List.mem_singleton]
  rw [List.mem_filter, and_iff_right g.mem_all] at hmem
  rw [has_ofFlag, Bool.eq_iff_iff, hmem, decide_eq_true_eq]
  exact eq_comm

/-- No type without a builtin name is called like one that has one. -/
theorem named?_of_label {b : BuiltinType} (hb : b.shape ≠ .anyType) (ht : t.IsDefined)
    (h : t.label = b.spelling) : named? t = some b := by
  cases hnamed : named? t with
  | some c =>
    rw [label_of_named hnamed] at h
    rw [BuiltinType.spelling_injective h]
  | none =>
    by_cases hunknown : t = unknown
    · rw [hunknown, label_unknown] at h
      have hb' : .type = b := BuiltinType.spelling_injective h
      exact absurd (hb' ▸ rfl) hb
    · obtain ⟨f, hf, rfl⟩ := eq_ofFlag_of_label _ b.isAlphanum_spelling hnamed hunknown ht h
      have hpair := Flag.name_eq_spelling hf
      simp only [List.mem_cons, Prod.mk.injEq, List.not_mem_nil, or_false] at hpair
      obtain ⟨rfl, rfl⟩ | ⟨rfl, rfl⟩ | ⟨rfl, rfl⟩ := hpair
      · cases hnamed.symm.trans (named?_builtin (b := .auto) hb)
      · cases hnamed.symm.trans (named?_builtin (b := .none) hb)
      · exact absurd rfl hb

/-- Nor is one that is called `type`, unless it denotes a type. -/
theorem eq_unknown_of_label (ht : t.IsDefined) (htype : t.has .type = false)
    (hnamed : named? t = Option.none) (h : t.label = "type") : t = unknown := by
  by_contra hunknown
  obtain ⟨f, hf, rfl⟩ := eq_ofFlag_of_label "type" (by decide) hnamed hunknown ht h
  obtain rfl : f = .type := Flag.name_injective hf
  rw [has_ofFlag] at htype
  exact absurd rfl (of_decide_eq_false htype)

/-- **Values that are called the same are of one type.** -/
theorem label_injective (hs : s.IsDefined) (ht : t.IsDefined) (hstype : s.has .type = false)
    (httype : t.has .type = false) (h : s.label = t.label) : s = t := by
  cases hsnamed : named? s with
  | some b =>
    obtain ⟨hshape, rfl⟩ := named?_eq_some hsnamed
    exact (named?_eq_some (named?_of_label hshape ht (h ▸ label_of_named hsnamed))).2
  | none =>
    cases htnamed : named? t with
    | some b =>
      have hshape := (named?_eq_some htnamed).1
      cases hsnamed.symm.trans (named?_of_label hshape hs (h.trans (label_of_named htnamed)))
    | none =>
      by_cases hsunknown : s = unknown
      · rw [hsunknown, label_unknown] at h
        rw [hsunknown, eq_unknown_of_label ht httype htnamed h.symm]
      · by_cases htunknown : t = unknown
        · rw [htunknown, label_unknown] at h
          exact absurd (eq_unknown_of_label hs hstype hsnamed h) hsunknown
        · -- both are called by their flags
          have hnames := splitOn_label hsnamed hsunknown hs
          rw [h, splitOn_label htnamed htunknown ht,
            List.map_inj_right fun _ _ => String.toList_injective, flagNames, flagNames,
            List.map_inj_right fun _ _ hname => Flag.name_injective hname] at hnames
          refine hs.ext ht fun f => ?_
          have hmem : f ∈ Flag.all.filter t.has ↔ f ∈ Flag.all.filter s.has := by rw [hnames]
          rw [List.mem_filter, List.mem_filter, and_iff_right f.mem_all, and_iff_right f.mem_all] at hmem
          exact Bool.eq_iff_iff.mpr hmem.symm

/-! ### The three parts of a text -/

/-- The values are called by one of the three names that never have `type ` in front. -/
def IsUnmarked (t : SymbolType) : Prop := t.core = auto ∨ t.core = none ∨ t.core = unknown

instance (t : SymbolType) : Decidable t.IsUnmarked :=
  inferInstanceAs (Decidable (t.core = auto ∨ t.core = none ∨ t.core = unknown))

/-- What stands in front of the label. -/
def mark (t : SymbolType) : String := if t.isType ∧ ¬ t.IsUnmarked then "type " else ""

theorem mark_of_isUnmarked (h : t.IsUnmarked) : t.mark = "" := if_neg fun hmark => hmark.2 h

theorem mark_of_not_isUnmarked (h : ¬ t.IsUnmarked) : t.mark = if t.isType then "type " else "" :=
  if_congr (and_iff_left h) rfl rfl

/-- Two builtin names are never marked. -/
theorem isUnmarked_iff {b : BuiltinType} (h : named? t.core = some b) :
    t.IsUnmarked ↔ b.shape = .inferred ∨ b.shape = .none := by
  obtain ⟨hshape, hcore⟩ := named?_eq_some h
  rw [IsUnmarked, ← hcore]
  cases b <;> first | exact absurd rfl hshape | decide

/-- **The text of a type is made of its mark, its label and its suffix.** -/
theorem text_eq (ht : t ≠ unknown) : t.text = t.mark ++ t.core.label ++ t.suffix := by
  unfold text
  rw [if_neg ht]
  by_cases hany : t = anyType
  · rw [hany]
    decide
  · rw [if_neg hany]
    cases hnamed : named? t.core with
    | some b =>
      dsimp only
      rw [label_of_named hnamed]
      by_cases hshape : b.shape = .inferred ∨ b.shape = .none
      · rw [if_pos hshape, mark_of_isUnmarked ((isUnmarked_iff hnamed).mpr hshape), String.empty_append]
      · rw [if_neg hshape, mark_of_not_isUnmarked (mt (isUnmarked_iff hnamed).mp hshape)]
    | none =>
      dsimp only
      by_cases hcore : t.core = unknown
      · rw [if_pos hcore, hcore, label_unknown, mark_of_isUnmarked (.inr (.inr hcore)),
          String.empty_append]
      · have hmarked : ¬ t.IsUnmarked := by
          rintro (hauto | hnone | hunknown)
          · rw [hauto] at hnamed
            cases hnamed.symm.trans (named?_builtin (b := .auto) (by decide))
          · rw [hnone] at hnamed
            cases hnamed.symm.trans (named?_builtin (b := .none) (by decide))
          · exact hcore hunknown
        rw [if_neg hcore, mark_of_not_isUnmarked hmarked, label, hnamed]
        dsimp only
        rw [if_neg hcore]

/-! ### Telling the parts apart -/

/-- The characters of labels: those of names, and the bar between the names of flags. -/
def IsLabelChar (c : Char) : Prop := c.isAlphanum ∨ c = '|'

theorem isLabelChar_intercalate {names : List (List Char)}
    (h : ∀ name ∈ names, ∀ c ∈ name, IsLabelChar c) :
    ∀ c ∈ ['|'].intercalate names, IsLabelChar c := by
  induction names with
  | nil => exact List.forall_mem_nil _
  | cons name names ih =>
    obtain ⟨hname, hmore⟩ := List.forall_mem_cons.mp h
    cases names with
    | nil => rwa [List.intercalate_singleton]
    | cons name' names =>
      rw [List.intercalate_cons_cons]
      intro c hc
      rw [List.mem_append, List.mem_append, List.mem_singleton] at hc
      rcases hc with (hc | hc) | hc
      · exact hname c hc
      · exact .inr hc
      · exact ih hmore c hc

theorem isLabelChar_label (t : SymbolType) : ∀ c ∈ t.label.toList, IsLabelChar c := by
  have hname {name : String} (h : name.toList.all Char.isAlphanum) :
      ∀ c ∈ name.toList, IsLabelChar c :=
    fun c hc => .inl (List.all_eq_true.mp h c hc)
  unfold label
  split
  · rename_i b _
    exact hname b.isAlphanum_spelling
  · split
    · exact hname (by decide)
    · rw [String.toList_intercalate]
      refine isLabelChar_intercalate fun name hmem => ?_
      obtain ⟨_, hflag, rfl⟩ := List.mem_map.mp hmem
      obtain ⟨f, -, rfl⟩ := List.mem_map.mp hflag
      exact hname f.isAlphanum_name

theorem mark_cases (t : SymbolType) : t.mark = "" ∨ t.mark = "type " := by
  unfold mark
  split
  · exact .inr rfl
  · exact .inl rfl

/-- The suffix tells of pointers and references. -/
theorem suffix_injective (h : s.suffix = t.suffix) :
    s.has .pointer = t.has .pointer ∧ s.has .reference = t.has .reference := by
  unfold suffix at h
  revert h
  cases s.has .pointer <;> cases s.has .reference <;> cases t.has .pointer <;>
    cases t.has .reference <;> decide

/-- Only the suffix is made of stars and ampersands. -/
theorem filter_text (ht : t ≠ unknown) :
    t.text.toList.filter (fun c => c = '*' ∨ c = '&') = t.suffix.toList := by
  have hmark : t.mark.toList.filter (fun c => c = '*' ∨ c = '&') = [] := by
    rcases t.mark_cases with h | h
    all_goals
      rw [h]
      decide
  have hlabel : t.core.label.toList.filter (fun c => c = '*' ∨ c = '&') = [] := by
    rw [List.filter_eq_nil_iff]
    intro c hc hstar
    rcases isLabelChar_label _ c hc with h | rfl
    · rcases of_decide_eq_true hstar with rfl | rfl
      all_goals exact absurd h (by decide)
    · exact absurd hstar (by decide)
  have hsuffix : t.suffix.toList.filter (fun c => c = '*' ∨ c = '&') = t.suffix.toList := by
    unfold suffix
    cases t.has .pointer <;> cases t.has .reference <;> decide
  rw [text_eq ht, String.toList_append, String.toList_append, List.filter_append, List.filter_append,
    hmark, hlabel, hsuffix, List.nil_append, List.nil_append]

/-- A label has no blank in it. -/
theorem label_ne_marked (t : SymbolType) (text : String) : t.label ≠ "type " ++ text := by
  intro h
  have hblank : ' ' ∈ t.label.toList := by
    rw [h, String.toList_append]
    exact List.mem_append_left _ (by decide)
  rcases isLabelChar_label t _ hblank with hletter | hbar
  · exact absurd hletter (by decide)
  · exact absurd hbar (by decide)

/-- **The parts of a text can be told apart.** -/
theorem parts_of_text (hs : s ≠ unknown) (ht : t ≠ unknown) (h : s.text = t.text) :
    s.mark = t.mark ∧ s.core.label = t.core.label ∧ s.suffix = t.suffix := by
  have hsuffix : s.suffix = t.suffix := by
    rw [← String.toList_inj, ← filter_text hs, ← filter_text ht, h]
  rw [text_eq hs, text_eq ht, hsuffix, String.append_left_inj] at h
  refine (and_assoc.mp ⟨?_, hsuffix⟩)
  rcases s.mark_cases with hmark | hmark
  all_goals
    rcases t.mark_cases with hmark' | hmark'
    all_goals rw [hmark, hmark'] at h ⊢
  · exact ⟨rfl, (String.append_right_inj _).mp h⟩
  · rw [String.empty_append] at h
    exact absurd h (label_ne_marked _ _)
  · rw [String.empty_append] at h
    exact absurd h.symm (label_ne_marked _ _)
  · exact ⟨rfl, (String.append_right_inj _).mp h⟩

theorem label_ne_unknown (ht : t.IsDefined) : t.label ≠ "unknown" := by
  intro h
  cases hnamed : named? t with
  | some b =>
    rw [label_of_named hnamed] at h
    revert h
    cases b <;> decide
  | none =>
    by_cases hunknown : t = unknown
    · rw [hunknown, label_unknown] at h
      exact absurd h (by decide)
    · obtain ⟨f, hf, -⟩ := eq_ofFlag_of_label "unknown" (by decide) hnamed hunknown ht h
      revert hf
      cases f <;> decide

/-- Only the unknown type is shown as unknown. -/
theorem text_ne_unknown (hdefined : t.IsDefined) (ht : t ≠ unknown) : t.text ≠ "unknown" := by
  intro h
  have hsuffix : t.suffix = "" := by
    rw [← String.toList_inj, ← filter_text ht, h]
    decide
  rw [text_eq ht, hsuffix, String.append_empty] at h
  rcases t.mark_cases with hmark | hmark
  · rw [hmark, String.empty_append] at h
    exact label_ne_unknown hdefined.core h
  · have hblank : ' ' ∈ "unknown".toList := by
      rw [← h, hmark, String.toList_append]
      exact List.mem_append_left _ (by decide)
    exact absurd hblank (by decide)

/-! ### Types that differ in one flag -/

/-- The types are the same, but one may denote a type and the other one not. -/
theorem asType_eq_iff (hs : s.IsDefined) (ht : t.IsDefined) :
    s.asType = t.asType ↔ ∀ f, f ≠ .type → s.has f = t.has f := by
  have hhas (t : SymbolType) (f : Flag) : t.asType.has f = (t.has f || decide (.type = f)) := by
    rw [asType, has_append, anyType, has_ofFlag]
  have hdefined {t : SymbolType} (ht : t.IsDefined) : t.asType.IsDefined := by
    intro i hi
    rw [asType, append, BitVec.getLsbD_or, Bool.or_eq_true] at hi
    exact hi.elim (ht i) (isDefined_ofFlag .type i)
  constructor
  · intro h f hf
    have hsame : s.asType.has f = t.asType.has f := by rw [h]
    rwa [hhas, hhas, decide_eq_false (Ne.symm hf), Bool.or_false, Bool.or_false] at hsame
  · intro h
    refine (hdefined hs).ext (hdefined ht) fun f => ?_
    rw [hhas, hhas]
    by_cases hf : f = .type
    · rw [decide_eq_true hf.symm, Bool.or_true, Bool.or_true]
    · rw [h f hf]

theorem core_eq_of_asType_eq (hs : s.IsDefined) (ht : t.IsDefined) (h : s.asType = t.asType) :
    s.core = t.core := by
  refine hs.core.ext ht.core fun f => ?_
  rw [has_core, has_core]
  by_cases hf : f = .type
  · rw [hf, showsApart, Bool.not_true, Bool.and_false, Bool.and_false]
  · rw [(asType_eq_iff hs ht).mp h f hf]

/-- A type without a label of its own that has no star and no ampersand. -/
theorem eq_unknown_of_core (ht : t.IsDefined) (hcore : t.core = unknown) (htype : t.has .type = false)
    (hpointer : t.has .pointer = false) (hreference : t.has .reference = false) : t = unknown := by
  refine ht.ext (fun i hi => by simp [unknown] at hi) fun f => ?_
  rw [has_unknown]
  cases hf : showsApart f with
  | false => rw [has_of_core_eq (s := t) (t := unknown) (hcore.trans (by decide)) hf, has_unknown]
  | true =>
    cases f with
    | type => exact htype
    | pointer => exact hpointer
    | reference => exact hreference
    | _ => cases hf

/-- A type and its values are called the same: by one of the names that never have `type ` in front, of
which `type` alone is no name of values. -/
def IsCalledAlike (t : SymbolType) : Prop :=
  t.core = auto ∨ t.core = none ∨ t.core = unknown ∧ (t.has .pointer ∨ t.has .reference)

theorem IsCalledAlike.isUnmarked (h : t.IsCalledAlike) : t.IsUnmarked := h.imp_right (.imp_right (·.1))

theorem IsCalledAlike.ne_unknown (h : t.IsCalledAlike) : t ≠ unknown := by
  rintro rfl
  rcases h with h | h | ⟨-, h | h⟩
  all_goals exact absurd h (by decide)

/-- Texts that are the same are of types that differ in one flag at most. -/
theorem asType_eq_of_text_eq (hs : s.IsDefined) (ht : t.IsDefined) (hsknown : s ≠ unknown)
    (htknown : t ≠ unknown) (h : s.text = t.text) : s.mark = t.mark ∧ s.asType = t.asType := by
  obtain ⟨hmark, hlabel, hsuffix⟩ := parts_of_text hsknown htknown h
  obtain ⟨hpointer, hreference⟩ := suffix_injective hsuffix
  have htype (t : SymbolType) : t.core.has .type = false := by
    rw [has_core, showsApart, Bool.not_true, Bool.and_false]
  have hcore := label_injective hs.core ht.core (htype s) (htype t) hlabel
  refine ⟨hmark, (asType_eq_iff hs ht).mpr fun f hf => ?_⟩
  cases hapart : showsApart f with
  | false => exact has_of_core_eq hcore hapart
  | true =>
    cases f with
    | pointer => exact hpointer
    | reference => exact hreference
    | type => exact absurd rfl hf
    | _ => cases hapart

/-- Where the mark does not tell a type from its values, they are called alike. -/
theorem isCalledAlike_of_mark_eq (hs : s.IsDefined) (ht : t.IsDefined) (hsknown : s ≠ unknown)
    (htknown : t ≠ unknown) (hmark : s.mark = t.mark) (hsame : s.asType = t.asType) (hne : s ≠ t) :
    s.IsCalledAlike := by
  have hothers := (asType_eq_iff hs ht).mp hsame
  have hcore := core_eq_of_asType_eq hs ht hsame
  have htype : s.has .type ≠ t.has .type := by
    intro htype
    refine hne (hs.ext ht fun f => ?_)
    by_cases hf : f = .type
    · rw [hf, htype]
    · exact hothers f hf
  have hunmarked : s.IsUnmarked := by
    by_contra hmarked
    have hmarked' : ¬ t.IsUnmarked := by rwa [IsUnmarked, ← hcore]
    rw [mark_of_not_isUnmarked hmarked, mark_of_not_isUnmarked hmarked', isType, isType] at hmark
    revert hmark htype
    cases s.has .type <;> cases t.has .type <;> decide
  refine hunmarked.imp_right (.imp_right fun hunknown => ⟨hunknown, ?_⟩)
  -- without a star or an ampersand, one of the two is unknown
  by_contra hno
  obtain ⟨hpointer, hreference⟩ := not_or.mp hno
  rw [Bool.not_eq_true] at hpointer hreference
  have hs' := eq_unknown_of_core hs hunknown
  have ht' := eq_unknown_of_core ht (hcore ▸ hunknown)
  rw [← hothers .pointer (by decide), ← hothers .reference (by decide)] at ht'
  cases hstype : s.has .type with
  | false => exact hsknown (hs' hstype hpointer hreference)
  | true =>
    cases httype : t.has .type with
    | false => exact htknown (ht' httype hpointer hreference)
    | true => exact htype (hstype.trans httype.symm)

/-- Types that are called alike have the same text. -/
theorem text_eq_of_isCalledAlike (hs : s.IsDefined) (ht : t.IsDefined) (hsame : s.asType = t.asType)
    (h : s.IsCalledAlike) : s.text = t.text := by
  have hothers := (asType_eq_iff hs ht).mp hsame
  have hcore := core_eq_of_asType_eq hs ht hsame
  have hpointer := hothers .pointer (by decide)
  have hreference := hothers .reference (by decide)
  have h' : t.IsCalledAlike := by rwa [IsCalledAlike, ← hcore, ← hpointer, ← hreference]
  rw [text_eq h.ne_unknown, text_eq h'.ne_unknown, mark_of_isUnmarked h.isUnmarked,
    mark_of_isUnmarked h'.isUnmarked, hcore, suffix, suffix, hpointer, hreference]

end SymbolType

/-- **The text of a type tells the type**, but for what is called `auto`, `none`, or `type` with a star or
an ampersand behind it: a type of that name is shown like its values. -/
theorem text_identifies_type {s t : SymbolType} (hs : s.IsDefined) (ht : t.IsDefined) :
    s.text = t.text ↔ s = t ∨ s.asType = t.asType ∧
      (s.core = .auto ∨ s.core = .none ∨ s.core = .unknown ∧ (s.has .pointer ∨ s.has .reference)) := by
  constructor
  · intro h
    by_cases hsunknown : s = .unknown
    · by_cases htunknown : t = .unknown
      · exact .inl (hsunknown.trans htunknown.symm)
      · rw [hsunknown] at h
        exact absurd h.symm (SymbolType.text_ne_unknown ht htunknown)
    · have htunknown : t ≠ .unknown := by
        rintro rfl
        exact SymbolType.text_ne_unknown hs hsunknown h
      obtain ⟨hmark, hsame⟩ := SymbolType.asType_eq_of_text_eq hs ht hsunknown htunknown h
      by_cases heq : s = t
      · exact .inl heq
      · have halike := SymbolType.isCalledAlike_of_mark_eq hs ht hsunknown htunknown hmark hsame heq
        exact .inr ⟨hsame, halike⟩
  · rintro (rfl | ⟨hsame, halike⟩)
    · rfl
    · exact SymbolType.text_eq_of_isCalledAlike hs ht hsame halike

/-- A pointer to a type that is made from its flags, and one that is made from a builtin name. -/
theorem text_identifies_pointer_type :
    let s : SymbolType := .ofFlags [.pointer, .type, .signed, .integer, .w32]
    let t : SymbolType := (SymbolType.builtin .int32).append .pointer
    s.IsDefined ∧ t.IsDefined ∧ s.text = "type Int32*" ∧ t.text = "type Int32*" ∧ s = t := by
  intro s t
  have hs : s.IsDefined := SymbolType.isDefined_ofFlags _
  have ht : t.IsDefined := SymbolType.isDefined_ofFlags [.integer, .w32, .signed, .type, .pointer]
  have hstext : s.text = "type Int32*" := by decide +kernel
  have httext : t.text = "type Int32*" := by decide +kernel
  refine ⟨hs, ht, hstext, httext, ?_⟩
  exact ((text_identifies_type hs ht).mp (hstext.trans httext.symm)).resolve_right (by decide)

/-- Of a pointer to nothing known the text does not say whether it denotes a type. -/
theorem pointer_text_is_ambiguous :
    let s : SymbolType := .pointer
    let t : SymbolType := SymbolType.pointer.asType
    s.IsDefined ∧ t.IsDefined ∧ s.text = "type*" ∧ t.text = "type*" ∧ s ≠ t ∧
      s.core ≠ .auto ∧ s.core ≠ .none := by
  intro s t
  have hs : s.IsDefined := SymbolType.isDefined_ofFlag .pointer
  have ht : t.IsDefined := SymbolType.isDefined_ofFlags [.pointer, .type]
  exact ⟨hs, ht, by decide +kernel, by decide +kernel, by decide, by decide, by decide⟩

end SableFront
