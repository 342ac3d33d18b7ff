import SableFront.Proofs.RoundTrip.Suffix
import SableFront.Proofs.Spaced.Program

/-!
# Round trip: expressions

By induction over expressions, the words of each one read as it (`reads_render`), and each of them is
read as what it says. So the text of an expression in parentheses is a program of this one
expression.
-/

namespace SableFront

namespace Outline

open Grammar

variable {e : Outline} {shape : Shape}

/-! ### Rendered expressions are read -/

theorem isOperand_leaf (he : e.IsExpression) (hleaf : e.shape.isLeaf) : IsOperand e.render e := by
  cases he with
  | int hn => exact .word rfl fun r => values_int r _
  | bool b => exact .word rfl fun r => values_bool r b
  | null => exact .word rfl values_null
  | name hs hunbound => exact .word rfl fun r => values_name r hunbound
  | _ => cases hleaf

theorem isLeaf_of_isBare {parent shape : Shape} (h : parent.isBare shape) : shape.isLeaf := by
  unfold Shape.isBare at h
  split at h
  · cases h
  · exact h

/-- The parts of a form are written as operands. -/
theorem isOperand_renderIn (parent : Shape) (he : e.IsExpression) (h : ReadsAs e.render e) :
    IsOperand (renderIn parent e) e := by
  unfold renderIn
  split
  · exact isOperand_leaf he (isLeaf_of_isBare ‹_›)
  · exact h.parens

theorem layout_member (base : Outline) (names : List String) :
    Shape.member.layout ((base :: names.map .name).map (renderIn .member)) =
      renderIn .member base ++ dotWords names := by
  have hnames : (names.map .name).map (renderIn .member) = names.map fun s => [.name s] := by
    rw [List.map_map]
    rfl
  rw [List.map_cons, hnames, Shape.layout, List.flatMap_map]
  rfl

theorem layout_dict (entries : List (Outline × Outline)) :
    Shape.dict.layout ((entries.flatMap fun e => [e.1, e.2]).map (renderIn .dict)) =
      inBraces (commas (entries.map (entryWords (renderIn .dict)))) := by
  have hpairs : pairs ((entries.flatMap fun e => [e.1, e.2]).map (renderIn .dict)) =
      entries.map (entryWords (renderIn .dict)) := by
    induction entries with
    | nil => rfl
    | cons entry entries ih =>
      rw [List.flatMap_cons, List.map_append]
      exact congrArg (entryWords (renderIn .dict) entry :: ·) ih
  rw [Shape.layout, hpairs]

theorem layout_slice (target : Outline) (start stop : Option Outline) (words : Outline → List Word) :
    (Shape.slice start.isSome stop.isSome).layout
        ((target :: start.toList ++ stop.toList).map words) =
      words target ++ inBrackets (boundWords words start ++ .mark .colon :: boundWords words stop) := by
  cases start <;> cases stop <;> rfl

/-- **The words of an expression read as it.** -/
theorem reads_render (he : e.IsExpression) : ReadsAs e.render e := by
  induction he with
  | int hn => exact (isOperand_leaf (.int hn) rfl).reads
  | bool b => exact (isOperand_leaf (.bool b) rfl).reads
  | null => exact (isOperand_leaf .null rfl).reads
  | name hs hunbound => exact (isOperand_leaf (.name hs hunbound) rfl).reads
  | binary hop hleft hright ihleft ihright =>
    rw [render_mk]
    exact reads_binary hop (isOperand_renderIn _ hleft ihleft) (isOperand_renderIn _ hright ihright)
  | between hops hlower hvalue hupper ihlower ihvalue ihupper =>
    rw [render_mk]
    exact reads_between hops (isOperand_renderIn _ hlower ihlower)
      (isOperand_renderIn _ hvalue ihvalue) (isOperand_renderIn _ hupper ihupper)
  | invert hop h ih =>
    rw [render_mk]
    exact reads_invert hop (isOperand_renderIn _ h ih)
  | deref h ih =>
    rw [render_mk]
    exact reads_deref (isOperand_renderIn _ h ih)
  | stepBefore hop h ih =>
    rw [render_mk]
    exact reads_stepBefore hop (isOperand_renderIn _ h ih)
  | stepAfter hop h ih =>
    rw [render_mk]
    exact reads_stepAfter hop (isOperand_renderIn _ h ih)
  | call hcallee hargs ihcallee ihargs =>
    rw [render_mk]
    exact reads_call (isOperand_renderIn _ hcallee ihcallee) fun e he =>
      isOperand_renderIn _ (hargs e he) (ihargs e he)
  | index htarget hindex ihtarget ihindex =>
    rw [render_mk]
    exact reads_index (isOperand_renderIn _ htarget ihtarget) (isOperand_renderIn _ hindex ihindex)
  | slice htarget hstart hstop ihtarget ihstart ihstop =>
    rw [render_mk, layout_slice]
    exact reads_slice (isOperand_renderIn _ htarget ihtarget)
      (fun e he => isOperand_renderIn _ (hstart e he) (ihstart e he))
      fun e he => isOperand_renderIn _ (hstop e he) (ihstop e he)
  | @member base names hbase hshape hne hnames ih =>
    obtain ⟨s, more, rfl⟩ := List.exists_cons_of_ne_nil hne
    rw [render_mk, layout_member]
    exact reads_member (isOperand_renderIn _ hbase ih) hshape
  | list hitems ih =>
    rw [render_mk]
    exact reads_list fun e he => isOperand_renderIn _ (hitems e he) (ih e he)
  | dict hkeys hvalues ihkeys ihvalues =>
    rw [render_mk, layout_dict]
    exact reads_dict (fun e he => isOperand_renderIn _ (hkeys e he) (ihkeys e he))
      fun e he => isOperand_renderIn _ (hvalues e he) (ihvalues e he)
  | assignment hop hshape htarget hvalue ihtarget ihvalue =>
    rw [render_mk]
    exact reads_assignment hop hshape (isOperand_renderIn _ htarget ihtarget)
      (isOperand_renderIn _ hvalue ihvalue)

/-! ### Rendered words are read -/

/-- All words are read as what they say. -/
def AreRead (ws : List Word) : Prop := ∀ w ∈ ws, w.IsRead

@[simp] theorem areRead_append {ws vs : List Word} : AreRead (ws ++ vs) ↔ AreRead ws ∧ AreRead vs :=
  List.forall_mem_append

@[simp] theorem areRead_cons {w : Word} {ws : List Word} : AreRead (w :: ws) ↔ w.IsRead ∧ AreRead ws :=
  List.forall_mem_cons

@[simp] theorem areRead_nil : AreRead [] := List.forall_mem_nil _

@[simp] theorem areRead_commas {groups : List (List Word)} :
    AreRead (commas groups) ↔ ∀ ws ∈ groups, AreRead ws := by
  fun_induction commas groups with
  | case1 => exact ⟨fun _ => List.forall_mem_nil _, fun _ => areRead_nil⟩
  | case2 ws => rw [List.forall_mem_singleton]
  | case3 ws more hne ih =>
    rw [areRead_append, areRead_cons, ih, List.forall_mem_cons]
    exact and_congr_right fun _ => and_iff_right (Word.isRead_mark _)

@[simp] theorem areRead_dots {groups : List (List Word)} :
    AreRead (groups.flatMap fun ws => .mark .dot :: ws) ↔ ∀ ws ∈ groups, AreRead ws := by
  induction groups with
  | nil => exact ⟨fun _ => List.forall_mem_nil _, fun _ => areRead_nil⟩
  | cons ws groups ih =>
    rw [List.flatMap_cons, areRead_append, areRead_cons, ih, List.forall_mem_cons]
    exact and_congr_left fun _ => and_iff_right (Word.isRead_mark _)

theorem areRead_pairs {groups : List (List Word)} (h : ∀ ws ∈ groups, AreRead ws) :
    ∀ ws ∈ pairs groups, AreRead ws := by
  fun_induction pairs groups with
  | case1 key value more ih =>
    rw [List.forall_mem_cons, List.forall_mem_cons] at h
    rw [List.forall_mem_cons, areRead_append, areRead_cons]
    exact ⟨⟨h.1, Word.isRead_mark _, h.2.1⟩, ih h.2.2⟩
  | case2 => exact List.forall_mem_nil _

/-- A form whose parts are read is read. -/
theorem areRead_layout {parts : List (List Word)} (hleaf : shape.isLeaf = false)
    (h : ∀ ws ∈ parts, AreRead ws) : AreRead (shape.layout parts) := by
  unfold Shape.layout
  split
  all_goals
    simp only [List.forall_mem_cons, List.not_mem_nil, false_implies, implies_true, and_true, true_and,
      inParens, inBrackets, inBraces, areRead_append, areRead_cons, areRead_nil, areRead_commas,
      areRead_dots, Word.isRead_operator, Word.isRead_mark] at h ⊢
  all_goals first | exact h | exact areRead_pairs h | cases hleaf

theorem areRead_mk {children : List Outline} (hleaf : shape.isLeaf = false)
    (h : ∀ c ∈ children, AreRead c.render) : AreRead (mk shape children).render := by
  rw [render_mk]
  refine areRead_layout hleaf fun ws hws => ?_
  obtain ⟨c, hc, rfl⟩ := List.mem_map.mp hws
  unfold renderIn
  split
  · exact h c hc
  · rw [inParens, List.cons_append, areRead_cons, areRead_append, areRead_cons]
    exact ⟨Word.isRead_mark _, h c hc, Word.isRead_mark _, areRead_nil⟩

/-- **The words of an expression** are read as what they say. -/
theorem areRead_render (he : e.IsExpression) : AreRead e.render := by
  have hword {w : Word} (hw : w.IsRead) : AreRead [w] := areRead_cons.mpr ⟨hw, areRead_nil⟩
  induction he with
  | int hn => exact hword (Word.isRead_int hn)
  | bool b => exact hword (Word.isRead_bool b)
  | null => exact hword Word.isRead_null
  | name hs hunbound => exact hword (Word.isRead_name hs)
  | binary hop hleft hright ihleft ihright => exact areRead_mk rfl (by simp [ihleft, ihright])
  | between hops hlower hvalue hupper ihlower ihvalue ihupper =>
    exact areRead_mk rfl (by simp [ihlower, ihvalue, ihupper])
  | invert hop h ih => exact areRead_mk rfl (by simp [ih])
  | deref h ih => exact areRead_mk rfl (by simp [ih])
  | stepBefore hop h ih => exact areRead_mk rfl (by simp [ih])
  | stepAfter hop h ih => exact areRead_mk rfl (by simp [ih])
  | call hcallee hargs ihcallee ihargs =>
    exact areRead_mk rfl (List.forall_mem_cons.mpr ⟨ihcallee, ihargs⟩)
  | index htarget hindex ihtarget ihindex => exact areRead_mk rfl (by simp [ihtarget, ihindex])
  | slice htarget hstart hstop ihtarget ihstart ihstop =>
    refine areRead_mk rfl (List.forall_mem_append.mpr ⟨List.forall_mem_cons.mpr ⟨ihtarget, ?_⟩, ?_⟩)
    · exact fun c hc => ihstart c (Option.mem_toList.mp hc)
    · exact fun c hc => ihstop c (Option.mem_toList.mp hc)
  | member hbase hshape hne hnames ih =>
    refine areRead_mk rfl (List.forall_mem_cons.mpr ⟨ih, fun c hc => ?_⟩)
    obtain ⟨s, hs, rfl⟩ := List.mem_map.mp hc
    exact hword (Word.isRead_name (hnames s hs))
  | list hitems ih => exact areRead_mk rfl ih
  | dict hkeys hvalues ihkeys ihvalues =>
    refine areRead_mk rfl fun c hc => ?_
    obtain ⟨entry, hentry, hc⟩ := List.mem_flatMap.mp hc
    rcases List.mem_cons.mp hc with rfl | hc
    · exact ihkeys entry hentry
    · rw [List.mem_singleton.mp hc]
      exact ihvalues entry hentry
  | assignment hop hshape htarget hvalue ihtarget ihvalue =>
    exact areRead_mk rfl (by simp [ihtarget, ihvalue])

end Outline

open Grammar Outline

/-- Words that read as an expression, in parentheses and with a semicolon, are a program. -/
theorem parse_of_readsAs {ws : List Word} {e : Outline} (hws : AreRead ws) (h : ReadsAs ws e)
    (config : ParseConfig) :
    let program := Program.parse (sourceOf (inParens ws ++ [.mark .semicolon])) config
    ∃ node, program.nodes = [node] ∧ program.errors = [] ∧ node.outline = e := by
  have hmark (p : Punctuation) : AreRead [.mark p] :=
    areRead_cons.mpr ⟨Word.isRead_mark p, areRead_nil⟩
  have hwords : AreRead (inParens ws ++ [.mark .semicolon]) := by
    rw [areRead_append, inParens, List.cons_append, areRead_cons, areRead_append]
    exact ⟨⟨Word.isRead_mark _, hws, hmark _⟩, hmark _⟩
  have hbytes : (inParens ws ++ [Word.mark .semicolon]).length ≤
      (sourceOf (inParens ws ++ [.mark .semicolon])).utf8ByteSize :=
    length_le_utf8ByteSize (hwords (Word.mark .lParen) List.mem_cons_self)
  have hle : (inParens ws).length ≤
      (sourceOf (inParens ws ++ [.mark .semicolon])).utf8ByteSize + 1 := by
    rw [List.length_append] at hbytes
    omega
  have hsemicolon : (Kind.punctuation .semicolon).pull < 5 := by decide
  have hgoes := h.parens.reads _ hle [.mark .semicolon] hsemicolon
  obtain ⟨node, hnodes, hnode, herrors⟩ :=
    parse_of_expression hwords config (.inr rfl) (.inr rfl) hgoes
  exact ⟨node, hnodes, herrors, hnode⟩

/-- **Reading gives back what was written.** An expression of any depth is written with all operands
in parentheses that are no literals or names. Reading it, in parentheses and with a semicolon, gives
this one expression and no errors. -/
theorem reading_gives_back {e : Outline} (he : e.IsExpression) (config : ParseConfig) :
    let program := Program.parse (sourceOf (inParens e.render ++ [.mark .semicolon])) config
    ∃ node, program.nodes = [node] ∧ program.errors = [] ∧ node.outline = e :=
  parse_of_readsAs (areRead_render he) (reads_render he) config

/-- A range test with a negation and a dictionary, added to an element of a member. -/
theorem reading_gives_back_assignment :
    let target := Outline.mk .index [.mk .member [.mk (.call 0) [.name "f", .name "a"], .name "items"],
      .int 0]
    let value := Outline.between .lt .ltEq (.name "a") (.mk (.invert (.operator .minus)) [.int 1])
      (.mk .dict [.name "a", .mk .list [.mk (.bool true) [], .mk .null []]])
    let e := Outline.mk (.assignment (.operator .plusEq)) [target, value]
    let program := Program.parse (sourceOf (inParens e.render ++ [.mark .semicolon])) .standard
    ∃ node, program.nodes = [node] ∧ program.errors = [] ∧ node.outline = e := by
  have hf : (Outline.name "f").IsExpression :=
    .name ⟨⟨_, _, rfl, rfl, rfl⟩, by decide, by decide⟩ fun b => by cases b <;> decide
  have ha : (Outline.name "a").IsExpression :=
    .name ⟨⟨_, _, rfl, rfl, rfl⟩, by decide, by decide⟩ fun b => by cases b <;> decide
  have hitems : IsName "items" := ⟨⟨_, _, rfl, rfl, rfl⟩, by decide, by decide⟩
  have hcall : (Outline.mk (.call 0) [.name "f", .name "a"]).IsExpression :=
    .call hf (List.forall_mem_singleton.mpr ha)
  have hlist : (Outline.mk .list [.mk (.bool true) [], .mk .null []]).IsExpression :=
    .list (List.forall_mem_cons.mpr ⟨.bool true, List.forall_mem_singleton.mpr .null⟩)
  have hdict := @IsExpression.dict [(.name "a", .mk .list [.mk (.bool true) [], .mk .null []])]
    (List.forall_mem_singleton.mpr ha) (List.forall_mem_singleton.mpr hlist)
  have hmember := @IsExpression.member _ ["items"] hcall (fun h => by cases h) (by decide)
    (List.forall_mem_singleton.mpr hitems)
  refine reading_gives_back (.assignment rfl rfl (.index hmember (.int (by decide))) ?_) .standard
  exact .between (by decide) ha (.invert (by decide) (.int (by decide))) hdict

end SableFront
