import SableFront.Proofs.RoundTrip.Delimited

/-!
# Round trip: calls, subscripts and members

A call or a subscript stands right after the operand that it belongs to, and one more round after the
value takes it in (`reads_suffix`). A subscript may lack a bound: no expression starts at a colon or
at a closing bracket (`goes_expression_none`). The names of a member are taken in one by one
(`goes_members`).
-/

namespace SableFront.Grammar

variable {r : Rules} {ws vs rest : List Word} {a e : Outline} {n k : Nat}
  {words : Outline → List Word}

/-- What the rounds after an operand make of it. -/
theorem reads_rounds (h : IsOperand ws a)
    (hloop : ∀ n, (ws ++ vs).length ≤ n → ∀ rest, (Word.kindAt rest).pull < 100 → ∀ node,
      node.outline = a → Goes (loop (postfixRound (rules n)) n node) (vs ++ rest) rest
        (·.outline = e)) : ReadsAs (ws ++ vs) e := by
  intro n hn
  have hlength : ws.length ≤ n := by
    rw [List.length_append] at hn
    omega
  have hpostfixed : Gives 100 (postfixed (rules n)) (ws ++ vs) e := by
    intro rest hrest
    rw [List.append_assoc]
    refine (h.values n hlength (vs ++ rest)).bind fun found hfound => ?_
    obtain ⟨node, rfl, hnode⟩ := hfound
    rw [rounds_rules]
    exact .map ((hloop n hn rest hrest node hnode).mono fun after hafter => ⟨after, rfl, hafter⟩)
  have hprefix : NoPrefix (ws ++ vs) := by
    intro rest
    rw [List.append_assoc]
    exact h.noPrefix _
  have hr := h.rounds_pos hlength
  exact ((hpostfixed.ofPostfixed hprefix hr).ofSteps hr).expression (by decide)

/-- One more call or subscript after an operand. -/
theorem reads_suffix (h : IsOperand ws a)
    (hround : ∀ n, vs.length < n → ∀ rest node, node.outline = a →
      Goes (postfixRound (rules n) node) (vs ++ rest) rest fun found =>
        ∃ after, found = .inl after ∧ after.outline = e) (hvs : 0 < vs.length) :
    ReadsAs (ws ++ vs) e := by
  refine reads_rounds h fun n hn rest hrest node hnode => ?_
  rw [List.length_append] at hn
  have hpos := h.length_pos
  obtain ⟨m, rfl⟩ := Nat.exists_eq_add_of_le' (Nat.le_trans (by omega : 2 ≤ _) hn)
  refine Leads.loop_next (hround (m + 2) (by omega) rest node hnode) fun after hafter => ?_
  refine Leads.loop_last ((goes_postfixRound_stop hrest after).mono fun found hfound => ?_)
  exact ⟨after, hfound, hafter⟩

theorem reads_call {args : List Outline} (hcallee : IsOperand ws a)
    (hargs : ∀ e ∈ args, IsOperand (words e) e) :
    ReadsAs (ws ++ inParens (commas (args.map words))) (.mk (.call 0) (a :: args)) := by
  refine reads_suffix hcallee (fun n hn rest node hnode => ?_) (Nat.succ_pos _)
  rw [inParens, List.cons_append, List.length_cons, List.length_append] at hn
  rw [inParens, List.append_assoc, List.cons_append, List.singleton_append]
  refine goes_current.bind fun t ht => ?_
  have hkind : t.kind = .punctuation .lParen := ht
  rw [hkind]
  refine .map (goes_advance.bind fun paren _ => ?_)
  refine (goes_expressions (by rfl) _ hargs (by omega)).bind fun found hfound => .pure ⟨_, rfl, ?_⟩
  rw [outline_build_children, List.map_append, List.map_singleton, hnode, hfound]
  rfl

/-! ### Subscripts -/

theorem goes_level_none {cls : Operator.Class} {next : Production (Option Node)}
    {combine : Node → Token → Node → Production Node} (h : Goes next ws ws (· = none)) (rounds : Nat) :
    Goes (level rounds cls next combine) ws ws (· = none) := by
  refine h.bind fun found hfound => ?_
  subst hfound
  exact .pure rfl

/-- No expression starts at a colon or a closing bracket. -/
theorem goes_expression_none {p : Punctuation} (h : Word.kindAt ws = .punctuation p)
    (hp : p = .colon ∨ p = .rBracket) : Goes (expression r) ws ws (· = none) := by
  have hvalueAt : valueAt r (.punctuation p) = pure none := by
    rcases hp with rfl | rfl <;> rfl
  have hvalue : Goes (value r) ws ws (· = none) := by
    refine goes_value ?_
    rw [h, hvalueAt]
    exact .pure rfl
  have hpostfixed : Goes (postfixed r) ws ws (· = none) := by
    refine hvalue.bind fun found hfound => ?_
    subst hfound
    exact .pure rfl
  have hinvert : Goes (invert r) ws ws (· = none) := hpostfixed.orAfter (by rw [h]; rfl)
  have hderef : Goes (deref r) ws ws (· = none) := hinvert.orAfter (by rw [h]; rfl)
  have hsteps : Goes (steps r) ws ws (· = none) := by
    refine Goes.orAfter ?_ (by rw [h]; rfl)
    refine hderef.bind fun found hfound => ?_
    subst hfound
    exact .pure rfl
  have hshift : Goes (shift r) ws ws (· = none) :=
    goes_level_none (goes_level_none (goes_level_none hsteps _) _) _
  have hlogical : Goes (logical r) ws ws (· = none) :=
    goes_level_none (goes_level_none (goes_level_none hshift _) _) _
  refine hlogical.bind fun found hfound => ?_
  subst hfound
  exact .pure rfl

/-- A bound of a slice as it is written. -/
def boundWords (words : Outline → List Word) (bound : Option Outline) : List Word :=
  (bound.map words).getD []

theorem goes_bound {bound : Option Outline} (h : ∀ e ∈ bound, IsOperand (words e) e)
    (hn : (boundWords words bound).length < n) {p : Punctuation}
    (hrest : Word.kindAt rest = .punctuation p) (hp : p = .colon ∨ p = .rBracket) :
    Goes (rules n).expression (boundWords words bound ++ rest) rest
      fun found => found.map Node.outline = bound := by
  cases bound with
  | none =>
    obtain ⟨m, rfl⟩ := Nat.exists_eq_add_one_of_ne_zero (Nat.ne_zero_of_lt hn)
    have hnone : Goes (expression (rules m)) rest rest (· = none) := goes_expression_none hrest hp
    exact hnone.mono fun found hfound => by rw [hfound, Option.map_none]
  | some e =>
    have hpull : (Word.kindAt rest).pull < 5 := by
      rw [hrest]
      rcases hp with rfl | rfl <;> decide
    refine ((h e rfl).inner hn rest hpull).mono fun found hfound => ?_
    obtain ⟨node, rfl, hnode⟩ := hfound
    rw [Option.map_some, hnode]

theorem reads_index {target index : Outline} (htarget : IsOperand ws target)
    (hindex : IsOperand vs index) : ReadsAs (ws ++ inBrackets vs) (.mk .index [target, index]) := by
  refine reads_suffix htarget (fun n hn rest node hnode => ?_) (Nat.succ_pos _)
  rw [inBrackets, List.cons_append, List.length_cons, List.length_append] at hn
  have hclose : (Kind.punctuation .rBracket).pull < 5 := by decide
  rw [inBrackets, List.append_assoc, List.cons_append, List.singleton_append]
  refine goes_current.bind fun t ht => ?_
  have hkind : t.kind = .punctuation .lBracket := ht
  rw [hkind]
  refine .map (goes_advance.bind fun bracket _ => ?_)
  have hgoes := hindex.inner (by omega : _ < n) (.mark .rBracket :: rest) hclose
  refine hgoes.bind fun found hfound => ?_
  obtain ⟨place, rfl, hplace⟩ := hfound
  refine (goes_eat_none (fun h => by cases h)).bind fun colon hcolon => ?_
  subst hcolon
  refine (goes_expect (w := .mark .rBracket) rfl _).bind fun close _ => .pure ⟨_, rfl, ?_⟩
  rw [outline_build_children, List.map_cons, List.map_singleton, hnode, hplace]
  rfl

theorem reads_slice {target : Outline} {start stop : Option Outline} (htarget : IsOperand ws target)
    (hstart : ∀ e ∈ start, IsOperand (words e) e) (hstop : ∀ e ∈ stop, IsOperand (words e) e) :
    ReadsAs (ws ++ inBrackets (boundWords words start ++ .mark .colon :: boundWords words stop))
      (.mk (.slice start.isSome stop.isSome) (target :: start.toList ++ stop.toList)) := by
  refine reads_suffix htarget (fun n hn rest node hnode => ?_) (Nat.succ_pos _)
  rw [inBrackets, List.cons_append, List.length_cons, List.length_append, List.length_append,
    List.length_cons] at hn
  rw [inBrackets, List.append_assoc, List.cons_append, List.singleton_append, List.append_assoc,
    List.cons_append]
  refine goes_current.bind fun t ht => ?_
  have hkind : t.kind = .punctuation .lBracket := ht
  rw [hkind]
  refine .map (goes_advance.bind fun bracket _ => ?_)
  refine (goes_bound hstart (by omega) rfl (.inl rfl)).bind fun first hfirst => ?_
  refine (goes_eat (w := .mark .colon) rfl).bind fun colon hcolon => ?_
  obtain ⟨t, rfl, -⟩ := hcolon
  refine (goes_bound hstop (by omega) rfl (.inr rfl)).bind fun last hlast => ?_
  refine (goes_expect (w := .mark .rBracket) rfl _).bind fun close _ => .pure ⟨_, rfl, ?_⟩
  subst hfirst hlast hnode
  rw [outline_build_children, List.map_append, List.map_cons, Option.isSome_map, Option.isSome_map,
    Option.toList_map, Option.toList_map]
  rfl

/-! ### Members -/

/-- A base with names after it. -/
def members (base : Outline) : List String → Outline
  | [] => base
  | names => .mk .member (base :: names.map .name)

theorem outline_modifyIdent (n : Node) {change : Ident → Ident} (h : ∀ i, (change i).name = i.name) :
    (n.modifyIdent change).outline = n.outline := by
  obtain ⟨⟨form, token, span, marks, leading, trailing⟩, children⟩ := n
  refine (Node.outline_mk _ _).trans (.trans ?_ (Node.outline_mk _ _).symm)
  cases form with
  | ident i => exact congrArg (fun s => Outline.mk (.name s) (children.map Node.outline)) (h i)
  | _ => rfl

theorem form_eq_dotted_iff {n : Node} : n.form = .dotted ↔ n.outline.shape = .member := by
  rw [Node.shape_outline]
  obtain ⟨⟨form, token, span, marks, leading, trailing⟩, children⟩ := n
  show form = .dotted ↔ _
  cases form <;> exact ⟨fun h => by cases h <;> rfl, fun h => by cases h <;> rfl⟩

/-- One more name after a base, or after a base with names. -/
theorem outline_dotted {base : Outline} (hbase : base.shape ≠ .member) {names : List String}
    {node part : Node} {s : String} (hnode : node.outline = members base names)
    (hpart : part.outline = .name s) :
    (dotted node part).outline = members base (names ++ [s]) := by
  unfold dotted
  cases names with
  | nil =>
    have hform : node.form ≠ .dotted := by
      rw [ne_eq, form_eq_dotted_iff, hnode]
      exact hbase
    split
    · exact absurd ‹_› hform
    · rw [Node.branch, Node.outline_build, List.map_cons, List.map_singleton, hnode, hpart]
      rfl
  | cons first names =>
    have hform : node.form = .dotted := by
      rw [form_eq_dotted_iff, hnode]
      rfl
    have hchildren : node.children.map Node.outline = base :: (first :: names).map .name := by
      rw [← Node.children_outline, hnode]
      rfl
    have hshape : (node.cover part.span).data.shape = .member := by
      rw [← Node.shape_outline, Node.outline_cover, hnode]
      rfl
    rw [hform]
    dsimp only
    have hnames : members base (first :: names ++ [s]) =
        .mk .member (base :: (first :: names ++ [s]).map .name) := rfl
    rw [Node.outline_mk, hshape, List.map_append, hchildren, List.map_singleton, hpart, hnames,
      List.map_append]
    rfl

/-- A dot and a name after a node. -/
theorem goes_member {s : String} (node : Node) :
    Goes (member node) (.mark .dot :: .name s :: ws) ws fun after =>
      ∃ part, part.outline = .name s ∧ after = dotted node part := by
  refine goes_advance.bind fun dot _ => goes_expectIdent.bind fun found hfound => ?_
  obtain ⟨text, token⟩ := found
  have htext : text = s := hfound
  subst htext
  have hname : (Node.name text token).outline = .name text := Node.outline_build _ _ _ _ _
  have hrole : ((Node.name text token).withRole .property).outline = .name text :=
    (outline_modifyIdent _ fun _ => rfl).trans hname
  have hattach (id : SymbolId) (symbol : Symbol) :
      ((Node.name text token).attach id symbol .property).outline = .name text :=
    (outline_modifyIdent _ fun _ => rfl).trans hname
  refine goes_get.bind fun state _ => ?_
  dsimp only
  split
  · split
    · exact .pure ⟨_, hattach _ _, rfl⟩
    · exact .pure ⟨_, hrole, rfl⟩
  · exact .pure ⟨_, hrole, rfl⟩

/-- A dotted name without its base, as it is written. -/
def dotWords (names : List String) : List Word := names.flatMap fun s => [.mark .dot, .name s]

theorem length_dotWords (names : List String) : (dotWords names).length = 2 * names.length := by
  induction names with
  | nil => rfl
  | cons s names ih =>
    have hcons : dotWords (s :: names) = .mark .dot :: .name s :: dotWords names := rfl
    rw [hcons, List.length_cons, List.length_cons, List.length_cons, ih]
    omega

/-- All names after a base are taken in. -/
theorem goes_members {base : Outline} (hbase : base.shape ≠ .member) {names : List String}
    (hk : names.length < k) (hrest : (Word.kindAt rest).pull < 100) {done : List String} {node : Node}
    (hnode : node.outline = members base done) :
    Goes (loop (postfixRound r) k node) (dotWords names ++ rest) rest
      (·.outline = members base (done ++ names)) := by
  induction k generalizing names done node with
  | zero => exact absurd hk (Nat.not_lt_zero _)
  | succ k ih =>
    cases names with
    | nil =>
      refine Leads.loop_last ((goes_postfixRound_stop hrest node).mono fun found hfound => ?_)
      exact ⟨node, hfound, by rw [hnode, List.append_nil]⟩
    | cons s names =>
      have hround : Goes (postfixRound r node) (.mark .dot :: .name s :: (dotWords names ++ rest))
          (dotWords names ++ rest) fun found =>
            ∃ after, found = .inl after ∧ after.outline = members base (done ++ [s]) := by
        refine goes_current.bind fun t ht => ?_
        have hkind : t.kind = .punctuation .dot := ht
        rw [hkind]
        refine .map ((goes_member node).mono fun after hafter => ⟨after, rfl, ?_⟩)
        obtain ⟨part, hpart, rfl⟩ := hafter
        exact outline_dotted hbase hnode hpart
      refine Leads.loop_next hround fun after hafter => ?_
      refine (ih (Nat.lt_of_succ_lt_succ hk) hafter).mono fun found hfound => ?_
      rw [hfound, List.append_assoc, List.singleton_append]

theorem reads_member {names : List String} (hbase : IsOperand ws a) (hshape : a.shape ≠ .member) :
    ReadsAs (ws ++ dotWords names) (members a names) := by
  refine reads_rounds hbase fun n hn rest hrest node hnode => ?_
  have hk : names.length < n := by
    have hpos := hbase.length_pos
    rw [List.length_append, length_dotWords] at hn
    omega
  have hnone : node.outline = members a [] := hnode
  exact goes_members hshape hk hrest hnone

end SableFront.Grammar
