import SableFront.Proofs.Listing.Token
import SableFront.Proofs.Tiling.Comments
import SableFront.Proofs.Tiling.Filtering

/-!
# Listings: the text of a tree

A tree is shown on one line, but for the comments in it, which are shown as they stand. For that all its
nodes have to be *legible*: the names and the words of the tokens that they show have no line breaks,
and no child is left out (`Node.isBroken_render`). All nodes of a program are legible, since the token of
a name is a word, what is shown by its kind is neither a comment nor invalid text, and leaves have no
children (`Grammar.legible_of_mem_walkAll`).
-/

namespace SableFront

open Text

namespace Node

/-! ### Parts of a text -/

variable {texts : List String} {k : Nat}

theorem isBroken_group {head : String} (h : isBroken head = false) (texts : List String) :
    isBroken (group head texts) = texts.any isBroken := by
  rw [group, isBroken_append, isBroken_append, isBroken_intercalate rfl, List.any_cons, h]
  simp [show isBroken "(" = false from rfl, show isBroken ")" = false from rfl]

/-- What stands for an absent part is unbroken. -/
theorem any_slots (flags : List Bool) (texts : List String) :
    (slots flags texts).any isBroken = texts.any isBroken := by
  induction flags, texts using slots.induct with
  | case1 texts => rw [slots]
  | case2 rest text texts ih => rw [slots, List.any_cons, List.any_cons, ih]
  | case3 flag rest texts hne ih =>
    rw [slots, List.any_cons, ih]
    · rfl
    · exact hne

/-- Keys and values are put together in pairs. -/
theorem any_entries (texts : List String) : (entries texts).any isBroken = texts.any isBroken := by
  induction texts using entries.induct with
  | case1 key value rest ih =>
    rw [entries, List.any_cons, isBroken_group rfl, ih]
    simp [Bool.or_assoc]
  | case2 rest hne => rw [entries]; exact hne

theorem any_aliased (named : Bool) (texts : List String) :
    (aliased named texts).any isBroken = texts.any isBroken := by
  cases texts with
  | nil => rfl
  | cons text texts =>
    cases named
    · rfl
    · change (isBroken (group "as" [text]) || texts.any isBroken) = _
      rw [isBroken_group rfl]
      simp

/-- Parts in two places are all parts. -/
theorem any_take_drop (k : Nat) (texts : List String) :
    ((texts.take k).any isBroken || (texts.drop k).any isBroken) = texts.any isBroken := by
  rw [← List.any_append, List.take_append_drop]

theorem any_take_take_drop (j k : Nat) (texts : List String) :
    ((texts.take j).any isBroken || ((texts.drop j).take k).any isBroken ||
      (texts.drop (j + k)).any isBroken) = texts.any isBroken := by
  rw [← List.drop_drop, Bool.or_assoc, any_take_drop, any_take_drop]

/-- The last part may stand behind the others. -/
theorem any_dropLast (texts : List String) :
    ((texts.dropLast).any isBroken || texts.getLast?.toList.any isBroken) = texts.any isBroken := by
  cases hlast : texts.getLast? with
  | none => simp [List.getLast?_eq_none_iff.mp hlast]
  | some last =>
    rw [← List.dropLast_append_getLast? last hlast]
    simp

/-- A group is left out if there are no parts for it. -/
theorem any_grouped {head : String} (h : isBroken head = false) (hnone : k = 0 → texts = []) :
    (if k = 0 then [] else [group head texts]).any isBroken = texts.any isBroken := by
  split
  · rename_i hzero
    rw [hnone hzero]
  · rw [List.any_cons, isBroken_group h, List.any_nil, Bool.or_false]

theorem isBroken_head (n : Node) : isBroken n.head = false := by
  unfold head
  split
  case h_5 =>
    unfold tag
    repeat' split
    all_goals rfl
  all_goals rfl

/-! ### Legible nodes -/

/-- What the node shows of itself has no line break, if it is no comment, and it shows all of its
children. -/
structure Legible (n : Node) : Prop where
  name : ∀ i, n.form = .ident i → isBroken i.name = false
  anchor : n.form.use? = some .shown → isBroken n.token.describe = false
  marks : ∀ t ∈ n.marks, isBroken t.describe = false
  filled : ∀ k ∈ n.form.places?, n.children.length = k

/-- The node is a comment with a line break. -/
def isBrokenComment (n : Node) : Bool := n.form = .comment && isBroken n.token.describe

theorem isBrokenComment_of_ne {n : Node} (h : n.form ≠ .comment) : n.isBrokenComment = false := by
  rw [isBrokenComment, decide_eq_false h, Bool.false_and]

section Marks

variable {n : Node} (h : n.Legible)
include h

theorem Legible.any_marks : (n.marks.map Token.describe).any isBroken = false := by
  rw [List.any_map, List.any_eq_false]
  exact fun t ht => Bool.eq_false_iff.mp (h.marks t ht)

theorem Legible.any_firstMark : (n.marks.head?.map Token.describe).toList.any isBroken = false := by
  cases hfirst : n.marks.head? with
  | none => rfl
  | some t => exact (Bool.or_false _).trans (h.marks t (List.mem_of_mem_head? hfirst))

theorem Legible.isBroken_secondOperator :
    isBroken ((n.marks.head?.map Token.describe).getD "?") = false := by
  cases hfirst : n.marks.head? with
  | none => rfl
  | some t => exact h.marks t (List.mem_of_mem_head? hfirst)

end Marks

/-- A leaf is shown by its name, its value or its token. -/
theorem any_parts_of_isLeaf {data : NodeData} (hleaf : data.form.isLeaf) (h : (mk data []).Legible) :
    (parts data []).any isBroken = (mk data []).isBrokenComment := by
  obtain ⟨form, token, span, marks, leading, trailing⟩ := data
  have hop (hshown : form.use? = some .shown) : isBroken token.describe = false := h.anchor hshown
  cases form
  case ident i =>
    change (isBroken (i.name ++ if i.type.has .pack then "..." else "") || false) = false
    rw [isBroken_append, h.name i rfl]
    split <;> rfl
  case int n =>
    change (isBroken (toString n) || false) = false
    rw [isBroken_toString]
    rfl
  case float bits single =>
    change (isBroken (String.ofList (Decimal.inTree bits) ++ if single then "f" else "") || false) = false
    rw [isBroken_append, isBroken_ofList (Decimal.newline_not_mem_inTree bits)]
    split <;> rfl
  case str s =>
    change (isBroken (String.ofList (quoted '"' s.toList)) || false) = false
    rw [isBroken_ofList (newline_not_mem_quoted (by decide) _)]
    rfl
  case char c =>
    change (isBroken (String.ofList (quoted '\'' [c])) || false) = false
    rw [isBroken_ofList (newline_not_mem_quoted (by decide) _)]
    rfl
  case bool b => cases b <;> rfl
  case null | invalid => rfl
  case storage | visibility =>
    change (isBroken token.describe || false) = false
    rw [hop rfl]
    rfl
  case comment => exact Bool.or_false _
  all_goals cases hleaf

/-- Other nodes are shown by their words and by all of their children. -/
theorem any_parts_of_not_isLeaf {data : NodeData} {children : List Node} (hleaf : ¬ data.form.isLeaf)
    (h : (mk data children).Legible) (htexts : texts.length = children.length) :
    (parts data texts).any isBroken = texts.any isBroken := by
  have hcount := h.filled
  obtain ⟨form, token, span, marks, leading, trailing⟩ := data
  have hop (hshown : form.use? = some .shown) : isBroken token.describe = false := h.anchor hshown
  have hmarks : (marks.map Token.describe).any isBroken = false := h.any_marks
  have hfirst : (marks.head?.map Token.describe).toList.any isBroken = false := h.any_firstMark
  have hsecond : isBroken ((marks.head?.map Token.describe).getD "?") = false :=
    h.isBroken_secondOperator
  unfold parts
  cases form
  case ident | int | float | str | char | bool | null | storage | visibility | comment | invalid =>
    exact absurd rfl hleaf
  case dict => exact any_entries texts
  case slice | forLoop => exact any_slots _ texts
  case call generics =>
    dsimp only
    rw [List.any_append, List.any_append, any_grouped rfl (by rintro rfl; rfl), List.any_cons,
      isBroken_group rfl, List.any_nil, Bool.or_false, Nat.add_comm generics, any_take_take_drop]
  case invert | stepBefore =>
    dsimp only
    rw [List.any_cons, hop rfl, Bool.false_or]
  case stepAfter =>
    dsimp only
    rw [List.any_append, List.any_cons, hop rfl, List.any_nil, Bool.or_false, Bool.or_false]
  case binary | assignment =>
    dsimp only
    rw [List.any_append, List.any_cons, hop rfl, Bool.false_or, any_take_drop]
  case between =>
    dsimp only
    rw [List.any_append, List.any_append, List.any_cons, List.any_cons, hop rfl, hsecond,
      Bool.false_or, Bool.false_or]
    exact any_take_take_drop 1 1 texts
  case new call =>
    cases call
    · rfl
    · dsimp only
      rw [if_pos rfl, List.any_append, List.any_cons, isBroken_group rfl, List.any_nil,
        Bool.or_false, any_take_drop]
  case imports named | importItem named =>
    dsimp only
    rw [List.any_append, any_aliased, any_take_drop]
  case classDef isEnum visibility bases =>
    dsimp only
    rw [List.any_append, List.any_append, any_grouped rfl (by rintro rfl; rfl)]
    exact any_take_take_drop _ _ texts
  case typeRef storage generics type =>
    have hlead : generics = 0 → texts.drop (present [storage] + 1) = [] := by
      rintro rfl
      have hlength : children.length = storage.toNat + 1 := hcount _ rfl
      rw [List.drop_eq_nil_iff, htexts, hlength]
      cases storage <;> decide
    dsimp only
    rw [List.any_append, List.any_append, any_grouped rfl hlead, hmarks, Bool.or_false,
      any_take_drop]
  case template =>
    dsimp only
    rw [List.any_cons, isBroken_group rfl, any_dropLast]
  case operatorDef visibility storage returns =>
    dsimp only
    rw [List.any_append, List.any_append, hfirst, Bool.or_false, any_take_drop]
  all_goals rfl

theorem any_parts {data : NodeData} {children : List Node} (h : (mk data children).Legible)
    (htexts : texts.length = children.length) :
    (parts data texts).any isBroken = ((mk data children).isBrokenComment || texts.any isBroken) := by
  by_cases hleaf : data.form.isLeaf
  · -- leaves have no children
    obtain rfl : children = [] :=
      List.length_eq_zero_iff.mp (h.filled 0 (Form.places?_of_isLeaf hleaf))
    rw [List.length_eq_zero_iff.mp htexts, any_parts_of_isLeaf hleaf h, List.any_nil, Bool.or_false]
  · have hcomment : (mk data children).isBrokenComment = false :=
      isBrokenComment_of_ne fun hform => hleaf ((congrArg Form.isLeaf hform).trans rfl)
    rw [hcomment, Bool.false_or, any_parts_of_not_isLeaf hleaf h htexts]

theorem length_renderAll (ns : List Node) : (renderAll ns).length = ns.length := by
  induction ns with
  | nil => rfl
  | cons n ns ih => rw [renderAll, List.length_cons, List.length_cons, ih]

mutual

/-- **A tree is shown on one line**, but for the line breaks of the comments in it. -/
theorem isBroken_render : ∀ n : Node, n.Everywhere Legible →
    isBroken n.render = n.walk.any isBrokenComment
  | mk data children, h => by
    obtain ⟨hself, hchildren⟩ := everywhere_iff.mp h
    rw [render, isBroken_group (isBroken_head _), any_parts hself (length_renderAll children), walk,
      List.any_cons, any_renderAll children hchildren]

theorem any_renderAll : ∀ ns : List Node, (∀ n ∈ ns, n.Everywhere Legible) →
    (renderAll ns).any isBroken = (walkAll ns).any isBrokenComment
  | [], _ => rfl
  | n :: ns, h => by
    obtain ⟨hn, hns⟩ := List.forall_mem_cons.mp h
    rw [renderAll, walkAll, List.any_cons, List.any_append, isBroken_render n hn, any_renderAll ns hns]

end

end Node

/-! ### Legible nodes are made -/

/-- A name is shown as it is spelled. -/
theorem Token.describe_of_name? {t : Token} {s : String} (h : t.name? = some s) : t.describe = s := by
  obtain ⟨kind, value, span, offset, size, width⟩ := t
  unfold name? at h
  split at h
  · rename_i hkind
    cases hkind
    obtain rfl : value = .text s := Token.text?_eq_some.mp h
    rfl
  · rename_i k hkind
    cases hkind
    exact Option.some_inj.mp (Option.ite_none_right_eq_some.mp h).2
  · cases h

theorem Token.isBroken_name? {t : Token} (h : isBroken t.describe = false) :
    isBroken (t.name?.getD "") = false := by
  cases hname : t.name? with
  | none => rfl
  | some s => rwa [Token.describe_of_name? hname] at h

namespace Node

variable {table : SymbolTable} {ps : List Piece} {n k : Node} {t : Token}

theorem places?_modifyIdent (n : Node) (f : Ident → Ident) :
    (n.modifyIdent f).form.places? = n.form.places? := by
  obtain ⟨⟨form, token, span, marks, leading, trailing⟩, children⟩ := n
  cases form <;> rfl

theorem form_of_ident? {i : Ident} (h : n.ident? = some i) : n.form = .ident i := by
  unfold ident? at h
  split at h
  · rename_i j hform
    exact hform.trans (congrArg Form.ident (Option.some_inj.mp h))
  · cases h

/-- Only the form, the anchor, the marks and the children matter. -/
theorem Legible.congr (h : k.Legible) (hform : n.form = k.form) (htoken : n.token = k.token)
    (hmarks : ∀ t ∈ n.marks, t ∈ k.marks ∨ isBroken t.describe = false)
    (hchildren : n.children = k.children) : n.Legible :=
  ⟨fun i hi => h.name i (hform ▸ hi), fun huse => htoken ▸ h.anchor (hform ▸ huse),
    fun t ht => (hmarks t ht).elim (h.marks t) id, fun c hc => hchildren ▸ h.filled c (hform ▸ hc)⟩

theorem legible_leaf {form : Form} (hleaf : form.isLeaf) (hname : ∀ i, form ≠ .ident i)
    (hanchor : form.use? = some .shown → isBroken t.describe = false) : (leaf form t).Legible := by
  refine ⟨fun i hi => absurd hi (hname i), hanchor, List.forall_mem_nil _, fun k hk => ?_⟩
  replace hk : k ∈ form.places? := hk
  rw [Form.places?_of_isLeaf hleaf] at hk
  exact Option.some_inj.mp hk

theorem legible_ofLiteral (h : isBroken t.describe = false) : (ofLiteral t).Legible := by
  unfold ofLiteral
  split <;> exact legible_leaf rfl (fun _ => Form.noConfusion) fun _ => h

/-- **A node that is made is legible** if the tokens that it shows have no line breaks. -/
theorem Makes.legible (h : Makes table ps n)
    (htokens : ∀ use t, .token use t ∈ ps → use = .name ∨ use = .shown → isBroken t.describe = false)
    (hnodes : ∀ k, .node k ∈ ps → k.Legible) : n.Legible := by
  cases h with
  | @build _ form anchor marks covered hps =>
    refine ⟨fun i hi => ?_, fun huse => ?_, fun t ht => ?_, hps.filled⟩
    · have huse : form.use? = some .name := by rw [show form = .ident i from hi]; rfl
      rw [hps.named i hi]
      exact Token.isBroken_name? (htokens .name anchor (hps.token .name huse) (.inl rfl))
    · exact htokens .shown anchor (hps.token .shown huse) (.inr rfl)
    · exact htokens .shown t (hps.shown t ht) (.inr rfl)
  | @literal t => exact legible_ofLiteral (htokens .shown t List.mem_cons_self (.inr rfl))
  | enclosed k => exact (hnodes k (by simp)).congr rfl rfl (fun t ht => .inl ht) rfl
  | marked k mark =>
    refine (hnodes k (by simp)).congr rfl rfl (fun t ht => ?_) rfl
    rcases List.mem_append.mp ht with ht | ht
    · exact .inl ht
    · exact .inr (List.mem_singleton.mp ht ▸ htokens .shown mark (by simp) (.inr rfl))
  | markedFirst mark k =>
    refine (hnodes k (by simp)).congr rfl rfl (fun t ht => ?_) rfl
    rcases List.mem_cons.mp ht with rfl | ht
    · exact .inr ((hnodes (.leaf .visibility t) (by simp)).anchor rfl)
    · exact .inl ht
  | extended base part hbase =>
    have hlegible := hnodes base (by simp)
    refine ⟨hlegible.name, hlegible.anchor, hlegible.marks, fun c hc => ?_⟩
    replace hc : c ∈ base.form.places? := hc
    rw [hbase] at hc
    cases hc
  | @bound k f _ hname =>
    have hlegible := hnodes k (by simp)
    refine ⟨fun i hi => ?_, fun huse => ?_, hlegible.marks, fun c hc => ?_⟩
    · have hident : (k.modifyIdent f).ident? = some i := by rw [ident?, hi]
      rw [ident?_modifyIdent] at hident
      obtain ⟨j, hj, rfl⟩ := Option.map_eq_some_iff.mp hident
      rw [hname]
      exact hlegible.name j (form_of_ident? hj)
    · exact hlegible.anchor (use?_modifyIdent k f ▸ huse)
    · exact hlegible.filled c (places?_modifyIdent k f ▸ hc)
  | commented leading trailing k =>
    exact (hnodes k (by simp)).congr rfl rfl (fun t ht => .inl ht) rfl

end Node

namespace Grammar

open Node

/-- The current token has no line break, if it is not invalid. Of what is in hand, names and what is to
be shown have none, and the nodes are legible. -/
structure Showing (ps : List Piece) (s : State) : Prop where
  current : s.current.kind ≠ .invalid → isBroken s.current.describe = false
  pieces : Piece.AllFit (fun use t => use = .name ∨ use = .shown → isBroken t.describe = false) Legible
    ps

namespace Showing

variable {ps qs rs : List Piece} {s t : State} {n : Node} {use : Use}

theorem congr (h : Showing ps s) (hlexer : t.lexer = s.lexer) : Showing ps t := by
  refine ⟨?_, h.pieces⟩
  unfold State.current
  rw [hlexer]
  exact h.current

/-- What is read next is no comment. -/
theorem isBroken_bump (s : State) (hinvalid : s.bump.current.kind ≠ .invalid) :
    isBroken s.bump.current.describe = false := by
  obtain ⟨c, htoken, -⟩ := s.lexer.cursor.exists_significant
  have htrivia := s.lexer.cursor.tokens_significant.choose_spec.2.2.1
  change isBroken s.lexer.cursor.significant.token.describe = false
  replace hinvalid : s.lexer.cursor.significant.token.kind ≠ .invalid := hinvalid
  rw [htoken] at htrivia hinvalid ⊢
  refine c.isBroken_next (fun hblock => ?_) hinvalid
  rw [hblock] at htrivia
  cases htrivia

/-- What is read for its name or to be shown is not invalid. -/
theorem ne_invalid {k : Kind} (h : use.takes k) (huse : use = .name ∨ use = .shown) :
    k ≠ .invalid := by
  rintro rfl
  rcases huse with rfl | rfl <;> cases h

theorem advance (h : Showing ps s) (huse : use.takes s.current.kind) :
    Showing (ps ++ [.token use s.current]) s.advance := by
  refine ⟨?_, h.pieces.push fun hshown => h.current (ne_invalid huse hshown)⟩
  unfold State.advance
  split
  · exact h.current
  · exact isBroken_bump s

/-- An angle is shown as it is spelled. -/
theorem split (h : Showing ps s) (hs : isClosingAngle s.current.kind) :
    Showing ps { s with lexer := s.lexer.splitAngle?.getD s.lexer } := by
  refine ⟨fun _ => ?_, h.pieces⟩
  change isBroken (s.lexer.splitAngle?.getD s.lexer).token.describe = false
  have hdescribe : (s.lexer.splitAngle?.getD s.lexer).token.describe = Operator.gt.spelling := by
    rw [Token.describe, Survey.kind_splitAngle hs]
  rw [hdescribe]
  rfl

end Showing

theorem loose_showing : Survey.Loose (fun _ => True) Showing where
  fit_current _ := trivial
  fit _ _ := trivial
  congr h hlexer _ _ _ _ := Showing.congr h hlexer
  sublist h hqs := ⟨h.current, h.pieces.subset hqs.subset⟩
  mind h hp := ⟨h.current, h.pieces.mind hp⟩
  advance h huse := Showing.advance h huse
  split h hs := Showing.split h hs
  record h _ := Showing.congr h (State.lexer_record _ _)
  missing h := ⟨h.current, h.pieces.pushLeaf (legible_leaf rfl (fun _ => Form.noConfusion) fun huse => by
    cases huse)⟩
  make h hn := ⟨h.current, h.pieces.make hn hn.legible⟩
  collect h _ _ := ⟨h.current, h.pieces.collect fun _ _ =>
    legible_leaf rfl (fun _ => Form.noConfusion) fun huse => by cases huse⟩
  operate h _ _ := Showing.congr h rfl
  rewind h _ := ⟨h.current, h.pieces⟩

variable {source : String} {config : ParseConfig} {n : Node}

/-- **All nodes of a program are legible.** -/
theorem legible_of_mem_walkAll (hn : n ∈ walkAll (Program.parse source config).nodes) :
    n.Everywhere Legible := by
  have hstart : Showing [] (State.start source config) :=
    ⟨Showing.isBroken_bump (.unread source config), .nil⟩
  obtain ⟨s, hholds, -⟩ := Survey.reading_keeps (loose_showing.whole _) hstart
  exact hholds.pieces.nodes.walkAll hn

/-- A comment that stands alone is shown with line breaks if it goes on over the end of a line. -/
theorem isBrokenComment_of_mem_walkAll (hn : n ∈ walkAll (Program.parse source config).nodes) :
    n.isBrokenComment = false ↔
      (n.form = .comment → n.token.span.stop.line = n.token.span.start.line) := by
  rw [isBrokenComment, Bool.and_eq_false_imp, decide_eq_true_iff]
  refine forall_congr' fun hform => ?_
  have huse : n.form.use? = some .comment := by rw [hform]; rfl
  have hcomment : n.token.kind.isComment := (suits_of_mem_walkAll hn).anchor .comment huse
  exact Token.isBroken_describe_of_mem_comments
    (mem_comments_of_mem_walkAll hn n.token_mem_ownTokens hcomment)

end Grammar

end SableFront
