import SableFront.Grammar.Callable
import SableFront.Proofs.Simulation.View

/-!
# Simulation: values that look alike

Values look alike in a view if the same is seen of them. Whatever productions put together from
tokens and nodes that look alike looks alike too, and what they work out from them, a name, a type or
the members of a symbol, is the same.
-/

namespace SableFront

/-- Values of which a view can say that they look alike. -/
class Visible (α : Type) where
  alike : View → α → α → Prop

/-- The values look alike in the view. -/
abbrev View.Alike {α : Type} [Visible α] (v : View) (a b : α) : Prop := Visible.alike v a b

section Instances

variable {α β : Type} [Visible α] [Visible β]

instance : Visible Token := ⟨fun v t t' => v.token t = v.token t'⟩
instance : Visible Span := ⟨fun v s s' => v.span s = v.span s'⟩
instance : Visible Node := ⟨fun v n n' => n.seen v = n'.seen v⟩
instance : Visible (Option α) := ⟨fun v => Option.Rel v.Alike⟩
instance : Visible (List α) := ⟨fun v => List.Forall₂ v.Alike⟩
instance : Visible (α × β) := ⟨fun v p q => v.Alike p.1 q.1 ∧ v.Alike p.2 q.2⟩
instance : Visible (α ⊕ β) := ⟨fun v => Sum.LiftRel v.Alike v.Alike⟩
instance : Visible Bool := ⟨fun _ => Eq⟩
instance : Visible String := ⟨fun _ => Eq⟩
instance : Visible Nat := ⟨fun _ => Eq⟩
instance : Visible PUnit := ⟨fun _ => Eq⟩
instance : Visible Form := ⟨fun _ => Eq⟩
instance : Visible SymbolType := ⟨fun _ => Eq⟩

end Instances

variable {v : View}

/-! ### Tokens -/

section Tokens

variable {t t' : Token}

theorem kind_alike (h : v.Alike t t') : t.kind = t'.kind := by
  rw [← v.kind_token t, show v.token t = v.token t' from h, v.kind_token]

theorem value_alike (h : v.Alike t t') (hkind : t.kind.isOpenEnded = false) : t.value = t'.value := by
  rw [← v.value_token hkind, show v.token t = v.token t' from h, v.value_token (kind_alike h ▸ hkind)]

theorem text?_alike (h : v.Alike t t') (hkind : t.kind.isOpenEnded = false) : t.text? = t'.text? := by
  rw [Token.text?, Token.text?, value_alike h hkind]

theorem name?_alike (h : v.Alike t t') : t.name? = t'.name? := by
  rw [Token.name?, Token.name?, ← kind_alike h]
  split
  · rename_i hkind
    exact text?_alike h (congrArg Kind.isOpenEnded hkind)
  · rfl
  · rfl

/-- What a reason quotes is the same as far as it is seen. -/
theorem reason_alike (h : v.Alike t t') (quote : String → Reason) :
    v.reason (some (quote t.describe)) = v.reason (some (quote t'.describe)) := by
  cases v
  case lined => rfl
  all_goals
    have hvalue : t.value = t'.value := by
      have hseen := congrArg Token.value (show View.token _ t = View.token _ t' from h)
      exact hseen
    rw [Token.describe, Token.describe, kind_alike h, hvalue]

theorem isEof_alike (h : v.Alike t t') : t.isEof = t'.isEof := by
  rw [Token.isEof, Token.isEof, kind_alike h]

theorem isOfClass_alike (h : v.Alike t t') (c : Operator.Class) : t.isOfClass c = t'.isOfClass c := by
  rw [Token.isOfClass, Token.isOfClass, kind_alike h]

theorem isKeyword_alike (h : v.Alike t t') (k : Keyword) : t.isKeyword k = t'.isKeyword k := by
  rw [Token.isKeyword, Token.isKeyword, kind_alike h]

theorem alike_span (h : v.Alike t t') : v.Alike t.span t'.span := by
  cases v
  case whole => exact congrArg Token.span h
  case lined =>
    show (⟨.origin, ⟨t.span.stop.line, 0⟩⟩ : Span) = ⟨.origin, ⟨t'.span.stop.line, 0⟩⟩
    rw [← (View.lined_places t).2, show View.lined.token t = View.lined.token t' from h,
      (View.lined_places t').2]
  all_goals rfl

theorem alike_placeholder (h : v.Alike t t') :
    v.Alike (Token.placeholder t.span.start t.offset) (Token.placeholder t'.span.start t'.offset) := by
  cases v
  case bare => rfl
  case lined =>
    have hstart : t.span.start = t'.span.start := by
      rw [← (View.lined_places t).1, show View.lined.token t = View.lined.token t' from h,
        (View.lined_places t').1]
    rw [hstart]
    rfl
  all_goals
    cases (show t = t' from h)
    rfl

end Tokens

/-! ### Spans -/

theorem Position.line_later (p q : Position) : (p.later q).line = max p.line q.line := by
  unfold later
  split
  · rename_i hle
    have hline : p.line ≤ q.line := hle.elim Nat.le_of_lt fun h => Nat.le_of_eq h.1
    exact (Nat.max_eq_right hline).symm
  · rename_i hnot
    have hline : q.line ≤ p.line := Nat.le_of_not_lt fun hlt => hnot (.inl hlt)
    exact (Nat.max_eq_left hline).symm

theorem alike_merge {s s' u u' : Span} (h : v.Alike s s') (hu : v.Alike u u') :
    v.Alike (s.merge u) (s'.merge u') := by
  cases v
  case whole =>
    obtain rfl : s = s' := h
    obtain rfl : u = u' := hu
    rfl
  case lined =>
    have hline {s s' : Span} (h : View.lined.Alike s s') : s.stop.line = s'.stop.line := by
      have hseen := congrArg (fun s : Span => s.stop.line) (show View.span _ s = View.span _ s' from h)
      exact hseen
    show (⟨.origin, ⟨(s.stop.later u.stop).line, 0⟩⟩ : Span) =
      ⟨.origin, ⟨(s'.stop.later u'.stop).line, 0⟩⟩
    rw [Position.line_later, Position.line_later, hline h, hline hu]
  all_goals rfl

theorem alike_hull {s s' : Span} {ss ss' : List Span} (h : v.Alike s s') (hs : v.Alike ss ss') :
    v.Alike (Node.hull s ss) (Node.hull s' ss') := by
  induction hs generalizing s s' with
  | nil => exact h
  | cons hu _ ih => exact ih (alike_merge h hu)

/-! ### Lists -/

section Lists

variable {α : Type} [Visible α] {as as' bs bs' : List α}

theorem alike_append (h : v.Alike as as') (h' : v.Alike bs bs') : v.Alike (as ++ bs) (as' ++ bs') :=
  List.rel_append h h'

theorem alike_concat {a a' : α} (h : v.Alike as as') (ha : v.Alike a a') :
    v.Alike (as ++ [a]) (as' ++ [a']) := alike_append h (.cons ha .nil)

theorem alike_map {β : Type} [Visible β] {f : α → β} (h : v.Alike as as')
    (hf : ∀ a a', v.Alike a a' → v.Alike (f a) (f a')) : v.Alike (as.map f) (as'.map f) :=
  List.rel_map (fun a a' ha => hf a a' ha) h

theorem alike_flatten {ass ass' : List (List α)} (h : v.Alike ass ass') :
    v.Alike ass.flatten ass'.flatten := by
  induction h with
  | nil => exact .nil
  | cons h _ ih => exact alike_append h ih

theorem alike_toList {o o' : Option α} (h : v.Alike o o') : v.Alike o.toList o'.toList := by
  cases h with
  | none => exact .nil
  | some h => exact .cons h .nil

theorem alike_optionMap {β : Type} [Visible β] {f : α → β} {o o' : Option α} (h : v.Alike o o')
    (hf : ∀ a a', v.Alike a a' → v.Alike (f a) (f a')) : v.Alike (o.map f) (o'.map f) := by
  cases h with
  | none => exact .none
  | some h => exact .some (hf _ _ h)

theorem isSome_alike {o o' : Option α} (h : v.Alike o o') : o.isSome = o'.isSome := by
  cases h with
  | none => rfl
  | some => rfl

theorem getLast?_alike (h : v.Alike as as') : v.Alike as.getLast? as'.getLast? := by
  induction h with
  | nil => exact .none
  | cons h hs ih =>
    cases hs with
    | nil => exact .some h
    | cons => exact ih

theorem dropLast_alike (h : v.Alike as as') : v.Alike as.dropLast as'.dropLast := by
  induction h with
  | nil => exact .nil
  | cons h hs ih =>
    cases hs with
    | nil => exact .nil
    | cons => exact .cons h ih

theorem getElem?_alike (h : v.Alike as as') (i : Nat) : v.Alike as[i]? as'[i]? := by
  induction h generalizing i with
  | nil => exact .none
  | cons h hs ih =>
    cases i with
    | zero => exact .some h
    | succ i => exact ih i

end Lists

/-- Indices look alike only if they are the same. -/
theorem index_alike {o o' : Option Nat} (h : v.Alike o o') : o = o' := by
  cases h with
  | none => rfl
  | some h => exact congrArg some h

theorem alike_index (o : Option Nat) : v.Alike o o := by
  cases o with
  | none => exact .none
  | some => exact .some rfl

/-! ### Nodes -/

instance : Visible NodeData := ⟨fun v d d' => v.data d = v.data d'⟩

section Data

variable {d d' : NodeData}

theorem form_data_alike (h : v.Alike d d') : d.form = d'.form := by
  have hform := congrArg NodeData.form (show v.data d = v.data d' from h)
  exact hform

theorem map_token_alike {ts ts' : List Token} (h : v.Alike ts ts') :
    ts.map v.token = ts'.map v.token := by
  induction h with
  | nil => rfl
  | cons h _ ih => rw [List.map_cons, List.map_cons, ih, show v.token _ = v.token _ from h]

theorem alike_data (form : Form) {t t' : Token} {s s' : Span} {ms ms' ls ls' rs rs' : List Token}
    (ht : v.Alike t t') (hs : v.Alike s s') (hms : v.Alike ms ms')
    (hls : v.comments ls = v.comments ls') (hrs : v.comments rs = v.comments rs') :
    v.Alike (⟨form, t, s, ms, ls, rs⟩ : NodeData) ⟨form, t', s', ms', ls', rs'⟩ := by
  show v.data _ = v.data _
  rw [View.data, View.data, map_token_alike hms, show v.token t = v.token t' from ht,
    show v.span s = v.span s' from hs, hls, hrs]

end Data

namespace Node

variable {n n' : Node} {t t' : Token} {s s' : Span}

theorem data_alike (h : v.Alike n n') : v.Alike n.data n'.data := by
  have hdata := congrArg Node.data (show n.seen v = n'.seen v from h)
  rwa [data_seen, data_seen] at hdata

theorem alike_mk {d d' : NodeData} {children children' : List Node} (hd : v.Alike d d')
    (hchildren : v.Alike children children') : v.Alike (mk d children) (mk d' children') := by
  show seen v _ = seen v _
  rw [seen, seen, form_data_alike hd, seenAll_eq hchildren, show v.data d = v.data d' from hd]

theorem alike_build (form : Form) {children children' : List Node} {marks marks' : List Token}
    {spans spans' : List Span} (ht : v.Alike t t') (hchildren : v.Alike children children')
    (hmarks : v.Alike marks marks') (hspans : v.Alike spans spans') :
    v.Alike (build form t children marks spans) (build form t' children' marks' spans') := by
  have hall := alike_append hspans (alike_map (f := Token.span) hmarks fun _ _ h => alike_span h)
  exact alike_mk (alike_data form ht (alike_hull (alike_span ht) hall) hmarks rfl rfl) hchildren

theorem alike_spans {ns ns' : List Node} (h : v.Alike ns ns') :
    v.Alike (ns.map span) (ns'.map span) :=
  alike_map (f := span) h fun _ _ h => span_eq h

theorem alike_branch (form : Form) {children children' : List Node} (ht : v.Alike t t')
    (hchildren : v.Alike children children') :
    v.Alike (branch form t children) (branch form t' children') :=
  alike_build form ht hchildren .nil (alike_spans hchildren)

theorem alike_leaf (form : Form) (ht : v.Alike t t') : v.Alike (leaf form t) (leaf form t') :=
  alike_build form ht .nil .nil .nil

theorem alike_name (text : String) (ht : v.Alike t t') : v.Alike (name text t) (name text t') :=
  alike_leaf _ ht

theorem alike_ofLiteral (ht : v.Alike t t') : v.Alike (ofLiteral t) (ofLiteral t') := by
  cases hkind : t.kind.isOpenEnded
  case false =>
    rw [ofLiteral, ofLiteral, kind_alike ht, value_alike ht hkind]
    exact alike_leaf _ ht
  case true =>
    -- no literal, whatever its value
    have hform {t : Token} (h : t.kind.isOpenEnded) : ofLiteral t = leaf .invalid t := by
      unfold ofLiteral
      cases hk : t.kind
      all_goals first | rfl | (rw [hk] at h; cases h)
    rw [hform hkind, hform (kind_alike ht ▸ hkind)]
    exact alike_leaf _ ht

/-- A change of what a node has besides its children, if it leaves alone whether that is a block. -/
theorem alike_modify {f g : NodeData → NodeData} (h : v.Alike n n')
    (hf : v.Alike (f n.data) (g n'.data))
    (hform : v.leavesOut (f n.data).form = v.leavesOut n.form) :
    v.Alike (n.modify f) (n'.modify g) := by
  obtain ⟨d, children⟩ := n
  obtain ⟨d', children'⟩ := n'
  have hd : d.form = d'.form := form_eq h
  have hfd : (f d).form = (g d').form := form_data_alike hf
  have hchildren : seenAll v (v.leavesOut d.form) children =
      seenAll v (v.leavesOut d'.form) children' := congrArg Node.children h
  have hkept : v.leavesOut (f d).form = v.leavesOut d.form := hform
  show seen v (mk (f d) children) = seen v (mk (g d') children')
  rw [seen, seen, ← hfd, hkept, hchildren, ← hd, show v.data (f d) = v.data (g d') from hf]

theorem cover_alike (h : v.Alike n n') (hs : v.Alike s s') : v.Alike (n.cover s) (n'.cover s') := by
  refine alike_modify h ?_ rfl
  have hd : v.data n.data = v.data n'.data := data_alike h
  have hspan : v.span (n.data.span.merge s) = v.span (n'.data.span.merge s') :=
    alike_merge (span_eq h) hs
  show ({ v.data n.data with span := v.span (n.data.span.merge s) } : NodeData) =
    { v.data n'.data with span := v.span (n'.data.span.merge s') }
  rw [hd, hspan]

/-- A change of the marks that tells apart only what looks different. -/
theorem alike_marks {f g : List Token → List Token} (h : v.Alike n n')
    (hmarks : (f n.marks).map v.token = (g n'.marks).map v.token) :
    v.Alike (n.modify fun d => { d with marks := f d.marks })
      (n'.modify fun d => { d with marks := g d.marks }) := by
  refine alike_modify h ?_ rfl
  have hd : v.data n.data = v.data n'.data := data_alike h
  show ({ v.data n.data with marks := (f n.marks).map v.token } : NodeData) =
    { v.data n'.data with marks := (g n'.marks).map v.token }
  rw [hd, hmarks]

theorem map_marks_alike (h : v.Alike n n') : n.marks.map v.token = n'.marks.map v.token :=
  congrArg NodeData.marks (show v.data n.data = v.data n'.data from data_alike h)

theorem mark_alike (h : v.Alike n n') (ht : v.Alike t t') : v.Alike (n.mark t) (n'.mark t') := by
  have hcover := cover_alike h (alike_span ht)
  refine alike_marks (f := fun ms => ms ++ [t]) (g := fun ms => ms ++ [t']) hcover ?_
  rw [List.map_append, List.map_append, map_marks_alike hcover, List.map_singleton,
    List.map_singleton, show v.token t = v.token t' from ht]

theorem markFirst_alike (h : v.Alike n n') (ht : v.Alike t t') :
    v.Alike (n.markFirst t) (n'.markFirst t') := by
  have hcover := cover_alike h (alike_span ht)
  refine alike_marks (f := fun ms => t :: ms) (g := fun ms => t' :: ms) hcover ?_
  rw [List.map_cons, List.map_cons, map_marks_alike hcover, show v.token t = v.token t' from ht]

/-- Other comments that belong to a node are not told apart in a view without comments. -/
theorem alike_comments {ls ls' rs rs' : List Token} (h : v.Alike n n')
    (hls : v.comments ls = v.comments ls') (hrs : v.comments rs = v.comments rs') :
    v.Alike (n.modify fun d => { d with leading := ls, trailing := rs })
      (n'.modify fun d => { d with leading := ls', trailing := rs' }) := by
  refine alike_modify h ?_ rfl
  have hd : v.data n.data = v.data n'.data := data_alike h
  show ({ v.data n.data with leading := v.comments ls, trailing := v.comments rs } : NodeData) =
    { v.data n'.data with leading := v.comments ls', trailing := v.comments rs' }
  rw [hd, hls, hrs]

/-! ### Names -/

theorem ident?_alike (h : v.Alike n n') : n.ident? = n'.ident? := by
  rw [ident?, ident?, form_eq h]

theorem referredType?_alike (h : v.Alike n n') : n.referredType? = n'.referredType? := by
  rw [referredType?, referredType?, form_eq h]

theorem valueType_alike (h : v.Alike n n') (table : SymbolTable) :
    n.valueType table = n'.valueType table := by
  rw [← (sameValue_seen v table n).type, show n.seen v = n'.seen v from h,
    (sameValue_seen v table n').type]

theorem leavesOut_identifier (v : View) (f : Ident → Ident) (n : Node) :
    v.leavesOut (n.modifyIdent f).form = v.leavesOut n.form := by
  obtain ⟨⟨form, _, _, _, _, _⟩, _⟩ := n
  cases form with
  | ident i => cases v <;> rfl
  | _ => rfl

theorem modifyIdent_alike (h : v.Alike n n') (f : Ident → Ident) :
    v.Alike (n.modifyIdent f) (n'.modifyIdent f) := by
  have hd : v.data n.data = v.data n'.data := data_alike h
  have hkept := leavesOut_identifier v f n
  unfold modifyIdent modifyForm at hkept ⊢
  refine alike_modify h ?_ hkept
  generalize (fun form : Form => _) = g at hkept ⊢
  show ({ v.data n.data with form := g (v.data n.data).form } : NodeData) =
    { v.data n'.data with form := g (v.data n'.data).form }
  rw [hd]

theorem attach_alike (h : v.Alike n n') (id : SymbolId) (symbol : Symbol) (role : Role) :
    v.Alike (n.attach id symbol role) (n'.attach id symbol role) := modifyIdent_alike h _

theorem declared_alike (h : v.Alike n n') : v.Alike n.declared n'.declared := modifyIdent_alike h _

theorem withRole_alike (h : v.Alike n n') (role : Role) :
    v.Alike (n.withRole role) (n'.withRole role) := modifyIdent_alike h _

/-! ### Lists of statements -/

/-- Lists of statements look alike, without their comments if these are not seen. -/
def AlikeItems (v : View) (ns ns' : List Node) : Prop :=
  seenAll v (v.leavesOut (.block true)) ns = seenAll v (v.leavesOut (.block true)) ns'

theorem AlikeItems.append {ns ns' ms ms' : List Node} (h : AlikeItems v ns ns')
    (h' : AlikeItems v ms ms') : AlikeItems v (ns ++ ms) (ns' ++ ms') := by
  unfold AlikeItems at h h' ⊢
  rw [seenAll_append, seenAll_append, h, h']

theorem AlikeItems.of_alike {ns ns' : List Node} (h : v.Alike ns ns') : AlikeItems v ns ns' :=
  seenAll_eq h _

/-- On the lines all statements are seen. -/
theorem alike_of_seenAll {ns ns' : List Node} (h : AlikeItems .lined ns ns') :
    View.lined.Alike ns ns' := by
  have hmap : ns.map (seen .lined) = ns'.map (seen .lined) := by
    rw [← seenAll_false, ← seenAll_false]
    exact h
  exact forall₂_of_map_eq hmap

/-- Comments that stand alone look alike as far as the view shows comments. -/
theorem alikeItems_comments {ts ts' : List Token} (h : v.comments ts = v.comments ts') :
    AlikeItems v (ts.map ofComment) (ts'.map ofComment) := by
  have hnone (v : View) (ts : List Token) : seenAll v true (ts.map ofComment) = [] := by
    induction ts with
    | nil => rfl
    | cons t ts ih => exact ih
  cases v
  case whole =>
    obtain rfl : ts = ts' := h
    rfl
  case lined =>
    have hall : View.lined.Alike ts ts' := forall₂_of_map_eq h
    exact .of_alike (alike_map hall fun _ _ ht => alike_leaf .comment ht)
  all_goals exact (hnone _ ts).trans (hnone _ ts').symm

/-- Blocks look alike if their statements do. -/
theorem alike_block (closed : Bool) {ns ns' : List Node} {spans spans' : List Span}
    (ht : v.Alike t t') (hns : AlikeItems v ns ns') (hspans : v.Alike spans spans') :
    v.Alike (build (.block closed) t ns [] (ns.map span ++ spans))
      (build (.block closed) t' ns' [] (ns'.map span ++ spans')) := by
  cases v
  case whole =>
    obtain rfl : ns = ns' := by
      rw [← seenAll_whole ns, ← seenAll_whole ns']
      exact hns
    have hall : View.whole.Alike ns ns := List.forall₂_same.mpr fun _ _ => rfl
    exact alike_build _ ht hall .nil (alike_append (alike_spans hall) hspans)
  case lined =>
    have hall := alike_of_seenAll hns
    exact alike_build _ ht hall .nil (alike_append (alike_spans hall) hspans)
  all_goals exact congrArg₂ mk (alike_data (.block closed) ht rfl .nil rfl rfl) hns

end Node

end SableFront
