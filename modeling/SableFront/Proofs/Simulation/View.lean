import Mathlib.Data.List.Forall2
import SableFront.Diagnostic
import SableFront.Tree.ValueType

/-!
# Simulation: what is seen of a tree

Two readings are compared by what is seen of the trees they give. A view says what that is: all of a
tree, or a tree without the spans of its nodes and without its comments, with the places of its
tokens or without them; or a tree with its tokens and comments on their lines. Kinds, values, forms and
what names are bound to are seen in every view, but for the values of comments and of invalid text,
which may reach to the end of a line.

A comment that stands alone is a child of a block or of the whole program; in a view without comments
it is left out there. So where the place of a child matters, as in the operands of an operator, the
view shows as many children as the tree has.
-/

namespace SableFront

/-- A token of the kind may reach to the end of a line, whatever stands there. -/
def Kind.isOpenEnded (k : Kind) : Bool := k.isComment || k == .invalid

/-- What is seen of a tree. -/
inductive View
  /-- Everything. -/
  | whole
  /-- Tokens in their places, but neither the spans of nodes nor comments. -/
  | placed
  /-- Neither places and spans nor comments. -/
  | bare
  /-- Tokens and comments without their byte offsets, and of comments and invalid text only where they
  start and the line on which they stop. -/
  | lined
  deriving DecidableEq

theorem forall₂_of_map_eq {α β : Type} {f : α → β} {as bs : List α} (h : as.map f = bs.map f) :
    List.Forall₂ (fun a b => f a = f b) as bs := by
  have hsame : List.Forall₂ (· = ·) (as.map f) (bs.map f) := h ▸ List.forall₂_same.mpr fun _ _ => rfl
  exact List.forall₂_map_left_iff.mp (List.forall₂_map_right_iff.mp hsame)

namespace View

/-- What is seen of a token. -/
def token : View → Token → Token
  | bare, t => { t with span := .point .origin, offset := 0, size := 0, width := 0 }
  | lined, t =>
    if t.kind.isOpenEnded then
      ⟨t.kind, .none, ⟨t.span.start, ⟨t.span.stop.line, 0⟩⟩, 0, 0, 0⟩
    else { t with offset := 0, size := 0 }
  | _, t => t

/-- What is seen of the span of a node. -/
def span : View → Span → Span
  | whole, s => s
  | lined, s => ⟨.origin, ⟨s.stop.line, 0⟩⟩
  | _, _ => .point .origin

/-- What is seen of the comments that belong to a node. -/
def comments : View → List Token → List Token
  | whole, ts => ts
  | lined, ts => ts.map lined.token
  | _, _ => []

/-- Comments are seen. -/
def showsComments : View → Bool
  | whole | lined => true
  | placed | bare => false

/-- What is seen of the reason of an error; it may quote a token. -/
def reason : View → Option Reason → Option Reason
  | lined, _ => none
  | _, r => r

/-- Comments among the children of a node are left out. -/
def leavesOut : View → Form → Bool
  | whole, _ => false
  | lined, _ => false
  | _, .block _ => true
  | _, _ => false

/-- What is seen of a node besides its children. -/
def data (v : View) (d : NodeData) : NodeData :=
  ⟨d.form, v.token d.token, v.span d.span, d.marks.map v.token, v.comments d.leading,
    v.comments d.trailing⟩

/-- What is seen of a token that does not reach to the end of a line. -/
theorem lined_token {t : Token} (h : t.kind.isOpenEnded = false) :
    lined.token t = { t with offset := 0, size := 0 } :=
  if_neg (Bool.eq_false_iff.mp h)

/-- What is seen of a token that may. -/
theorem lined_token_of_isOpenEnded {t : Token} (h : t.kind.isOpenEnded) :
    lined.token t = ⟨t.kind, .none, ⟨t.span.start, ⟨t.span.stop.line, 0⟩⟩, 0, 0, 0⟩ := if_pos h

@[simp] theorem kind_token (v : View) (t : Token) : (v.token t).kind = t.kind := by
  cases v
  case lined => cases h : t.kind.isOpenEnded <;> simp [lined_token, lined_token_of_isOpenEnded, h]
  all_goals rfl

theorem value_token (v : View) {t : Token} (h : t.kind.isOpenEnded = false) :
    (v.token t).value = t.value := by
  cases v
  case lined => rw [lined_token h]
  all_goals rfl

/-- Where a token starts and the line on which it stops are seen on the lines. -/
theorem lined_places (t : Token) :
    (lined.token t).span.start = t.span.start ∧ (lined.token t).span.stop.line = t.span.stop.line := by
  cases h : t.kind.isOpenEnded <;> simp [lined_token, lined_token_of_isOpenEnded, h]

/-- Where comments are not seen, none are told apart. -/
theorem comments_eq (v : View) (h : ¬ v.showsComments) (ts us : List Token) :
    v.comments ts = v.comments us := by
  cases v <;> first | rfl | exact absurd rfl h

theorem comments_append (v : View) (ts us : List Token) :
    v.comments (ts ++ us) = v.comments ts ++ v.comments us := by
  cases v
  case lined => exact List.map_append
  all_goals rfl

/-- Of comments that look alike as many look alike as are left of others. -/
theorem comments_take (v : View) {ts ts' us us' : List Token} (hts : v.comments ts = v.comments ts')
    (hus : v.comments us = v.comments us') :
    v.comments (ts.take us.length) = v.comments (ts'.take us'.length) := by
  cases v
  case whole =>
    obtain rfl : ts = ts' := hts
    obtain rfl : us = us' := hus
    rfl
  case lined =>
    have hlength : us.length = us'.length := by
      rw [← List.length_map lined.token, show us.map lined.token = us'.map lined.token from hus,
        List.length_map]
    show (ts.take _).map lined.token = (ts'.take _).map lined.token
    rw [List.map_take, List.map_take, show ts.map lined.token = ts'.map lined.token from hts, hlength]
  all_goals rfl

end View

namespace Node

/-- The node is a comment that stands alone. -/
def isComment (n : Node) : Bool := n.form == .comment

mutual

/-- What is seen of a tree. -/
def seen (v : View) : Node → Node
  | mk data children => mk (v.data data) (seenAll v (v.leavesOut data.form) children)

/-- What is seen of several trees, of all of them or of those that are no comments. -/
def seenAll (v : View) (leavesOut : Bool) : List Node → List Node
  | [] => []
  | n :: ns =>
    if leavesOut && n.isComment then seenAll v leavesOut ns
    else seen v n :: seenAll v leavesOut ns

end

variable {v : View} {n n' : Node} {ns ns' : List Node}

/-! ### Trees that look alike -/

theorem seenAll_false (v : View) (ns : List Node) : seenAll v false ns = ns.map (seen v) := by
  induction ns with
  | nil => rfl
  | cons n ns ih =>
    rw [seenAll, Bool.false_and, if_neg Bool.false_ne_true, ih, List.map_cons]

theorem seenAll_append (v : View) (b : Bool) (ns ms : List Node) :
    seenAll v b (ns ++ ms) = seenAll v b ns ++ seenAll v b ms := by
  induction ns with
  | nil => rfl
  | cons n ns ih =>
    rw [List.cons_append, seenAll, seenAll]
    split
    · exact ih
    · rw [ih, List.cons_append]

@[simp] theorem data_seen (v : View) (n : Node) : (n.seen v).data = v.data n.data := by
  obtain ⟨data, children⟩ := n
  rfl

@[simp] theorem form_seen (v : View) (n : Node) : (n.seen v).form = n.form := by
  rw [form, data_seen]
  rfl

/-- Trees that look alike have the same form. -/
theorem form_eq (h : n.seen v = n'.seen v) : n.form = n'.form := by
  rw [← form_seen v, h, form_seen]

theorem token_eq (h : n.seen v = n'.seen v) : v.token n.token = v.token n'.token := by
  have hdata := congrArg (fun n => n.data.token) h
  rwa [data_seen, data_seen] at hdata

theorem span_eq (h : n.seen v = n'.seen v) : v.span n.span = v.span n'.span := by
  have hdata := congrArg (fun n => n.data.span) h
  rwa [data_seen, data_seen] at hdata

/-- Trees that look alike one by one also do so when comments are left out. -/
theorem seenAll_eq (h : List.Forall₂ (fun n n' => n.seen v = n'.seen v) ns ns') (b : Bool) :
    seenAll v b ns = seenAll v b ns' := by
  induction h with
  | nil => rfl
  | cons hn hns ih =>
    rw [seenAll, seenAll, isComment, isComment, form_eq hn, ih, hn]

/-- Outside of blocks the children of trees that look alike do so one by one. -/
theorem children_eq (h : n.seen v = n'.seen v) (hform : v.leavesOut n.form = false) :
    List.Forall₂ (fun n n' => n.seen v = n'.seen v) n.children n'.children := by
  have hform' : v.leavesOut n'.form = false := form_eq h ▸ hform
  obtain ⟨data, children⟩ := n
  obtain ⟨data', children'⟩ := n'
  have hchildren : seenAll v (v.leavesOut data.form) children =
      seenAll v (v.leavesOut data'.form) children' := congrArg Node.children h
  change v.leavesOut data.form = false at hform
  change v.leavesOut data'.form = false at hform'
  rw [hform, hform', seenAll_false, seenAll_false] at hchildren
  exact forall₂_of_map_eq hchildren

@[simp] theorem data_whole (d : NodeData) : View.whole.data d = d := by
  have hmarks : d.marks.map (View.token .whole) = d.marks := List.map_id'' (fun _ => rfl) _
  rw [View.data, hmarks]
  rfl

mutual

/-- In the whole view everything is seen. -/
theorem seen_whole : (n : Node) → n.seen .whole = n
  | mk data children => by
    rw [seen, View.leavesOut, seenAll_whole children, data_whole]

theorem seenAll_whole : (ns : List Node) → seenAll .whole false ns = ns
  | [] => rfl
  | n :: ns => by
    rw [seenAll, Bool.false_and, if_neg Bool.false_ne_true, seen_whole n, seenAll_whole ns]

end

/-! ### What is worked out from a tree -/

/-- Nodes from which the same is worked out. -/
structure SameValue (table : SymbolTable) (n n' : Node) : Prop where
  form : n.form = n'.form
  symbol : n.boundSymbol? = n'.boundSymbol?
  type : n.valueType table = n'.valueType table

theorem boundSymbol?_congr {data data' : NodeData} {children children' : List Node}
    (hform : data.form = data'.form)
    (h : List.Forall₂ (fun n n' => n.boundSymbol? = n'.boundSymbol?) children children') :
    (mk data children).boundSymbol? = (mk data' children').boundSymbol? := by
  have hlast : lastSymbol? children = lastSymbol? children' := by
    clear hform
    induction h with
    | nil => rfl
    | cons hn hns ih =>
      cases hns with
      | nil => exact hn
      | cons => exact ih
  rw [boundSymbol?, boundSymbol?, hform, hlast]

theorem valueType_congr {table : SymbolTable} {data data' : NodeData}
    {children children' : List Node} (hform : data.form = data'.form)
    (hkind : data.token.kind = data'.token.kind)
    (h : List.Forall₂ (SameValue table) children children') :
    (mk data children).valueType table = (mk data' children').valueType table := by
  have hsymbol : (mk data children).boundSymbol? = (mk data' children').boundSymbol? :=
    boundSymbol?_congr hform (h.imp fun _ _ hn => hn.symbol)
  have hself :=
    congrArg (fun symbol => ((symbol.bind table.symbol?).map (·.type)).getD .unknown) hsymbol
  obtain ⟨form, ⟨kind, _, _, _, _, _⟩, _, _, _, _⟩ := data
  obtain ⟨form', ⟨kind', _, _, _, _, _⟩, _, _, _, _⟩ := data'
  obtain rfl : form = form' := hform
  obtain rfl : kind = kind' := hkind
  -- on the form, which tells how many of the children are looked at
  cases form
  case ident | dotted => exact hself
  case binary =>
    rcases h with _ | ⟨hn, _ | ⟨hm, _ | _⟩⟩
    case cons.cons.nil =>
      have hpromote := congrArg₂ SymbolType.promote hn.type hm.type
      cases kind with
      | operator o => cases o <;> first | rfl | exact hpromote
      | _ => exact hpromote
    all_goals rfl
  case invert =>
    rcases h with _ | ⟨hn, _ | _⟩
    case cons.nil =>
      cases kind with
      | operator o => cases o <;> first | rfl | exact hn.type
      | _ => exact hn.type
    all_goals rfl
  case stepBefore | stepAfter =>
    rcases h with _ | ⟨hn, _ | _⟩
    case cons.nil => exact hn.type
    all_goals rfl
  case deref =>
    rcases h with _ | ⟨hn, _ | _⟩
    case cons.nil => exact congrArg (·.without .pointer) hn.type
    all_goals rfl
  case call =>
    rcases h with _ | ⟨hn, _⟩
    · rfl
    · exact congrArg (fun symbol => ((symbol.bind table.symbol?).map callType).getD .unknown) hn.symbol
  case index =>
    rcases h with _ | ⟨hn, _⟩
    · rfl
    · exact congrArg (fun type => if type = SymbolType.string then SymbolType.char else .unknown)
        hn.type
  case slice =>
    rcases h with _ | ⟨hn, _⟩
    · rfl
    · exact hn.type
  case new =>
    rcases h with _ | @⟨⟨⟨type, _, _, _, _, _⟩, _⟩, ⟨⟨type', _, _, _, _, _⟩, _⟩, _, _, hn, _⟩
    · rfl
    · obtain rfl : type = type' := hn.form
      cases type <;> rfl
  case assignment =>
    rcases h with _ | ⟨_, _ | ⟨hm, _ | _⟩⟩
    case cons.cons.nil => exact hm.type
    all_goals rfl
  all_goals rfl

/-- A block denotes nothing. -/
theorem value_block (table : SymbolTable) (data : NodeData) {closed : Bool}
    (hform : data.form = .block closed) (children : List Node) :
    (mk data children).boundSymbol? = none ∧ (mk data children).valueType table = .unknown := by
  obtain ⟨form, _, _, _, _, _⟩ := data
  obtain rfl : form = .block closed := hform
  exact ⟨rfl, rfl⟩

mutual

theorem sameValue_seen (v : View) (table : SymbolTable) :
    (n : Node) → SameValue table (n.seen v) n
  | mk data children => by
    cases hform : v.leavesOut data.form
    · have hchildren : List.Forall₂ (SameValue table)
          (seenAll v (v.leavesOut data.form) children) children := by
        rw [hform, seenAll_false]
        exact all_sameValue_seen v table children
      refine ⟨rfl, ?_, ?_⟩
      · rw [seen]
        exact boundSymbol?_congr rfl (hchildren.imp fun _ _ hn => hn.symbol)
      · rw [seen]
        exact valueType_congr rfl (View.kind_token v _) hchildren
    · cases hblock : data.form
      case block closed =>
        obtain ⟨hsymbol, htype⟩ := value_block table data hblock children
        obtain ⟨hsymbol', htype'⟩ := value_block table (v.data data) hblock
          (seenAll v (v.leavesOut data.form) children)
        refine ⟨rfl, ?_, ?_⟩
        · rw [seen, hsymbol, hsymbol']
        · rw [seen, htype, htype']
      all_goals
        rw [hblock] at hform
        cases v <;> cases hform

theorem all_sameValue_seen (v : View) (table : SymbolTable) :
    (ns : List Node) → List.Forall₂ (SameValue table) (ns.map (seen v)) ns
  | [] => .nil
  | n :: ns => .cons (sameValue_seen v table n) (all_sameValue_seen v table ns)

end

end Node

end SableFront
