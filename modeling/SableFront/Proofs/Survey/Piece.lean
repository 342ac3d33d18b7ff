import SableFront.Grammar.Statement
import SableFront.Proofs.Contract
import SableFront.Proofs.Symbols.Consistent

/-!
# Surveys: pieces

What reading has in hand are *pieces*, in the order of the text: tokens that it has passed and nodes
that it has made. A token is in hand for a *use*, which its kind must admit: to become a name, to be
shown, or only to stand where it does. Scopes, symbols and errors that are kept in mind are pieces,
too. They have no place in the text.
-/

namespace SableFront

open Grammar

/-! ### Uses -/

/-- The kind of a name: an identifier, or a keyword that names a type. -/
def Kind.isWord : Kind → Bool
  | .ident => true
  | .keyword k => k.isTypeName
  | _ => false

/-- What a token is in hand for. -/
inductive Use
  /-- It becomes a name. -/
  | name
  /-- It is shown by its kind: as an anchor, or as a mark. -/
  | shown
  /-- It is a comment. -/
  | comment
  /-- It stands where it does. -/
  | plain
  /-- It opens or closes a list of generics. -/
  | angle
  /-- It stands before the default of a parameter. -/
  | equals
  deriving DecidableEq

/-- The kinds of tokens that are in hand for a use. -/
def Use.admits : Use → Kind → Bool
  | name, k => k.isWord
  | shown, k => !k.isWord
  | comment, k => k.isComment
  | plain, .punctuation _ | plain, .invalid => true
  | plain, _ => false
  | angle, k => k == .operator .lt || k == .operator .gt
  | equals, k => k == .operator .eq

/-- The kinds of tokens that are taken in hand for a use. Invalid text is passed over, and never
shown. -/
def Use.takes : Use → Kind → Bool
  | shown, .invalid => false
  | use, k => use.admits k

/-- The kinds of tokens that are taken in hand for a use within an expression: neither invalid text
nor a semicolon. -/
def Use.allows : Use → Kind → Bool
  | _, .invalid | _, .punctuation .semicolon => false
  | use, k => use.admits k

theorem Use.admits_of_takes {use : Use} {k : Kind} (h : use.takes k) : use.admits k := by
  unfold takes at h
  split at h
  · cases h
  · exact h

theorem Use.takes_of_allows {use : Use} {k : Kind} (h : use.allows k) : use.takes k := by
  unfold allows at h
  split at h
  · cases h
  · cases h
  · rename_i hinvalid _
    unfold takes
    split
    · exact absurd rfl hinvalid
    · exact h

/-- A token of any kind is there for something. -/
theorem Use.exists_takes (k : Kind) : ∃ use : Use, use.takes k := by
  cases k
  case ident => exact ⟨.name, rfl⟩
  case invalid => exact ⟨.plain, rfl⟩
  case keyword k =>
    cases hk : k.isTypeName with
    | true => exact ⟨.name, hk⟩
    | false => exact ⟨.shown, congrArg Bool.not hk⟩
  all_goals exact ⟨.shown, rfl⟩

/-- What the anchor of a node is in hand for; the other forms are anchored where one of the pieces
is. -/
def Form.use? : Form → Option Use
  | .ident _ => some .name
  | .dotted | .call _ | .index | .slice .. | .typeRef .. | .identDef _ | .conditional | .params
  | .block _ | .importItem _ | .list | .dict | .returnType | .invalid => none
  | .comment => some .comment
  | _ => some .shown

/-- Tokens for this use are left out of a node, but for its span. -/
def Form.leavesOut (form : Form) (use : Use) : Bool :=
  match use, form with
  | .plain, _ => true
  | .angle, .typeRef .. | .angle, .call _ | .angle, .template => true
  | .equals, .identDef default => default
  | _, _ => false

@[simp] theorem Form.leavesOut_plain (form : Form) : form.leavesOut .plain = true := rfl

/-- A node of this form stands for what it should, whatever it is made from. -/
def Form.isSound : Form → Bool
  | .invalid | .comment | .block false | .assignment => false
  | _ => true

/-- The error is about a node with this form and anchor. -/
def SyntaxError.IsAbout (e : SyntaxError) (form : Form) (anchor : Token) : Prop :=
  match form with
  | .invalid => e.kind = .invalidTokenSequence ∧ e.token = anchor ∧ anchor.kind = .invalid
  | .block false => e.kind = .missingBlock ∧ e.reason = some .unclosedBrace
  | .assignment => e.kind = .invalidAssignment ∧ e.token = anchor
  | _ => False

/-- Only tokens that stand where they do are left out of a node. -/
def Form.isWhole (form : Form) : Bool := !form.leavesOut .angle && !form.leavesOut .equals

/-! ### Pieces -/

/-- What reading has in hand. -/
inductive Piece
  | token (use : Use) (t : Token)
  | node (n : Node)
  | scope (id : ScopeId)
  | symbol (id : SymbolId)
  /-- An error that a node to be made is about. -/
  | error (e : SyntaxError)
  /-- The errors that had been kept at some time. -/
  | faults (es : List SyntaxError)

namespace Piece

@[simp] def node? : Piece → Option Node
  | node n => some n
  | _ => none

/-- A token itself, and the anchor of a node. -/
@[simp] def anchor? : Piece → Option Token
  | token _ t => some t
  | node n => some n.token
  | _ => none

/-- The piece is kept in mind only. -/
@[simp] def isMental : Piece → Bool
  | scope _ | symbol _ | error _ | faults _ => true
  | _ => false

/-- The piece may be put away. -/
def isIdle : Piece → Bool
  | token .plain _ => true
  | p => p.isMental

@[simp] theorem isIdle_plain (t : Token) : (token .plain t).isIdle = true := rfl

@[simp] theorem isIdle_scope (id : ScopeId) : (scope id).isIdle = true := rfl

@[simp] theorem isIdle_symbol (id : SymbolId) : (symbol id).isIdle = true := rfl

@[simp] theorem isIdle_error (e : SyntaxError) : (error e).isIdle = true := rfl

@[simp] theorem isIdle_faults (es : List SyntaxError) : (faults es).isIdle = true := rfl

/-- What is kept in mind is there: scopes and symbols in the table, and the errors of some time before
all others. -/
def InState (s : State) : Piece → Prop
  | scope id => id < s.symbols.scopes.size
  | symbol id => id < s.symbols.size
  | faults es => es <+: s.errors
  | _ => True

/-- A comment as a node in hand. -/
def comment (t : Token) : Piece := node (.ofComment t)

theorem map_node_ofComment (ts : List Token) :
    (ts.map Node.ofComment).map node = ts.map comment := by
  rw [List.map_map]
  rfl

theorem node?_of_isMental {p : Piece} (h : p.isMental) : p.node? = none := by
  cases p
  case scope | symbol | error | faults => rfl
  all_goals cases h

/-- The nodes among pieces. -/
def nodes (ps : List Piece) : List Node := ps.filterMap node?

/-- What becomes of a piece in a node with this form, anchor and marks: a token is left out, or it is
the anchor or a mark. -/
def IsUsed (form : Form) (anchor : Token) (marks : List Token) : Piece → Prop
  | token use t =>
    form.leavesOut use ∨ form.use? = some use ∧ t = anchor ∨ use = .shown ∧ t ∈ marks
  | _ => True

@[simp] theorem isUsed_token {form : Form} {anchor : Token} {marks : List Token} {use : Use}
    {t : Token} : (token use t).IsUsed form anchor marks ↔
      form.leavesOut use ∨ form.use? = some use ∧ t = anchor ∨ use = .shown ∧ t ∈ marks := .rfl

@[simp] theorem isUsed_node {form : Form} {anchor : Token} {marks : List Token} {n : Node} :
    (node n).IsUsed form anchor marks := trivial

@[simp] theorem isUsed_error {form : Form} {anchor : Token} {marks : List Token} {e : SyntaxError} :
    (error e).IsUsed form anchor marks := trivial

/-- All pieces find a place in a node with this form, anchor and marks. -/
def AllUsed (form : Form) (anchor : Token) (marks : List Token) (ps : List Piece) : Prop :=
  ∀ p ∈ ps, p.IsUsed form anchor marks

section AllUsed

variable {form : Form} {anchor : Token} {marks : List Token} {p : Piece} {ps qs : List Piece}

@[simp] theorem allUsed_nil : AllUsed form anchor marks [] := List.forall_mem_nil _

@[simp] theorem allUsed_cons :
    AllUsed form anchor marks (p :: ps) ↔ p.IsUsed form anchor marks ∧ AllUsed form anchor marks ps :=
  List.forall_mem_cons

@[simp] theorem allUsed_append : AllUsed form anchor marks (ps ++ qs) ↔
    AllUsed form anchor marks ps ∧ AllUsed form anchor marks qs := List.forall_mem_append

@[simp] theorem allUsed_map_node (ns : List Node) : AllUsed form anchor marks (ns.map node) := by
  intro p hp
  obtain ⟨n, -, rfl⟩ := List.mem_map.mp hp
  trivial

@[simp] theorem allUsed_map_symbol (ids : List SymbolId) :
    AllUsed form anchor marks (ids.map symbol) := by
  intro p hp
  obtain ⟨id, -, rfl⟩ := List.mem_map.mp hp
  trivial

@[simp] theorem allUsed_map_token {use : Use} {ts : List Token} :
    AllUsed form anchor marks (ts.map (token use)) ↔
      ∀ t ∈ ts, (token use t).IsUsed form anchor marks := List.forall_mem_map

end AllUsed

/-- The tokens among pieces, and the anchors of the nodes. -/
def anchors (ps : List Piece) : List Token := ps.filterMap anchor?

variable {ps qs : List Piece} {p : Piece} {use : Use} {t : Token} {n : Node}

@[simp] theorem mem_nodes : n ∈ nodes ps ↔ node n ∈ ps := by
  unfold nodes
  rw [List.mem_filterMap]
  constructor
  · rintro ⟨p, hp, hn⟩
    cases p <;> cases hn
    exact hp
  · exact fun hn => ⟨node n, hn, rfl⟩

@[simp] theorem mem_anchors : t ∈ anchors ps ↔
    (∃ use, token use t ∈ ps) ∨ ∃ n, node n ∈ ps ∧ n.token = t := by
  unfold anchors
  rw [List.mem_filterMap]
  constructor
  · rintro ⟨p, hp, ht⟩
    cases p <;> cases ht
    · exact .inl ⟨_, hp⟩
    · exact .inr ⟨_, hp, rfl⟩
  · rintro (⟨use, ht⟩ | ⟨n, hn, rfl⟩)
    · exact ⟨token use t, ht, rfl⟩
    · exact ⟨node n, hn, rfl⟩

theorem mem_anchors_of_token (h : token use t ∈ ps) : t ∈ anchors ps :=
  mem_anchors.mpr (.inl ⟨use, h⟩)

theorem mem_anchors_of_node (h : node n ∈ ps) : n.token ∈ anchors ps :=
  mem_anchors.mpr (.inr ⟨n, h, rfl⟩)

@[simp] theorem nodes_nil : nodes [] = [] := rfl

@[simp] theorem nodes_append : nodes (ps ++ qs) = nodes ps ++ nodes qs := List.filterMap_append

@[simp] theorem nodes_cons_node : nodes (node n :: ps) = n :: nodes ps := rfl

@[simp] theorem nodes_cons_token : nodes (token use t :: ps) = nodes ps := rfl

@[simp] theorem nodes_cons_symbol (id : SymbolId) : nodes (symbol id :: ps) = nodes ps := rfl

@[simp] theorem nodes_cons_error (e : SyntaxError) : nodes (error e :: ps) = nodes ps := rfl

@[simp] theorem nodes_map_node (ns : List Node) : nodes (ns.map node) = ns := by
  induction ns with
  | nil => rfl
  | cons n ns ih => rw [List.map_cons, nodes_cons_node, ih]

@[simp] theorem nodes_map_token (ts : List Token) : nodes (ts.map (token use)) = [] := by
  induction ts with
  | nil => rfl
  | cons t ts ih => rw [List.map_cons, nodes_cons_token, ih]

@[simp] theorem nodes_map_symbol (ids : List SymbolId) : nodes (ids.map symbol) = [] := by
  induction ids with
  | nil => rfl
  | cons id ids ih => rw [List.map_cons, nodes_cons_symbol, ih]

/-- The stretch of text that a piece covers. -/
@[simp] def span? : Piece → Option Span
  | token _ t => some t.span
  | node n => some n.span
  | _ => none

/-- The stretches of text that pieces cover. -/
def spans (ps : List Piece) : List Span := ps.filterMap span?

theorem mem_spans {s : Span} : s ∈ spans ps ↔ ∃ p ∈ ps, p.span? = some s := List.mem_filterMap

theorem mem_spans_of_token (h : token use t ∈ ps) : t.span ∈ spans ps := mem_spans.mpr ⟨_, h, rfl⟩

theorem mem_spans_of_node (h : node n ∈ ps) : n.span ∈ spans ps := mem_spans.mpr ⟨_, h, rfl⟩

@[simp] theorem spans_append : spans (ps ++ qs) = spans ps ++ spans qs := List.filterMap_append

@[simp] theorem spans_cons_node : spans (node n :: ps) = n.span :: spans ps := rfl

@[simp] theorem spans_cons_token : spans (token use t :: ps) = t.span :: spans ps := rfl

@[simp] theorem spans_cons_error (e : SyntaxError) : spans (error e :: ps) = spans ps := rfl

@[simp] theorem spans_nil : spans [] = [] := rfl

theorem spans_cons_of_isMental {p : Piece} (hp : p.isMental) : spans (p :: ps) = spans ps := by
  cases p
  case scope | symbol | error | faults => rfl
  all_goals cases hp

@[simp] theorem spans_map_node (ns : List Node) : spans (ns.map node) = ns.map Node.span := by
  induction ns with
  | nil => rfl
  | cons n ns ih => rw [List.map_cons, spans_cons_node, ih, List.map_cons]

@[simp] theorem spans_map_token (ts : List Token) :
    spans (ts.map (token use)) = ts.map Token.span := by
  induction ts with
  | nil => rfl
  | cons t ts ih => rw [List.map_cons, spans_cons_token, ih, List.map_cons]

theorem map_span_nodes_sublist (ps : List Piece) : ((nodes ps).map Node.span).Sublist (spans ps) := by
  induction ps with
  | nil => exact List.Sublist.slnil
  | cons p ps ih =>
    cases p with
    | token _ t => exact ih.cons _
    | node n => exact ih.cons_cons _
    | scope | symbol | error | faults => exact ih

/-- Idle pieces may be put away among others. -/
inductive Tidies : List Piece → List Piece → Prop
  | nil : Tidies [] []
  | keep {ps qs : List Piece} (p : Piece) (h : Tidies ps qs) : Tidies (p :: ps) (p :: qs)
  | drop {ps qs : List Piece} {p : Piece} (hp : p.isIdle) (h : Tidies ps qs) : Tidies (p :: ps) qs

namespace Tidies

variable {ps' qs' : List Piece}

theorem refl : ∀ ps : List Piece, Tidies ps ps
  | [] => .nil
  | p :: ps => .keep p (refl ps)

theorem append (h : Tidies ps qs) (h' : Tidies ps' qs') : Tidies (ps ++ ps') (qs ++ qs') := by
  induction h with
  | nil => exact h'
  | keep p _ ih => exact .keep p ih
  | drop hp _ ih => exact .drop hp ih

/-- All of them may be put away if they are idle. -/
theorem of_idle (h : ∀ p ∈ ps, p.isIdle) : Tidies ps [] := by
  induction ps with
  | nil => exact .nil
  | cons p ps ih => exact .drop (h p List.mem_cons_self) (ih fun q hq => h q (List.mem_cons_of_mem _ hq))

theorem left (h : ∀ p ∈ qs, p.isIdle) : Tidies (ps ++ qs) ps := by
  have hall := (refl ps).append (of_idle h)
  rwa [List.append_nil] at hall

theorem right (h : ∀ p ∈ ps, p.isIdle) : Tidies (ps ++ qs) qs := (of_idle h).append (refl qs)

theorem sublist (h : Tidies ps qs) : qs.Sublist ps := by
  induction h with
  | nil => exact .slnil
  | keep p _ ih => exact ih.cons_cons p
  | drop _ _ ih => exact ih.cons _

theorem mem_or_isIdle (h : Tidies ps qs) (hp : p ∈ ps) : p ∈ qs ∨ p.isIdle := by
  induction h with
  | nil => cases hp
  | keep q _ ih =>
    rcases List.mem_cons.mp hp with rfl | hp
    · exact .inl List.mem_cons_self
    · exact (ih hp).imp_left (List.mem_cons_of_mem q)
  | drop hq _ ih =>
    rcases List.mem_cons.mp hp with rfl | hp
    · exact .inr hq
    · exact ih hp

/-- No node is put away. -/
theorem nodes_eq (h : Tidies ps qs) : nodes qs = nodes ps := by
  induction h with
  | nil => rfl
  | keep p _ ih =>
    cases p with
    | node n => exact congrArg (n :: ·) ih
    | token | scope | symbol | error | faults => exact ih
  | @drop _ _ q hq _ ih =>
    cases q with
    | node n => cases hq
    | token | scope | symbol | error | faults => exact ih

end Tidies

end Piece

end SableFront
