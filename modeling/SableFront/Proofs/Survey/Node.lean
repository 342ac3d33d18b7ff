import SableFront.Proofs.Survey.Piece

/-!
# Surveys: how nodes are made

`Node.Makes` lists all ways in which the grammar makes one node from some pieces side by side, and so
all that has to be looked at to say something about every node of a program; among it that no token is
left out that is to be shown, and what the span of the node is merged from. A node that does not stand
for what it should is made only where the error about it is kept in mind.
-/

namespace SableFront

open Grammar

/-! ### Names -/

namespace SymbolTable.Consistent

variable {table : SymbolTable} {scope : ScopeId} {name : String} {id : SymbolId}

/-- What a scope binds a name to is in the table under that name. -/
theorem name_of_findIn (h : table.Consistent) (hfind : table.findIn scope name = some id) :
    ∃ s, table.symbol? id = some s ∧ s.name = name := by
  obtain ⟨s, hs, hname, -⟩ := (h.bound scope name id).mp hfind
  exact ⟨s, hs, hname⟩

/-- What a name means in a scope is in the table under that name. -/
theorem name_of_findFrom (h : table.Consistent) (hfind : table.findFrom scope name = some id) :
    ∃ s, table.symbol? id = some s ∧ s.name = name := by
  -- on the scope, whose parent is older
  induction scope using Nat.strongRecOn with
  | ind scope ih =>
    rw [h.findFrom_eq] at hfind
    obtain ⟨s, hs, hfound⟩ := Option.bind_eq_some_iff.mp hfind
    cases hget : s.get? name with
    | some found =>
      rw [hget, Option.some_or] at hfound
      refine h.name_of_findIn (Option.bind_eq_some_iff.mpr ⟨s, hs, ?_⟩)
      rw [hget, hfound]
    | none =>
      rw [hget, Option.none_or] at hfound
      obtain ⟨parent, hparent, hup⟩ := Option.bind_eq_some_iff.mp hfound
      refine ih parent ?_ hup
      by_cases hroot : scope = global
      · obtain ⟨root, hglobal, hnone⟩ := h.root
        subst hroot
        cases hs.symm.trans hglobal
        cases hparent.symm.trans hnone
      · obtain ⟨older, hlt, hsome⟩ := h.parent scope s hs hroot
        cases hparent.symm.trans hsome
        exact hlt

end SymbolTable.Consistent

/-- The symbol of a name is in the table under that name, and a name that is introduced has one. -/
structure Ident.Coherent (table : SymbolTable) (i : Ident) : Prop where
  symbol : ∀ id ∈ i.symbol, ∃ s, table.symbol? id = some s ∧ s.name = i.name
  declared : i.declaration → i.symbol.isSome

namespace Ident.Coherent

variable {table : SymbolTable} {i j : Ident}

/-- The type and the role of a name do not matter. -/
theorem congr (h : i.Coherent table) (hname : j.name = i.name) (hsymbol : j.symbol = i.symbol)
    (hdeclaration : j.declaration = i.declaration) : j.Coherent table := by
  constructor
  · rw [hsymbol, hname]
    exact h.symbol
  · rw [hsymbol, hdeclaration]
    exact h.declared

end Ident.Coherent

/-- A form that a node is made with: names are bound only afterwards. -/
def Form.isFresh : Form → Bool
  | .ident i => i.symbol.isNone && !i.declaration
  | _ => true

/-- Nodes of this form have no children. -/
def Form.isLeaf : Form → Bool
  | .ident _ | .int _ | .float .. | .str _ | .char _ | .bool _ | .null | .storage | .visibility
  | .comment | .invalid => true
  | _ => false

theorem Form.isWhole_of_isLeaf {form : Form} (h : form.isLeaf) : form.isWhole := by
  cases form <;> first | rfl | cases h

/-- The number of children of a form that tells it and has no place for others. -/
def Form.places? : Form → Option Nat
  | .typeRef stored generics _ => some (stored.toNat + 1 + generics)
  | form => if form.isLeaf then some 0 else none

theorem Form.places?_of_isLeaf {form : Form} (h : form.isLeaf) : form.places? = some 0 := by
  cases form <;> first | rfl | cases h

/-- A form that a node is made with, of which only tokens are left out that stand where they do, and
that has places for any children. -/
def Form.isOpen (form : Form) : Bool := form.isFresh && form.isWhole && form.places?.isNone

/-- A name has no places for children. -/
theorem Form.ne_ident_of_isOpen {form : Form} (h : form.isOpen) (i : Ident) : form ≠ .ident i := by
  rintro rfl
  exact absurd (Bool.and_eq_true_iff.mp h).2 Bool.false_ne_true

/-- Such a form that is also sound. -/
def Form.isSimple (form : Form) : Bool := form.isOpen && form.isSound

namespace Node

variable {n : Node}

theorem ident?_modifyIdent (n : Node) (f : Ident → Ident) :
    (n.modifyIdent f).ident? = n.ident?.map f := by
  obtain ⟨⟨form, token, span, marks, leading, trailing⟩, children⟩ := n
  cases form <;> rfl

/-- No comments are attached to the node itself. -/
structure IsBare (n : Node) : Prop where
  leading : n.leading = []
  trailing : n.trailing = []

theorem isBare_build (form : Form) (t : Token) (cs : List Node) (marks : List Token)
    (further : List Span) : (build form t cs marks further).IsBare := ⟨rfl, rfl⟩

/-- Comments are attached to the node alone. -/
theorem IsBare.congr {m : Node} (h : n.IsBare) (hleading : m.leading = n.leading)
    (htrailing : m.trailing = n.trailing) : m.IsBare :=
  ⟨hleading.trans h.leading, htrailing.trans h.trailing⟩

/-- The node with comments before and after it. -/
def withComments (leading trailing : List Token) (n : Node) : Node :=
  n.modify fun d => { d with leading, trailing }

/-! ### Making nodes -/

/-- The pieces start with a node or with the anchor, and end with a node or with a token that the node
made from them covers. -/
structure Framed (ps : List Piece) (anchor : Token) (marks : List Token) (spans : List Span) :
    Prop where
  first : ∃ p rest, ps = p :: rest ∧ (p.node?.isSome ∨ p = .token .shown anchor)
  last : ∃ rest p, ps = rest ++ [p] ∧
    (p.node?.isSome ∨ ∃ use t, p = .token use t ∧ (t ∈ marks ∨ t.span ∈ spans))

/-- These spans reach around all nodes among the pieces, which stand in the order of the text: they are
those of all nodes, or among them are the first and the last of all spans. -/
inductive Around (ps : List Piece) (spans : List Span) : Prop
  | each (h : ∀ n, .node n ∈ ps → n.span ∈ spans)
  | ends (hfirst : ∀ s ∈ (Piece.spans ps).head?, s ∈ spans)
      (hlast : ∀ s ∈ (Piece.spans ps).getLast?, s ∈ spans)

/-- A node with this anchor and these marks can be built to cover the spans: they are spans of pieces,
and together with those of the anchor and of the marks they reach around all nodes among them. -/
structure Spanned (ps : List Piece) (anchor : Token) (marks : List Token) (spans : List Span) :
    Prop where
  inside : ∀ s ∈ spans, s ∈ Piece.spans ps
  around : Around ps (anchor.span :: (spans ++ marks.map Token.span))

/-- A node with this form and anchor stands for what it should, or the error about it is kept in mind. -/
inductive Sound (ps : List Piece) (form : Form) (anchor : Token) : Prop
  | proper (h : form.isSound)
  | target (hform : form = .assignment) (h : ∀ n ∈ (Piece.nodes ps).head?, isAssignable n.form)
  | faulty {e : SyntaxError} (he : .error e ∈ ps) (h : e.IsAbout form anchor)

/-- The pieces can be put together to a node with this form, anchor and marks. The anchor is a token
among them that is there to be one, or it is where one of the pieces is; and each token among them is
the anchor or a mark, or the form leaves it out. If it leaves out tokens that are there for more than
to stand where they do, these are between others. A name is spelled as its anchor says, there are as
many nodes as the form tells, and what is wrong with the node has been kept in mind. -/
structure Assembled (ps : List Piece) (form : Form) (anchor : Token) (marks : List Token)
    (spans : List Span) : Prop where
  fresh : form.isFresh
  mem : anchor ∈ Piece.anchors ps
  token : ∀ use ∈ form.use?, .token use anchor ∈ ps
  shown : ∀ t ∈ marks, .token .shown t ∈ ps
  used : Piece.AllUsed form anchor marks ps
  framed : form.isWhole ∨ Framed ps anchor marks spans
  named : ∀ i, form = .ident i → i.name = anchor.name?.getD ""
  filled : ∀ k ∈ form.places?, (Piece.nodes ps).length = k
  sound : Sound ps form anchor

/-- The pieces, side by side in the text, make the node; the table tells what names may be bound
to. -/
inductive Makes (table : SymbolTable) : List Piece → Node → Prop
  /-- A node is built from all nodes among the pieces. -/
  | build {ps : List Piece} {form : Form} {anchor : Token} {marks : List Token} {spans : List Span}
      (hps : Assembled ps form anchor marks spans) (hspans : Spanned ps anchor marks spans) :
      Makes table ps (.build form anchor (Piece.nodes ps) marks spans)
  | literal {t : Token} (ht : t.kind.isLiteral) : Makes table [.token .shown t] (.ofLiteral t)
  /-- Parentheses belong to what they enclose. -/
  | enclosed (n : Node) (opening closing : Token) :
      Makes table [.token .plain opening, .node n, .token .plain closing]
        (n.cover (opening.span.merge closing.span))
  | marked (n : Node) (t : Token) : Makes table [.node n, .token .shown t] (n.mark t)
  /-- A visibility keyword may become a mark of the node behind it. -/
  | markedFirst (t : Token) (n : Node) :
      Makes table [.node (.leaf .visibility t), .node n] (n.markFirst t)
  /-- A node is given one more child behind the others. -/
  | extended (base part : Node) (hbase : base.form = .dotted) :
      Makes table [.node base, .node part]
        (.mk (base.cover part.span).data (base.children ++ [part]))
  /-- A name is bound. -/
  | bound {n : Node} {f : Ident → Ident}
      (hf : ∀ i, n.ident? = some i → i.Coherent table → (f i).Coherent table)
      (hname : ∀ i, (f i).name = i.name) :
      Makes table [.node n] (n.modifyIdent f)
  /-- Comments are attached to the node between them. -/
  | commented (leading trailing : List Token) (n : Node) (hbare : n.IsBare) :
      Makes table (leading.map .comment ++ .node n :: trailing.map .comment)
        (withComments leading trailing n)

namespace Assembled

variable {ps : List Piece} {form : Form} {anchor : Token} {marks : List Token} {spans : List Span}
  {use : Use}

theorem of_isOpen (hopen : form.isOpen) (hmem : anchor ∈ Piece.anchors ps)
    (htoken : ∀ use ∈ form.use?, .token use anchor ∈ ps) (hmarks : ∀ t ∈ marks, .token .shown t ∈ ps)
    (hused : Piece.AllUsed form anchor marks ps) (hsound : Sound ps form anchor) :
    Assembled ps form anchor marks spans := by
  obtain ⟨hplain, hplaces⟩ := Bool.and_eq_true_iff.mp hopen
  obtain ⟨hfresh, hwhole⟩ := Bool.and_eq_true_iff.mp hplain
  refine ⟨hfresh, hmem, htoken, hmarks, hused, .inl hwhole,
    fun i hi => absurd hi (Form.ne_ident_of_isOpen hopen i), fun k hk => ?_, hsound⟩
  rw [Option.isNone_iff_eq_none.mp hplaces] at hk
  cases hk

theorem of_isSimple (hsimple : form.isSimple) (hmem : anchor ∈ Piece.anchors ps)
    (htoken : ∀ use ∈ form.use?, .token use anchor ∈ ps) (hmarks : ∀ t ∈ marks, .token .shown t ∈ ps)
    (hused : Piece.AllUsed form anchor marks ps) : Assembled ps form anchor marks spans :=
  have hboth := Bool.and_eq_true_iff.mp hsimple
  .of_isOpen hboth.1 hmem htoken hmarks hused (.proper hboth.2)

/-- The anchor is a token that is there to be one. -/
theorem of_token (hsimple : form.isSimple) (huse : form.use? = some use)
    (hanchor : .token use anchor ∈ ps) (hmarks : ∀ t ∈ marks, .token .shown t ∈ ps)
    (hused : Piece.AllUsed form anchor marks ps) : Assembled ps form anchor marks spans := by
  refine .of_isSimple hsimple (Piece.mem_anchors_of_token hanchor) (fun other hother => ?_) hmarks
    hused
  rw [huse] at hother
  cases hother
  exact hanchor

/-- The anchor is where one of the pieces is. -/
theorem of_place (hsimple : form.isSimple) (huse : form.use? = none)
    (hanchor : anchor ∈ Piece.anchors ps) (hmarks : ∀ t ∈ marks, .token .shown t ∈ ps)
    (hused : Piece.AllUsed form anchor marks ps) : Assembled ps form anchor marks spans := by
  refine .of_isSimple hsimple hanchor (fun other hother => ?_) hmarks hused
  rw [huse] at hother
  cases hother

/-- Tokens make a leaf. -/
theorem of_isLeaf (hleaf : form.isLeaf) (hfresh : form.isFresh) (hmem : anchor ∈ Piece.anchors ps)
    (htoken : ∀ use ∈ form.use?, .token use anchor ∈ ps) (hused : Piece.AllUsed form anchor [] ps)
    (hname : ∀ i, form = .ident i → i.name = anchor.name?.getD "") (hnodes : Piece.nodes ps = [])
    (hsound : Sound ps form anchor) : Assembled ps form anchor [] spans := by
  refine ⟨hfresh, hmem, htoken, List.forall_mem_nil _, hused, .inl (Form.isWhole_of_isLeaf hleaf),
    hname, fun k hk => ?_, hsound⟩
  rw [Form.places?_of_isLeaf hleaf] at hk
  cases hk
  rw [hnodes]
  rfl

/-- One token alone is a leaf. -/
theorem leaf (hleaf : form.isLeaf) (hfresh : form.isFresh) (huse : form.use? = some use)
    (hname : ∀ i, form = .ident i → i.name = anchor.name?.getD "") (hsound : form.isSound) :
    Assembled [.token use anchor] form anchor [] spans := by
  refine .of_isLeaf hleaf hfresh (Piece.mem_anchors_of_token List.mem_cons_self)
    (fun other hother => ?_) (by simp [huse]) hname rfl (.proper hsound)
  rw [huse] at hother
  cases hother
  exact List.mem_cons_self

end Assembled

namespace Spanned

variable {ps : List Piece} {anchor : Token} {marks : List Token} {spans : List Span}

/-- The spans of all nodes may be covered, and others. -/
theorem each (hinside : ∀ s ∈ spans, s ∈ Piece.spans ps)
    (h : ∀ n, .node n ∈ ps → n.span ∈ spans) : Spanned ps anchor marks spans :=
  ⟨hinside, .each fun n hn => List.mem_cons_of_mem _ (List.mem_append_left _ (h n hn))⟩

/-- The spans of all nodes may be covered. -/
theorem children {ns : List Node} (hns : Piece.nodes ps = ns) :
    Spanned ps anchor marks (ns.map Node.span) := by
  rw [← hns]
  exact .each (fun _ hs => (Piece.map_span_nodes_sublist ps).subset hs)
    fun _ hn => List.mem_map_of_mem (Piece.mem_nodes.mpr hn)

/-- So may some spans, if the first and the last one of all are covered. -/
theorem ends (hinside : ∀ s ∈ spans, s ∈ Piece.spans ps)
    (hfirst : ∀ s ∈ (Piece.spans ps).head?, s ∈ anchor.span :: (spans ++ marks.map Token.span))
    (hlast : ∀ s ∈ (Piece.spans ps).getLast?, s ∈ anchor.span :: (spans ++ marks.map Token.span)) :
    Spanned ps anchor marks spans := ⟨hinside, .ends hfirst hlast⟩

end Spanned

/-- Pieces make a node that covers its anchor and its children. -/
theorem Makes.branch {table : SymbolTable} {ps : List Piece} {form : Form} {anchor : Token}
    (hps : Assembled ps form anchor [] ((Piece.nodes ps).map Node.span)) :
    Makes table ps (.branch form anchor (Piece.nodes ps)) :=
  .build hps (.children rfl)

/-! ### All nodes below a node that is made -/

theorem walkAll_append (ms ns : List Node) : walkAll (ms ++ ns) = walkAll ms ++ walkAll ns := by
  induction ms with
  | nil => rfl
  | cons m ms ih => rw [List.cons_append, walkAll, walkAll, ih, List.append_assoc]

theorem mem_walkAll_iff {m : Node} {ns : List Node} : m ∈ walkAll ns ↔ ∃ n ∈ ns, m ∈ n.walk := by
  induction ns with
  | nil => simp [walkAll]
  | cons n ns ih => simp [walkAll, ih]

theorem mem_walkAll {m : Node} {ns : List Node} (hn : n ∈ ns) (hm : m ∈ n.walk) : m ∈ walkAll ns :=
  mem_walkAll_iff.mpr ⟨n, hn, hm⟩

theorem mem_walk_self (n : Node) : n ∈ n.walk := by
  cases n
  rw [walk]
  exact List.mem_cons_self

mutual

/-- What is below a node below another one is below that one. -/
theorem mem_walk_trans {k m : Node} : ∀ n : Node, m ∈ n.walk → k ∈ m.walk → k ∈ n.walk
  | mk data children, hm, hk => by
    rw [walk] at hm ⊢
    rcases List.mem_cons.mp hm with rfl | hm
    · rwa [walk] at hk
    · exact List.mem_cons_of_mem _ (mem_walkAll_trans children hm hk)

theorem mem_walkAll_trans {k m : Node} : ∀ ns : List Node, m ∈ walkAll ns → k ∈ m.walk →
    k ∈ walkAll ns
  | [], hm, _ => by cases hm
  | n :: ns, hm, hk => by
    rw [walkAll] at hm ⊢
    rcases List.mem_append.mp hm with hm | hm
    · exact List.mem_append_left _ (mem_walk_trans n hm hk)
    · exact List.mem_append_right _ (mem_walkAll_trans ns hm hk)

end

/-- The node and all nodes below it have the property. -/
def Everywhere (P : Node → Prop) (n : Node) : Prop := ∀ m ∈ n.walk, P m

theorem everywhere_iff {P : Node → Prop} :
    n.Everywhere P ↔ P n ∧ ∀ c ∈ n.children, c.Everywhere P := by
  obtain ⟨data, children⟩ := n
  unfold Everywhere
  rw [walk, List.forall_mem_cons]
  refine and_congr_right fun _ => ⟨fun h c hc m hm => h m (mem_walkAll hc hm), fun h m hm => ?_⟩
  obtain ⟨c, hc, hm⟩ := mem_walkAll_iff.mp hm
  exact h c hc m hm

theorem Everywhere.self {P : Node → Prop} (h : n.Everywhere P) : P n := (everywhere_iff.mp h).1

theorem Everywhere.below {P : Node → Prop} {n m : Node} (h : n.Everywhere P) (hm : m ∈ n.walk) :
    m.Everywhere P := fun k hk => h k (mem_walk_trans n hm hk)

theorem Everywhere.mono {P Q : Node → Prop} (h : n.Everywhere P) (hPQ : ∀ m, P m → Q m) :
    n.Everywhere Q := fun m hm => hPQ m (h m hm)

/-- The children of a node are nodes among the pieces, or children of one of these. -/
theorem Makes.children {table : SymbolTable} {ps : List Piece} (h : Makes table ps n) {c : Node}
    (hc : c ∈ n.children) : .node c ∈ ps ∨ ∃ k, .node k ∈ ps ∧ c ∈ k.children := by
  cases h with
  | build => exact .inl (Piece.mem_nodes.mp hc)
  | literal => cases hc
  | enclosed k | marked k => exact .inr ⟨k, by simp, hc⟩
  | markedFirst _ k => exact .inr ⟨k, by simp, hc⟩
  | extended base part =>
    rcases List.mem_append.mp hc with hc | hc
    · exact .inr ⟨base, by simp, hc⟩
    · rw [List.mem_singleton.mp hc]
      exact .inl (by simp)
  | @bound k => exact .inr ⟨k, by simp, hc⟩
  | commented _ _ k => exact .inr ⟨k, by simp, hc⟩

/-- What holds of a node that is made and everywhere in the nodes that it is made from holds
everywhere in it. -/
theorem Makes.everywhere {table : SymbolTable} {ps : List Piece} {P : Node → Prop}
    (h : Makes table ps n) (hn : P n) (hps : ∀ k, .node k ∈ ps → k.Everywhere P) :
    n.Everywhere P := by
  refine everywhere_iff.mpr ⟨hn, fun c hc => ?_⟩
  rcases h.children hc with hc | ⟨k, hk, hc⟩
  · exact hps c hc
  · exact (everywhere_iff.mp (hps k hk)).2 c hc

theorem everywhere_leaf {P : Node → Prop} {form : Form} {t : Token} (h : P (leaf form t)) :
    (leaf form t).Everywhere P :=
  everywhere_iff.mpr ⟨h, List.forall_mem_nil _⟩

end Node

namespace Piece

/-- The nodes among the pieces and all nodes below them have the property. -/
def AllNodes (P : Node → Prop) (ps : List Piece) : Prop := ∀ n, .node n ∈ ps → n.Everywhere P

namespace AllNodes

variable {P Q : Node → Prop} {ps qs rs : List Piece} {p : Piece} {n : Node}

theorem nil : AllNodes P [] := fun _ hn => by cases hn

theorem mono (h : AllNodes P ps) (hPQ : ∀ m, P m → Q m) : AllNodes Q ps :=
  fun n hn => (h n hn).mono hPQ

theorem subset (h : AllNodes P ps) (hqs : qs ⊆ ps) : AllNodes P qs := fun n hn => h n (hqs hn)

theorem append (h : AllNodes P ps) (h' : AllNodes P qs) : AllNodes P (ps ++ qs) :=
  fun n hn => (List.mem_append.mp hn).elim (h n) (h' n)

/-- One piece more does not matter if it is no node. -/
theorem insert (h : AllNodes P (ps ++ qs)) (hp : p.node? = none) : AllNodes P (ps ++ p :: qs) := by
  intro n hn
  simp only [List.mem_append, List.mem_cons] at hn
  rcases hn with hn | rfl | hn
  · exact h n (by simp [hn])
  · cases hp
  · exact h n (by simp [hn])

/-- One piece more may be a token or a leaf. -/
theorem push (h : AllNodes P ps) (hp : p.node? = none ∨ ∃ form t, p = .node (.leaf form t) ∧
    P (.leaf form t)) : AllNodes P (ps ++ [p]) := by
  rcases hp with hp | ⟨form, t, rfl, hleaf⟩
  · exact insert (by rwa [List.append_nil]) hp
  · refine h.append fun n hn => ?_
    cases List.mem_singleton.mp hn
    exact Node.everywhere_leaf hleaf

/-- Comments are leaves. -/
theorem collect (h : AllNodes P ps) {ts : List Token} (hts : ∀ t ∈ ts, P (.ofComment t)) :
    AllNodes P (ps ++ ts.map .comment) := by
  refine h.append fun n hn => ?_
  obtain ⟨t, ht, hleaf⟩ := List.mem_map.mp hn
  cases hleaf
  exact Node.everywhere_leaf (hts t ht)

/-- A node takes the place of the pieces that it is made from. -/
theorem make (h : AllNodes P (ps ++ (qs ++ rs))) {table : SymbolTable}
    (hn : Node.Makes table qs n) (hself : P n) : AllNodes P (ps ++ .node n :: rs) := by
  have hpieces (k : Node) (hk : .node k ∈ qs) : k.Everywhere P := h k (by simp [hk])
  intro m hm
  simp only [List.mem_append, List.mem_cons] at hm
  rcases hm with hm | hm | hm
  · exact h m (by simp [hm])
  · cases hm
    exact hn.everywhere hself hpieces
  · exact h m (by simp [hm])

/-- All nodes of the trees in hand have the property. -/
theorem walkAll {ns : List Node} (h : AllNodes P (ns.map node)) (hn : n ∈ Node.walkAll ns) :
    n.Everywhere P := by
  obtain ⟨top, htop, hbelow⟩ := Node.mem_walkAll_iff.mp hn
  exact (h top (List.mem_map.mpr ⟨top, htop, rfl⟩)).below hbelow

end AllNodes

/-- The tokens among the pieces are fit for what they are in hand for, and the nodes and all nodes below
them have the property. -/
structure AllFit (P : Use → Token → Prop) (Q : Node → Prop) (ps : List Piece) : Prop where
  tokens : ∀ use t, .token use t ∈ ps → P use t
  nodes : AllNodes Q ps

namespace AllFit

variable {P : Use → Token → Prop} {Q : Node → Prop} {ps qs rs : List Piece} {p : Piece} {n : Node}
  {use : Use} {t : Token}

theorem nil : AllFit P Q [] := ⟨fun _ _ ht => absurd ht List.not_mem_nil, .nil⟩

theorem subset (h : AllFit P Q ps) (hqs : qs ⊆ ps) : AllFit P Q qs :=
  ⟨fun use t ht => h.tokens use t (hqs ht), h.nodes.subset hqs⟩

theorem mind (h : AllFit P Q (ps ++ qs)) (hp : p.isMental) : AllFit P Q (ps ++ p :: qs) := by
  refine ⟨fun use t ht => h.tokens use t ?_, h.nodes.insert (node?_of_isMental hp)⟩
  simp only [List.mem_append, List.mem_cons] at ht ⊢
  rcases ht with ht | rfl | ht
  · exact .inl ht
  · cases hp
  · exact .inr ht

theorem push (h : AllFit P Q ps) (ht : P use t) : AllFit P Q (ps ++ [.token use t]) := by
  refine ⟨fun other u hu => ?_, h.nodes.push (.inl rfl)⟩
  rcases List.mem_append.mp hu with hu | hu
  · exact h.tokens other u hu
  · cases List.mem_singleton.mp hu
    exact ht

theorem pushLeaf (h : AllFit P Q ps) {form : Form} (hleaf : Q (.leaf form t)) :
    AllFit P Q (ps ++ [.node (.leaf form t)]) :=
  ⟨fun use u hu => h.tokens use u ((List.mem_append.mp hu).resolve_right (by simp)),
    h.nodes.push (.inr ⟨form, t, rfl, hleaf⟩)⟩

theorem collect (h : AllFit P Q ps) {ts : List Token} (hts : ∀ t ∈ ts, Q (.ofComment t)) :
    AllFit P Q (ps ++ ts.map .comment) := by
  refine ⟨fun use t ht => ?_, h.nodes.collect hts⟩
  refine h.tokens use t ((List.mem_append.mp ht).resolve_right fun ht => ?_)
  obtain ⟨c, -, hc⟩ := List.mem_map.mp ht
  cases hc

/-- A node that has the property if the tokens that it is made from are fit takes their place. -/
theorem make (h : AllFit P Q (ps ++ (qs ++ rs))) {table : SymbolTable} (hn : Node.Makes table qs n)
    (hself : (∀ use t, .token use t ∈ qs → P use t) → (∀ k, .node k ∈ qs → Q k) → Q n) :
    AllFit P Q (ps ++ .node n :: rs) := by
  refine ⟨fun use t ht => h.tokens use t ?_, h.nodes.make hn (hself (fun use t ht =>
    h.tokens use t (by simp [ht])) fun k hk => (h.nodes k (by simp [hk])).self)⟩
  simp only [List.mem_append, List.mem_cons, reduceCtorEq, false_or] at ht ⊢
  exact ht.imp_right .inr

end AllFit

end Piece

end SableFront
