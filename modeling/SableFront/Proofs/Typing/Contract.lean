import SableFront.Proofs.Typing.Settled
import SableFront.Proofs.Templates.Heading

/-!
# Typing: trees in hand

A production is handed trees, and hands on those that its result carries. `Has fluid base ns s` says
that in the state `s` the trees `ns` are settled and no name waits, and that since the table was
`base` only fluid names and what is newer than `base` have got other types. What is settled stays
so while a production is run, since it starts from a table that it retains in its turn
(`Turns.beside`).

Only an import gives a name another type that is not the name of an operator. So names that are
not fluid need a text with no import ahead, which holds on while the text is read.
-/

namespace SableFront

open Lexeme

/-! ### Texts without imports -/

/-- No import starts in a text with these words. -/
def importFree : List Kind → Bool
  | .keyword .importKw :: _ | .keyword .fromKw :: _ => false
  | _ :: ks => importFree ks
  | [] => true

theorem importFree_tail {k : Kind} {ks : List Kind} (h : importFree (k :: ks)) :
    importFree ks := by
  unfold importFree at h
  split at h
  · cases h
  · cases h
  · rename_i heq
    cases heq
    exact h
  · rename_i heq
    cases heq

theorem importFree_run {k : Kind} (hk : isRunKind k) (ks : List Kind) :
    importFree (k :: ks) = importFree ks := by
  cases k with
  | operator o => rfl
  | _ => cases hk

namespace SymbolTable

/-- The operation changes no symbol, and binds names to symbols of that name if this was so. -/
def Opens (enter : SymbolTable → SymbolTable) : Prop :=
  ∀ t : SymbolTable, (enter t).symbols = t.symbols ∧ (t.Labelled → (enter t).Labelled)

theorem opens_push : Opens SymbolTable.push := fun _ => ⟨rfl, fun h => h.newScope none⟩

theorem opens_enter (scope : ScopeId) : Opens (·.enter scope) := fun _ => ⟨rfl, fun h => h⟩

end SymbolTable

namespace Grammar

open Node

theorem persistent_importFree : Persistent fun ks => importFree ks :=
  .of_check (fun h _ => importFree_tail h) importFree_run

theorem importFree_advance {s : State} (h : importFree s.words) : importFree s.advance.words :=
  words_advance_of_tail (P := fun ks => importFree ks) importFree_tail h

namespace Typing

/-! ### The hand -/

/-- In the text ahead imports start only if they may change the types of all names. -/
structure Fits (fluid : String → Prop) (s : State) : Prop where
  placed : s.lexer.Placed
  ahead : (∀ name, fluid name) ∨ importFree s.words

/-- The trees are settled, and so is a name that may wait; the table retains `base`. -/
structure Kept (fluid : String → Prop) (base : SymbolTable) (ns : List Node) (s : State) : Prop where
  labelled : s.symbols.Labelled
  typed : s.symbols.WellTyped
  fits : Fits fluid s
  retains : base.Retains fluid s.symbols
  settled : ∀ n ∈ ns, n.Settled fluid s.symbols []
  waiting : ∀ n ∈ s.lookaside, n.Settled fluid s.symbols []

/-- The trees are in hand, and no name waits. -/
structure Has (fluid : String → Prop) (base : SymbolTable) (ns : List Node) (s : State) : Prop where
  kept : Kept fluid base ns s
  idle : s.lookaside = none

/-- After an error no tree is in hand, but a name may wait. -/
def Fails (fluid : String → Prop) (base : SymbolTable) (_ : SyntaxError) (s : State) : Prop :=
  Kept fluid base [] s

/-- The production is handed trees and hands on those that its result carries. -/
def Turns {α : Type} (fluid : String → Prop) (ns : List Node) (p : Production α)
    (carry : α → List Node) : Prop :=
  ∀ ⦃base s⦄, Has fluid base ns s →
    Meets s p p (fun a => Has fluid base (carry a)) (Fails fluid base)

/-- The production is handed nothing. -/
def Yields {α : Type} (fluid : String → Prop) (p : Production α) (carry : α → List Node) : Prop :=
  Turns fluid [] p carry

/-- Like `Yields`, where a name may wait to be read. -/
def Takes {α : Type} (fluid : String → Prop) (p : Production α) (carry : α → List Node) : Prop :=
  ∀ ⦃base s⦄, Kept fluid base [] s →
    Meets s p p (fun a => Has fluid base (carry a)) (Fails fluid base)

variable {fluid : String → Prop} {α β : Type} {base table : SymbolTable} {ms ns : List Node}
  {s t : State} {p : Production α} {carry : α → List Node} {n : Node} {e : SyntaxError}

/-! ### States -/

namespace Fits

theorem congr (h : Fits fluid s) (hlexer : t.lexer = s.lexer) : Fits fluid t :=
  ⟨hlexer ▸ h.placed, h.ahead.imp_right fun hfree => (words_eq_of_lexer hlexer).symm ▸ hfree⟩

theorem advance (h : Fits fluid s) : Fits fluid s.advance := by
  refine ⟨?_, h.ahead.imp_right importFree_advance⟩
  unfold State.advance
  split
  · exact h.placed
  · exact Cursor.placed_significant _

theorem split (h : Fits fluid s) (hs : isClosingAngle s.current.kind) :
    Fits fluid { s with lexer := s.lexer.splitAngle?.getD s.lexer } := by
  obtain ⟨hplaced, -, hwords⟩ := ahead_splitAngle (P := fun ks => importFree ks) h.placed hs
  exact ⟨hplaced, h.ahead.imp_right (hwords persistent_importFree)⟩

end Fits

namespace Kept

theorem subset (h : Kept fluid base ns s) (hsub : ms ⊆ ns) : Kept fluid base ms s :=
  { h with settled := fun n hn => h.settled n (hsub hn) }

theorem drop (h : Kept fluid base ns s) : Kept fluid base [] s := h.subset (List.nil_subset ns)

/-- Only the lexer, the table and the name that waits matter. -/
theorem congr (h : Kept fluid base ns s) (hlexer : t.lexer = s.lexer)
    (hsymbols : t.symbols = s.symbols) (hwaiting : t.lookaside = s.lookaside) :
    Kept fluid base ns t := by
  constructor
  case fits => exact h.fits.congr hlexer
  all_goals rw [hsymbols]
  · exact h.labelled
  · exact h.typed
  · exact h.retains
  · exact h.settled
  · rw [hwaiting]
    exact h.waiting

/-- The table may be changed to one that it retains. -/
theorem withSymbols (h : Kept fluid base ns s) (hlabelled : table.Labelled)
    (htyped : table.WellTyped) (hretains : s.symbols.Retains fluid table) :
    Kept fluid base ns { s with symbols := table } where
  labelled := hlabelled
  typed := htyped
  fits := h.fits.congr rfl
  retains := h.retains.trans hretains
  settled n hn := (h.settled n hn).mono hretains
  waiting n hn := (h.waiting n hn).mono hretains

/-- What holds of the current table is enough to know of any table before. -/
theorem rebase (h : Kept fluid s.symbols ns t) (hs : Kept fluid base ms s) :
    Kept fluid base ns t := { h with retains := hs.retains.trans h.retains }

theorem here (h : Kept fluid base ns s) : Kept fluid s.symbols ns s :=
  { h with retains := .refl _ }

/-- The trees that were settled in the table before are settled still. -/
theorem keep (h : Kept fluid s.symbols ns t) (hs : Kept fluid base ms s) :
    Kept fluid base (ms ++ ns) t where
  labelled := h.labelled
  typed := h.typed
  fits := h.fits
  retains := hs.retains.trans h.retains
  settled := List.forall_mem_append.mpr
    ⟨fun n hn => (hs.settled n hn).mono h.retains, h.settled⟩
  waiting := h.waiting

theorem enter (h : Kept fluid base ns s) (scope : ScopeId) :
    Kept fluid base ns { s with symbols := s.symbols.enter scope } :=
  h.withSymbols h.labelled h.typed (SymbolTable.Retains.refl s.symbols)

theorem record (h : Kept fluid base ns s) (e : SyntaxError) : Kept fluid base ns (s.record e) := by
  unfold State.record
  split
  · exact h
  · exact h.congr rfl rfl rfl

theorem advance (h : Kept fluid base ns s) : Kept fluid base ns s.advance where
  labelled := (State.symbols_advance s).symm ▸ h.labelled
  typed := (State.symbols_advance s).symm ▸ h.typed
  fits := h.fits.advance
  retains := (State.symbols_advance s).symm ▸ h.retains
  settled := (State.symbols_advance s).symm ▸ h.settled
  waiting := by
    rw [State.symbols_advance, State.lookaside_advance]
    exact h.waiting

/-- Where no name waits, some of the trees are in hand. -/
theorem has (h : Kept fluid base ns s) (hidle : s.lookaside = none) : Has fluid base ns s :=
  ⟨h, hidle⟩

/-- The name that waits is taken in hand. -/
theorem unstash (h : Kept fluid base ns s) (hname : s.lookaside = some n) :
    Has fluid base [n] { s with lookaside := none } :=
  ⟨⟨h.labelled, h.typed, h.fits.congr rfl, h.retains,
    List.forall_mem_singleton.mpr (h.waiting n hname),
    fun m hm => (Option.not_mem_none m hm).elim⟩, rfl⟩

end Kept

namespace Has

theorem subset (h : Has fluid base ns s) (hsub : ms ⊆ ns) : Has fluid base ms s :=
  ⟨h.kept.subset hsub, h.idle⟩

theorem fails (h : Has fluid base ns s) : Fails fluid base e s := h.kept.drop

theorem settled (h : Has fluid base ns s) (hn : n ∈ ns) : n.Settled fluid s.symbols [] :=
  h.kept.settled n hn

theorem here (h : Has fluid base ns s) : Has fluid s.symbols ns s := ⟨h.kept.here, h.idle⟩

theorem congr (h : Has fluid base ns s) (hlexer : t.lexer = s.lexer)
    (hsymbols : t.symbols = s.symbols) (hwaiting : t.lookaside = s.lookaside) :
    Has fluid base ns t := ⟨h.kept.congr hlexer hsymbols hwaiting, hwaiting.trans h.idle⟩

theorem withNote (h : Has fluid base ns s) (note : Option ScopeId) :
    Has fluid base ns { s with templateScope := note } := h.congr rfl rfl rfl

theorem withSymbols (h : Has fluid base ns s) (hlabelled : table.Labelled)
    (htyped : table.WellTyped) (hretains : s.symbols.Retains fluid table) :
    Has fluid base ns { s with symbols := table } :=
  ⟨h.kept.withSymbols hlabelled htyped hretains, h.idle⟩

theorem advance (h : Has fluid base ns s) : Has fluid base ns s.advance :=
  ⟨h.kept.advance, (State.lookaside_advance s).trans h.idle⟩

theorem record (h : Has fluid base ns s) (e : SyntaxError) : Has fluid base ns (s.record e) :=
  ⟨h.kept.record e, (State.lookaside_record s e).trans h.idle⟩

/-- One more tree is settled. -/
theorem push (h : Has fluid base ns s) (hn : n.Settled fluid s.symbols []) :
    Has fluid base (n :: ns) s :=
  ⟨{ h.kept with settled := List.forall_mem_cons.mpr ⟨hn, h.kept.settled⟩ }, h.idle⟩

/-- All trees in hand are put down but one that is settled. -/
theorem only (h : Has fluid base ns s) (hn : n.Settled fluid s.symbols []) :
    Has fluid base [n] s := (h.push hn).subset (by simp)

/-- Trees in hand become a node. -/
theorem node (h : Has fluid base ns s) {form : Form} {children : List Node}
    (hform : form.Agrees fluid s.symbols []) (hchildren : children ⊆ ns) (anchor : Token)
    (marks : List Token) (further : List Span) :
    Has fluid base [.build form anchor children marks further] s := by
  have hbuilt : (Node.build form anchor children marks further).Settled fluid s.symbols [] :=
    settled_of_children hform fun c hc => h.settled (hchildren hc)
  exact h.only hbuilt

/-- Trees in hand become a node that holds no type itself. -/
theorem build (h : Has fluid base ns s) {form : Form} {children : List Node} (hform : form.isBare)
    (hchildren : children ⊆ ns) (anchor : Token) (marks : List Token) (further : List Span) :
    Has fluid base [.build form anchor children marks further] s :=
  h.node (Form.agrees_of_isBare hform) hchildren anchor marks further

theorem branch (h : Has fluid base ns s) {form : Form} {children : List Node} (hform : form.isBare)
    (hchildren : children ⊆ ns) (anchor : Token) :
    Has fluid base [.branch form anchor children] s := h.build hform hchildren anchor [] _

/-- The node in hand waits to be read as a name. -/
theorem stash (h : Has fluid base [n] s) : Kept fluid base [] { s with lookaside := some n } :=
  ⟨h.kept.labelled, h.kept.typed, h.kept.fits.congr rfl, h.kept.retains, List.forall_mem_nil _,
    fun m hm => by cases hm; exact h.settled List.mem_cons_self⟩

/-- What was read since `s` is given up. -/
theorem rewind (h : Has fluid base [] s) (ht : Kept fluid base [] t) :
    Has fluid base [] (t.rewind s) :=
  ⟨⟨ht.labelled, ht.typed, h.kept.fits.congr rfl, ht.retains, List.forall_mem_nil _,
    fun n hn => by
      change n ∈ s.lookaside at hn
      rw [h.idle] at hn
      exact (Option.not_mem_none n hn).elim⟩, h.idle⟩

/-! ### Tokens of a kind -/

theorem eat (h : Has fluid base ns s) (k : Kind) :
    Meets s (eat k) (eat k) (fun _ => Has fluid base ns) (Fails fluid base) := by
  have hrun := outcome_eat s k
  split at hrun
  · exact .result _ _ hrun hrun h.advance
  · exact .result _ _ hrun hrun h

theorem expect (h : Has fluid base ns s) (k : Kind) (missing : ErrorKind) :
    Meets s (expect k missing) (expect k missing) (fun _ => Has fluid base ns)
      (Fails fluid base) := by
  unfold Grammar.expect
  refine (h.eat k).bind fun found t ht => ?_
  cases found with
  | some token => exact .pure ht
  | none => exact .fail ht.fails

theorem expectIdent (h : Has fluid base ns s) :
    Meets s expectIdent expectIdent (fun _ => Has fluid base ns) (Fails fluid base) := by
  have hrun := outcome_expectIdent s
  split at hrun
  · exact .result _ _ hrun hrun h.advance
  · exact .failure _ _ hrun hrun h.fails

end Has

theorem Kept.operatorBefore (h : Kept fluid base [] s) (accepts : Kind → Bool) :
    Meets s (operatorBefore accepts) (operatorBefore accepts)
      (fun found t => found.elim (Kept fluid base [] t) fun _ => Has fluid base [] t)
      (Fails fluid base) := by
  have hrun := outcome_operatorBefore s accepts
  split at hrun
  · rename_i hhere
    have hidle : s.lookaside = none :=
      Option.isNone_iff_eq_none.mp (Bool.and_eq_true_iff.mp hhere).1
    exact .result _ _ hrun hrun (h.has hidle).advance
  · exact .result _ _ hrun hrun h

/-! ### Rules -/

namespace Turns

/-- **Trees that are not handed to a production** stay in hand, and so do those that are. -/
theorem beside (h : Turns fluid ns p carry) (hs : Has fluid base ms s) (hsub : ns ⊆ ms) :
    Meets s p p (fun a => Has fluid base (ms ++ carry a)) (Fails fluid base) :=
  (h (hs.subset hsub).here).mono (fun _ _ ht => ⟨ht.kept.keep hs.kept, ht.idle⟩)
    fun _ _ ht => Kept.rebase ht hs.kept

/-- It is enough to look back to the table that the production starts from. -/
theorem of_here (h : ∀ ⦃s⦄, Has fluid s.symbols ns s →
    Meets s p p (fun a => Has fluid s.symbols (carry a)) (Fails fluid s.symbols)) :
    Turns fluid ns p carry := fun _ _ hs =>
  (h hs.here).mono (fun _ _ ht => ⟨ht.kept.rebase hs.kept, ht.idle⟩)
    fun _ _ ht => Kept.rebase ht hs.kept

theorem subset (h : Turns fluid ns p carry) {carry' : α → List Node}
    (hcarry : ∀ a, carry' a ⊆ carry a) : Turns fluid ns p carry' :=
  fun _ _ hs => (h hs).weaken fun a _ ht => ht.subset (hcarry a)

theorem require {p : Production (Option α)} {carry : Option α → List Node}
    (h : Turns fluid ns p carry) (missing : ErrorKind) :
    Turns fluid ns (require p missing) fun a => carry (some a) := by
  intro base s hs
  unfold Grammar.require
  refine (h hs).bind fun found t ht => ?_
  cases found with
  | some a => exact .pure ht
  | none => exact .fail ht.fails

/-- Each round of a loop is handed what the round before it handed on. -/
theorem loop (carry : α → List Node) {round : α → Production (α ⊕ β)} {carry' : β → List Node}
    (h : ∀ a, Turns fluid (carry a) (round a) (Sum.elim carry carry')) (n : Nat) (a : α) :
    Turns fluid (carry a) (loop round n a) carry' := by
  intro base s hs
  refine meets_loop (P := fun a => Has fluid base (carry a)) (fun a s hs => ?_)
    (fun a s hs => hs.fails) n a hs
  refine (h a hs).weaken fun next t ht => ?_
  cases next <;> exact ht

theorem inScope (h : Turns fluid ns p carry) {enter : SymbolTable → SymbolTable}
    (henter : SymbolTable.Opens enter) : Turns fluid ns (inScope enter p) carry := by
  intro base s hs
  obtain ⟨hsymbols, hlabelled⟩ := henter s.symbols
  have hsame (id : SymbolId) : (enter s.symbols).symbol? id = s.symbols.symbol? id := by
    rw [SymbolTable.symbol?, hsymbols, SymbolTable.symbol?]
  have hentered : Has fluid base ns { s with symbols := enter s.symbols } :=
    hs.withSymbols (hlabelled hs.kept.labelled)
      (fun id a ha => hs.kept.typed id a (hsame id ▸ ha))
      fun id a ha => ⟨a, (hsame id).trans ha, rfl, .inr rfl⟩
  refine .inScope ((h hentered).mono (fun a t ht => ?_) fun e t ht => Kept.enter ht _)
  exact ⟨ht.kept.enter _, ht.idle⟩

theorem inNewScope (h : Turns fluid ns p carry) : Turns fluid ns (inNewScope p) carry :=
  h.inScope SymbolTable.opens_push

end Turns

namespace Yields

/-- An empty node stands for an operand that is missing. -/
theorem operand {p : Production (Option Node)} (h : Yields fluid p Option.toList) :
    Yields fluid (operand p) List.singleton := by
  intro base s hs
  unfold Grammar.operand
  refine (h hs).bind fun found t ht => ?_
  cases found with
  | some node => exact .pure ht
  | none =>
    rw [meets_get, meets_record]
    have hnode : Has fluid base [t.placeholder] t := ht.branch rfl (List.nil_subset _) _
    exact .pure (hnode.record _)

/-- The items of a list are in hand. -/
theorem commaList {item : Production α} (hitem : Yields fluid item carry) {closer : Closer}
    (hclose : Yields fluid closer.close fun _ => []) (rounds : Nat) (missing : State → ErrorKind) :
    Yields fluid (commaList rounds closer missing item) fun found => found.1.flatMap carry := by
  refine Turns.loop (fun items => items.flatMap carry) (fun items base s hs => ?_) rounds []
  refine (Turns.beside hclose hs (List.nil_subset _)).bind fun close t ht => ?_
  rw [List.append_nil] at ht
  cases close with
  | some token => exact .pure ht
  | none =>
    refine (Turns.beside hitem ht (List.nil_subset _)).bind fun a u hu => ?_
    refine (hu.eat _).bind fun comma v hv => ?_
    rw [meets_get]
    split
    · exact .fail hv.fails
    · refine .pure (?_ : Has fluid base ((items ++ [a]).flatMap carry) v)
      rw [List.flatMap_append, List.flatMap_singleton]
      exact hv

theorem commaNodes {item : Production Node} (hitem : Yields fluid item List.singleton)
    {closer : Closer} (hclose : Yields fluid closer.close fun _ => []) (rounds : Nat)
    (missing : State → ErrorKind) :
    Yields fluid (Grammar.commaList rounds closer missing item) Prod.fst :=
  Turns.subset (hitem.commaList hclose rounds missing) fun found =>
    (List.flatMap_singleton' found.1).symm ▸ List.Subset.refl _

theorem commaItems {item : Production Node} (hitem : Yields fluid item List.singleton)
    (rounds : Nat) : Yields fluid (commaItems rounds item) fun items => items := by
  refine Turns.loop (fun items => items) (fun items base s hs => ?_) rounds []
  refine (Turns.beside hitem hs (List.nil_subset _)).bind fun a t ht => ?_
  have hmore : Has fluid base (items ++ [a]) t := ht
  refine (hmore.eat _).bind fun comma u hu => ?_
  cases comma with
  | some token => exact .pure hu
  | none => exact .pure hu

/-- **An attempt** that is given up leaves the hand as it was. -/
theorem orRewind {p : Production (Option α)} {carry : Option α → List Node}
    (h : Yields fluid p carry) (hnone : carry none = []) : Yields fluid (orRewind p) carry := by
  intro base s hs
  refine .orRewind ((h hs).weaken fun found t ht => ?_)
  cases found with
  | some a => exact ht
  | none =>
    rw [Option.elim_none, hnone]
    exact hs.rewind ht.kept.drop

/-- An attempt may also be given up after an error. -/
theorem attempt (h : Yields fluid p carry) :
    Yields fluid (Grammar.orRewind (orNone p)) fun found => found.elim [] carry := by
  intro base s hs
  refine .orRewind (.orNone ((h hs).mono (fun a t ht => ht) fun e t ht => ?_))
  exact hs.rewind ht

end Yields

theorem Takes.yields (h : Takes fluid p carry) : Yields fluid p carry := fun _ _ hs => h hs.kept

theorem yields_eat (k : Kind) : Yields fluid (eat k) fun _ => [] := fun _ _ hs => hs.eat k

theorem yields_angle : Yields fluid angle.close fun _ => [] := by
  intro base s hs
  change Meets s closeAngle closeAngle _ _
  unfold closeAngle
  rw [meets_current]
  split
  · rename_i hangle
    rw [meets_modify, meets_advance]
    have hsplit : Kept fluid base [] { s with lexer := s.lexer.splitAngle?.getD s.lexer } :=
      { hs.kept with fits := hs.kept.fits.split hangle }
    exact .pure (hsplit.has hs.idle).advance
  · exact .pure hs

/-! ### Names -/

/-- A name in a text is bound to what it means there. -/
theorem Has.bindName (h : Has fluid base ns s) (htable : t.symbols = s.symbols) (token : Token) :
    Has fluid base (t.bindName token :: ns) s := by
  refine h.push ?_
  have hname : (Node.name (token.name?.getD "") token).Settled fluid s.symbols [] :=
    settled_name _ _
  unfold State.bindName
  dsimp only
  rw [htable]
  split
  · split
    · rename_i id _ _ symbol hsymbol
      exact hname.attach hsymbol rfl (h.kept.typed id symbol hsymbol).type _
    · exact hname
  · exact hname

/-- A name is declared. If its symbol is new, the name introduces it with its type. -/
theorem Has.declare (h : Has fluid base ns s) {name : Node}
    (hname : name.Settled fluid s.symbols []) {symbol : Symbol} (hsymbol : symbol.WellTyped)
    (scope : ScopeId) (role : Role) :
    Meets s (declare name symbol scope role) (declare name symbol scope role)
      (fun found t => Has fluid base (found.1 :: ns) t ∧ ∀ id ∈ found.2,
        s.symbols.size ≤ id ∧ found.1 = (name.attach id symbol role).declared)
      (Fails fluid base) := by
  unfold Grammar.declare
  rw [meets_get]
  cases hadd : s.symbols.addIn scope symbol with
  | ok added =>
    unfold SymbolTable.addIn at hadd
    split at hadd
    · cases hadd
    · cases hadd
      dsimp only
      rw [meets_set]
      have hretains : s.symbols.Retains fluid (s.symbols.bindNew scope symbol) :=
        SymbolTable.retains_bindNew s.symbols scope symbol
      have hadded := h.withSymbols (h.kept.labelled.bindNew scope symbol)
        (h.kept.typed.bindNew hsymbol scope) hretains
      have hstored := (SymbolTable.symbol?_bindNew s.symbols scope symbol s.symbols.size).trans
        (if_pos rfl)
      refine .pure ⟨hadded.push ((hname.mono hretains).attach hstored rfl hsymbol.type role).declared,
        fun id hid => ?_⟩
      cases hid
      exact ⟨Nat.le_refl _, rfl⟩
  | error e =>
    dsimp only
    rw [meets_record]
    split
    · rename_i existing hexisting
      have hbound := hname.attach hexisting rfl (h.kept.typed _ _ hexisting).type role
      exact .pure ⟨(h.push hbound).record _, fun id hid => (Option.not_mem_none id hid).elim⟩
    · exact .pure ⟨(h.push hname).record _, fun id hid => (Option.not_mem_none id hid).elim⟩

end Typing

end Grammar

end SableFront
