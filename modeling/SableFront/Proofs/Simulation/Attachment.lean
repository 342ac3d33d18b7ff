import SableFront.Proofs.Simulation.Limit

/-!
# Simulation: where comments go

A comment leads or trails a statement, or is a node of its own, or waits for one of these. Whichever
it is, nothing that is read depends on it: with comments attached and without, a text gives the same
tree but for its comments, and for the spans of nodes that are widened around them.
-/

namespace SableFront

namespace Node

mutual

/-- The tree without comments, of its own or attached, and without the spans of nodes. -/
def stripped : Node → Node
  | mk data children =>
    mk { data with span := .point .origin, leading := [], trailing := [] } (strippedAll children)

/-- Several trees without the comments among and in them, and without the spans of nodes. -/
def strippedAll : List Node → List Node
  | [] => []
  | n :: ns => if n.isComment then strippedAll ns else stripped n :: strippedAll ns

end

mutual

/-- What is seen in a view without comments and spans is what is left when they are stripped off. -/
theorem stripped_seen : (n : Node) → (n.seen .placed).stripped = n.stripped
  | mk data children => by
    have hmarks : data.marks.map (View.token .placed) = data.marks := List.map_id'' (fun _ => rfl) _
    rw [seen, stripped, stripped, strippedAll_seenAll _ children, View.data, hmarks]
    rfl

theorem strippedAll_seenAll (b : Bool) :
    (ns : List Node) → strippedAll (seenAll .placed b ns) = strippedAll ns
  | [] => rfl
  | n :: ns => by
    have hcomment : (n.seen .placed).isComment = n.isComment := by
      rw [isComment, isComment, form_seen]
    have ih := strippedAll_seenAll b ns
    rw [seenAll, strippedAll]
    cases hn : n.isComment
    · rw [Bool.and_false, if_neg Bool.false_ne_true, if_neg Bool.false_ne_true, strippedAll,
        hcomment, hn, if_neg Bool.false_ne_true, stripped_seen n, ih]
    · rw [if_pos rfl]
      split
      · exact ih
      · rw [strippedAll, hcomment, hn, if_pos rfl, ih]

end

theorem AlikeItems.strippedAll_eq {ns ns' : List Node} (h : AlikeItems .placed ns ns') :
    strippedAll ns = strippedAll ns' := by
  rw [← strippedAll_seenAll true ns, ← strippedAll_seenAll true ns']
  exact congrArg strippedAll h

end Node

theorem eq_of_alike_placed {es es' : List SyntaxError} (h : View.placed.Alike es es') : es = es' :=
  eq_of_alike_whole h

namespace Program

open Grammar.Simulation

/-- **To attach comments is to present them in another way.** Whatever the other options are, the
errors and the symbol table are the same, and the trees are the same without their comments and the
spans of their nodes. -/
theorem attaching_moves_comments_only (source : String) (speculate : Bool) (limit : Option Nat) :
    let attached := parse source ⟨true, speculate, limit⟩
    let alone := parse source ⟨false, speculate, limit⟩
    attached.errors = alone.errors ∧ attached.symbols = alone.symbols ∧
      Node.strippedAll attached.nodes = Node.strippedAll alone.nodes := by
  have hplaced : View.placed ≠ .whole := View.noConfusion
  obtain ⟨hnodes, herrors, hsymbols⟩ := parse_ofText source .placed ⟨true, speculate, none⟩
    ⟨false, speculate, limit⟩ rfl rfl fun h => absurd h hplaced
  dsimp only
  rw [parse_limit source ⟨true, speculate, limit⟩]
  exact ⟨eq_of_alike_placed herrors, hsymbols, hnodes.strippedAll_eq⟩

end Program

end SableFront
