import SableFront.Proofs.Coverage.Reading

/-!
# Coverage: tokens are highlighted once

The records of a tree are not only of tokens that its nodes show: each such token has its records,
whatever modifiers are passed to its node (`subset_nodeRecords`). Putting them in order keeps one for
each place. So each token of a program that is highlighted has one record, but for those that go with
the brackets of a list of generics and those before a default.
-/

namespace SableFront

namespace Highlight

variable {n m : Node} {t : Token} {category : Category} {r last : Record} {rs : List Record}

/-! ### What is shown has its records -/

/-- A token that is highlighted and that a node shows is shown as something. -/
theorem exists_classifies (h : n.Shows t) (hkind : t.kind.isHighlighted) :
    ∃ category, Classifies n t category := by
  rcases h with ⟨rfl, huse⟩ | hmark
  · rcases categoryOf_cases n.data with ⟨hnone, -⟩ | ⟨-, i, hname⟩ | ⟨-, hshown⟩
    · rcases huse with huse | huse <;> cases huse.symm.trans hnone
    · exact ⟨_, .anchor hname⟩
    · obtain ⟨category, hcategory⟩ := exists_categoryOfKind hkind
      exact ⟨category, .anchor (hshown.trans hcategory)⟩
  · obtain ⟨category, hcategory⟩ := exists_categoryOfKind hkind
    exact ⟨category, .mark hmark hcategory⟩

/-- What a node shows has its records among those of the node. -/
theorem Classifies.subset_nodeRecords (h : Classifies n t category) (passed : List Modifier) :
    ∃ modifiers, tokenRecords t category modifiers ⊆ nodeRecords passed n := by
  obtain ⟨data, children⟩ := n
  rw [nodeRecords]
  cases h with
  | anchor hcategory =>
    change categoryOf data = some category at hcategory
    refine ⟨Modifier.union (modifiersOf data) passed, fun r hr => ?_⟩
    rw [hcategory]
    simp only [List.mem_append]
    exact .inl (.inl (.inl (.inr hr)))
  | mark ht hcategory =>
    refine ⟨[], fun r hr => ?_⟩
    have hmark : r ∈ markRecords t := by
      rw [markRecords, hcategory]
      exact hr
    simp only [List.mem_append]
    exact .inl (.inl (.inr (List.mem_flatMap.mpr ⟨t, ht, hmark⟩)))
  | comment ht =>
    refine ⟨[], fun r hr => ?_⟩
    simp only [List.mem_append]
    rcases ht with ht | ht
    · exact .inl (.inl (.inl (.inl (List.mem_flatMap.mpr ⟨t, ht, hr⟩))))
    · exact .inr (List.mem_flatMap.mpr ⟨t, ht, hr⟩)

mutual

/-- **What a node below shows has its records**, whatever modifiers are passed. -/
theorem subset_nodeRecords (h : Classifies m t category) : ∀ (n : Node) (passed : List Modifier),
    m ∈ n.walk → ∃ modifiers, tokenRecords t category modifiers ⊆ nodeRecords passed n
  | .mk data children, passed, hm => by
    rw [Node.walk] at hm
    rcases List.mem_cons.mp hm with rfl | hm
    · exact h.subset_nodeRecords passed
    · obtain ⟨modifiers, hsubset⟩ := subset_childRecords h children (passedOn data children) hm
      refine ⟨modifiers, fun r hr => ?_⟩
      rw [nodeRecords]
      simp only [List.mem_append]
      exact .inl (.inr (hsubset hr))

theorem subset_childRecords (h : Classifies m t category) :
    ∀ (ns : List Node) (passed : List (List Modifier)),
    m ∈ Node.walkAll ns → ∃ modifiers, tokenRecords t category modifiers ⊆ childRecords passed ns
  | [], _, hm => by cases hm
  | n :: ns, passed, hm => by
    have hcons : ∃ own others,
        childRecords passed (n :: ns) = nodeRecords own n ++ childRecords others ns := by
      cases passed with
      | nil => exact ⟨[], [], by rw [childRecords]⟩
      | cons own others => exact ⟨own, others, by rw [childRecords]⟩
    obtain ⟨own, others, hrecords⟩ := hcons
    rw [Node.walkAll] at hm
    rw [hrecords]
    rcases List.mem_append.mp hm with hm | hm
    · obtain ⟨modifiers, hsubset⟩ := subset_nodeRecords h n own hm
      exact ⟨modifiers, List.Subset.trans hsubset (List.subset_append_left _ _)⟩
    · obtain ⟨modifiers, hsubset⟩ := subset_childRecords h ns others hm
      exact ⟨modifiers, List.Subset.trans hsubset (List.subset_append_right _ _)⟩

end

/-! ### One record for each place -/

/-- Of the records for a place no other than the one kept is. -/
theorem filter_start_inOrder (h : r ∈ inOrder rs) :
    (inOrder rs).filter (fun s => s.start = r.start) = [r] := by
  have hne {a b : Record} (hlt : a.start < b.start) : a.start ≠ b.start := fun heq =>
    Position.not_le_of_lt hlt (heq ▸ Position.le_refl _)
  obtain ⟨before, after, hsplit⟩ := List.append_of_mem h
  have hordered := pairwise_inOrder rs
  rw [hsplit] at hordered ⊢
  obtain ⟨-, hafter, hbefore⟩ := List.pairwise_append.mp hordered
  have hfirst : before.filter (fun s => s.start = r.start) = [] :=
    List.filter_eq_nil_iff.mpr fun s hs heq =>
      hne (hbefore s hs r List.mem_cons_self) (of_decide_eq_true heq)
  have hlast : after.filter (fun s => s.start = r.start) = [] :=
    List.filter_eq_nil_iff.mpr fun s hs heq =>
      hne ((List.pairwise_cons.mp hafter).1 s hs) (of_decide_eq_true heq).symm
  rw [List.filter_append, hfirst, List.nil_append, List.filter_cons, hlast, decide_eq_true rfl,
    if_pos rfl]

/-- A token that stands on one line and that one of the nodes shows has one record, as long as it is,
where any two tokens that the nodes keep are the same or apart. -/
theorem map_length_highlight {cs : List Char} {current : Token} {nodes : List Node}
    (hapart : Gathered cs (Piece.Kept (nodes.map .node)) current) (honline : t.OnLine)
    (hm : m ∈ Node.walkAll nodes) (hshown : Classifies m t category) :
    ((highlight .standard nodes).filter fun r => r.start = t.span.start).map Record.length =
      [t.width] := by
  obtain ⟨n, hn, hbelow⟩ := Node.mem_walkAll_iff.mp hm
  obtain ⟨modifiers, hsubset⟩ := subset_nodeRecords hshown n [] hbelow
  have hfirst : ⟨t.span.start, t.width, category, modifiers⟩ ∈ tokenRecords t category modifiers := by
    rw [tokenRecords_eq honline]
    exact List.mem_cons_self
  obtain ⟨r, hr, hstart⟩ := exists_mem_inOrder
    (List.mem_flatMap.mpr ⟨n, hn, hsubset hfirst⟩ : _ ∈ nodes.flatMap (nodeRecords []))
  -- the record that is kept is of the same token, since it starts at the same place
  have hlength : r.length = t.width := by
    obtain ⟨k, hk, u, other, hother, others, hfrom⟩ :=
      isShownBy_of_mem_flatMap (mem_of_mem_inOrder hr)
    obtain rfl : u = t := eq_of_start_eq hapart (Piece.kept_of_mem_walkAll hk hother.mem_ownTokens)
      (Piece.kept_of_mem_walkAll hm hshown.mem_ownTokens) hfrom hfirst hstart
    rw [tokenRecords_eq honline] at hfrom
    rw [List.mem_singleton.mp hfrom]
  have hplace := filter_start_inOrder hr
  rw [hstart] at hplace
  rw [highlight_standard, hplace, List.map_singleton, hlength]

end Highlight

open Highlight

/-- **Tokens are highlighted once.** If a program is read without an error, each name, keyword,
operator and literal of the text has exactly one record: it starts where the token does, and is as
long. Excepted are a token that goes with a bracket of a list of generics, since it is the bracket,
starts with it, or is lost where the text is cut anew behind it; and the sign before the default of a
parameter. Such a bracket or sign stands in a node, but neither in one of its children nor among what
it shows. -/
theorem tokens_are_highlighted_once (source : String)
    (herrors : (Program.parse source .standard).errors = []) (t : Token) (ht : t ∈ tokenize source)
    (hkind : t.kind.isHighlighted) :
    let nodes := (Program.parse source .standard).nodes
    ((highlight .standard nodes).filter fun r => r.start = t.span.start).map Record.length =
      [t.width] ∨
    (∃ n ∈ Node.walkAll nodes, ∃ a, n.LeavesOut source.toList .angle a ∧ t.GoesWith source.toList a) ∨
    ∃ n ∈ Node.walkAll nodes, n.LeavesOut source.toList .equals t := by
  intro nodes
  have hbelow {n m : Node} (hn : n ∈ nodes) (hm : m ∈ n.walk) : m ∈ Node.walkAll nodes :=
    Node.mem_walkAll hn hm
  obtain ⟨n, hn, ⟨m, hm, hshows⟩ | ⟨a, ⟨m, hm, hout⟩, hgoes⟩ | ⟨m, hm, hout⟩⟩ :=
    Grammar.exists_accounts herrors ht hkind
  · left
    obtain ⟨category, hcategory⟩ := exists_classifies hshows hkind
    have honline : t.OnLine := (Cursor.start source.toList).onLine_tokens ht hkind
    obtain ⟨s, hlocating, -⟩ := Grammar.locating_parse source .standard
    exact map_length_highlight hlocating.gathered honline (hbelow hn hm) hcategory
  · exact .inr (.inl ⟨m, hbelow hn hm, a, hout, hgoes⟩)
  · exact .inr (.inr ⟨m, hbelow hn hm, hout⟩)

/-- The sign of an assignment behind lists of generics that one token closes. -/
theorem tokens_are_highlighted_once_behind_generics :
    let source := "Array<Array<Int32>> x = 1 + 2"
    let nodes := (Program.parse source .standard).nodes
    let sign : Token := ⟨.operator .eq, .none, ⟨⟨0, 22⟩, ⟨0, 23⟩⟩, 22, 1, 1⟩
    (Program.parse source .standard).errors = [] ∧ sign ∈ tokenize source ∧
    sign.kind.isHighlighted ∧
    (((highlight .standard nodes).filter fun r => r.start = sign.span.start).map Record.length =
        [sign.width] ∨
      (∃ n ∈ Node.walkAll nodes, ∃ a,
        n.LeavesOut source.toList .angle a ∧ sign.GoesWith source.toList a) ∨
      ∃ n ∈ Node.walkAll nodes, n.LeavesOut source.toList .equals sign) := by
  intro source nodes sign
  have herrors : (Program.parse source .standard).errors = [] := by decide +kernel
  have hmem : sign ∈ tokenize source := by decide +kernel
  exact ⟨herrors, hmem, rfl, tokens_are_highlighted_once source herrors sign hmem rfl⟩

/-- **A token may have no record though it is no bracket.** The text of the comparison is cut into
`>=` and `=` at first, and into `>` and `==` where the list of generics is closed; so no record starts
at the `=`. -/
theorem sign_behind_generics_has_no_record :
    let source := "Array<Int32>==2;"
    let nodes := (Program.parse source .standard).nodes
    (Program.parse source .standard).errors = [] ∧
    ∃ t ∈ tokenize source, t.kind = .operator .eq ∧ t.offset = 13 ∧
      ∀ r ∈ highlight .standard nodes, r.start ≠ t.span.start := by
  intro source nodes
  have hall : ∀ r ∈ nodes.flatMap (nodeRecords []), r.start ≠ ⟨0, 13⟩ := by decide +kernel
  refine ⟨by decide +kernel, ⟨.operator .eq, .none, ⟨⟨0, 13⟩, ⟨0, 14⟩⟩, 13, 1, 1⟩, by decide +kernel,
    rfl, rfl, fun r hr => ?_⟩
  rw [highlight_standard] at hr
  exact hall r (mem_of_mem_inOrder hr)

end SableFront
