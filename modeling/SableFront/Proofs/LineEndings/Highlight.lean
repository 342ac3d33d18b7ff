import SableFront.Proofs.LineEndings.Records

/-!
# Line endings: highlighting

The trees of a text and of the text with returns look alike on their lines, and a tree says by its
forms and kinds what is shown as what. So the nodes of both give the same records in the same order,
but for what becomes of each in the text with returns. Which records are shown, and where each stands
among the others, depends on their places and categories, and these stay.

A line comment before a newline does take the return in, and its record is longer by one: only a text
whose line comments end with it is shown the same with returns.
-/

namespace SableFront

open Text Highlight

namespace Highlight

variable {f : Record → Record}

/-! ### Trees that look alike -/

section Trees

variable {data data' : NodeData} {n n' : Node} {ns ns' children children' : List Node}

/-- Tokens that look alike and that nodes of both lists show as the same have as many records, each
as the function makes it. -/
def Carries (f : Record → Record) (ns ns' : List Node) : Prop :=
  ∀ n ∈ ns, ∀ n' ∈ ns', ∀ t t' category, Classifies n t category → Classifies n' t' category →
    View.lined.Alike t t' → ∀ modifiers,
      tokenRecords t' category modifiers = (tokenRecords t category modifiers).map f

theorem Carries.mono {ms ms' : List Node} (h : Carries f ns ns') (hms : ms ⊆ ns) (hms' : ms' ⊆ ns') :
    Carries f ms ms' :=
  fun n hn n' hn' => h n (hms hn) n' (hms' hn')

theorem flatMap_forall₂ {α : Type} {R : α → α → Prop} {g : α → List Record} {as as' : List α}
    (h : List.Forall₂ R as as') (hg : ∀ a ∈ as, ∀ a' ∈ as', R a a' → g a' = (g a).map f) :
    as'.flatMap g = (as.flatMap g).map f := by
  induction h with
  | nil => rfl
  | cons hR _ ih =>
    rw [List.flatMap_cons, List.flatMap_cons, List.map_append,
      hg _ List.mem_cons_self _ List.mem_cons_self hR,
      ih fun a ha a' ha' => hg a (List.mem_cons_of_mem _ ha) a' (List.mem_cons_of_mem _ ha')]

theorem categoryOf_alike (h : View.lined.Alike data.token data'.token)
    (hform : data.form = data'.form) : categoryOf data = categoryOf data' := by
  rw [categoryOf, categoryOf, hform, kind_alike h]

theorem storageModifiers_alike {storage storage' : Option Node}
    (h : View.lined.Alike storage storage') : storageModifiers storage = storageModifiers storage' := by
  cases h with
  | none => rfl
  | some h =>
    have htoken := Node.token_eq h
    rw [storageModifiers, storageModifiers, isKeyword_alike htoken, isKeyword_alike htoken]

theorem storageOfType_alike (h : View.lined.Alike n n') :
    View.lined.Alike (storageOfType n) (storageOfType n') := by
  have hchildren : View.lined.Alike n.children n'.children := Node.children_eq h rfl
  rw [storageOfType, storageOfType, Node.form_eq h]
  split
  · rw [List.head?_eq_getElem?, List.head?_eq_getElem?]
    exact getElem?_alike hchildren 0
  · exact .none

theorem passedOn_alike (hform : data.form = data'.form) (h : View.lined.Alike children children') :
    passedOn data children = passedOn data' children' := by
  rw [passedOn, passedOn, hform]
  split
  · have hstorage : View.lined.Alike (children.head?.bind storageOfType)
        (children'.head?.bind storageOfType) := by
      cases h with
      | nil => exact .none
      | cons hn _ => exact storageOfType_alike hn
    rw [storageModifiers_alike hstorage]
  · dsimp only
    rw [storageModifiers_alike (getElem?_alike h _)]
  · rfl

/-- The records of comments that belong to nodes. -/
theorem comments_alike {ts ts' : List Token} (h : View.lined.Alike ts ts')
    (hcarries : Carries f [n] [n']) (hts : ∀ t ∈ ts, t ∈ n.leading ∨ t ∈ n.trailing)
    (hts' : ∀ t ∈ ts', t ∈ n'.leading ∨ t ∈ n'.trailing) :
    ts'.flatMap commentRecords = (ts.flatMap commentRecords).map f :=
  flatMap_forall₂ h fun t ht t' ht' halike =>
    hcarries n (List.mem_singleton_self n) n' (List.mem_singleton_self n') t t' _
      (.comment (hts t ht)) (.comment (hts' t' ht')) halike []

/-- The records of marks. -/
theorem marks_alike (h : View.lined.Alike data.marks data'.marks)
    (hcarries : Carries f [.mk data children] [.mk data' children']) :
    data'.marks.flatMap markRecords = (data.marks.flatMap markRecords).map f := by
  refine flatMap_forall₂ h fun t ht t' ht' halike => ?_
  rw [markRecords, markRecords, ← kind_alike halike]
  split
  · rename_i hcategory
    exact hcarries _ (List.mem_singleton_self _) _ (List.mem_singleton_self _) t t' _
      (.mark ht hcategory) (.mark ht' (kind_alike halike ▸ hcategory)) halike []
  · rfl

/-- The records of a node's anchor. -/
def anchorRecords (passed : List Modifier) (data : NodeData) : List Record :=
  match categoryOf data with
  | some category => tokenRecords data.token category (Modifier.union (modifiersOf data) passed)
  | none => []

theorem nodeRecords_mk (passed : List Modifier) (data : NodeData) (children : List Node) :
    nodeRecords passed (.mk data children) =
      data.leading.flatMap commentRecords ++ anchorRecords passed data ++
        data.marks.flatMap markRecords ++ childRecords (passedOn data children) children ++
        data.trailing.flatMap commentRecords := by
  rw [nodeRecords]
  rfl

theorem anchorRecords_alike (passed : List Modifier) (h : View.lined.Alike data.token data'.token)
    (hform : data.form = data'.form)
    (hcarries : Carries f [.mk data children] [.mk data' children']) :
    anchorRecords passed data' = (anchorRecords passed data).map f := by
  have hcategory := categoryOf_alike h hform
  have hmodifiers : modifiersOf data = modifiersOf data' := by
    rw [modifiersOf, modifiersOf, hform]
  rw [anchorRecords, anchorRecords, ← hcategory, ← hmodifiers]
  split
  · rename_i hshown
    exact hcarries _ (List.mem_singleton_self _) _ (List.mem_singleton_self _) _ _ _
      (.anchor hshown) (.anchor (hcategory ▸ hshown)) h _
  · rfl

mutual

/-- **The records of trees that look alike** correspond, if those of their tokens do. -/
theorem nodeRecords_alike : ∀ (n n' : Node) (passed : List Modifier), View.lined.Alike n n' →
    Carries f n.walk n'.walk → nodeRecords passed n' = (nodeRecords passed n).map f
  | .mk data children, .mk data' children', passed, h, hcarries => by
    have hform : data.form = data'.form := Node.form_eq h
    have htoken : View.lined.Alike data.token data'.token := Node.token_eq h
    have hchildren : View.lined.Alike children children' := Node.children_eq h rfl
    have hdata := Node.data_alike h
    have hleads : View.lined.Alike data.leading data'.leading :=
      forall₂_of_map_eq (congrArg NodeData.leading hdata)
    have htrails : View.lined.Alike data.trailing data'.trailing :=
      forall₂_of_map_eq (congrArg NodeData.trailing hdata)
    have hmarked : View.lined.Alike data.marks data'.marks :=
      forall₂_of_map_eq (congrArg NodeData.marks hdata)
    have hself : Carries f [.mk data children] [.mk data' children'] :=
      hcarries.mono (List.cons_subset.mpr ⟨Node.mem_walk_self _, List.nil_subset _⟩)
        (List.cons_subset.mpr ⟨Node.mem_walk_self _, List.nil_subset _⟩)
    have hbelow : Carries f (Node.walkAll children) (Node.walkAll children') :=
      hcarries.mono (List.subset_cons_self _ _) (List.subset_cons_self _ _)
    have hleading := comments_alike hleads hself (fun _ => .inl) fun _ => .inl
    have htrailing := comments_alike htrails hself (fun _ => .inr) fun _ => .inr
    have hmarks := marks_alike hmarked hself
    have hanchor := anchorRecords_alike passed htoken hform hself
    rw [nodeRecords_mk, nodeRecords_mk, hleading, hanchor, hmarks, ← passedOn_alike hform hchildren,
      childRecords_alike children children' _ hchildren hbelow, htrailing]
    simp only [List.map_append]

theorem childRecords_alike : ∀ (ns ns' : List Node) (passed : List (List Modifier)),
    View.lined.Alike ns ns' → Carries f (Node.walkAll ns) (Node.walkAll ns') →
    childRecords passed ns' = (childRecords passed ns).map f
  | [], _, _, .nil, _ => by
    rw [childRecords]
    rfl
  | n :: ns, n' :: ns', passed, .cons hn hns, hcarries => by
    have hfirst : Carries f n.walk n'.walk :=
      hcarries.mono (List.subset_append_left _ _) (List.subset_append_left _ _)
    have hothers : Carries f (Node.walkAll ns) (Node.walkAll ns') :=
      hcarries.mono (List.subset_append_right _ _) (List.subset_append_right _ _)
    cases passed with
    | nil =>
      rw [childRecords, childRecords, List.map_append, nodeRecords_alike n n' [] hn hfirst,
        childRecords_alike ns ns' [] hns hothers]
    | cons own rest =>
      rw [childRecords, childRecords, List.map_append, nodeRecords_alike n n' own hn hfirst,
        childRecords_alike ns ns' rest hns hothers]

end

end Trees

/-! ### Records in order -/

section Order

variable {nodes nodes' : List Node} {source : String} {r : Record}

theorem firstsAfter_map (hf : ∀ r, (f r).start = r.start) (last : Record) (rs : List Record) :
    firstsAfter (f last) (rs.map f) = (firstsAfter last rs).map f := by
  induction rs generalizing last with
  | nil => rfl
  | cons r rs ih =>
    rw [List.map_cons, firstsAfter, firstsAfter, hf, hf]
    split
    · exact ih last
    · rw [ih r, List.map_cons]

/-- The order of records depends on their places alone. -/
theorem inOrder_map (hf : ∀ r, (f r).start = r.start) (rs : List Record) :
    inOrder (rs.map f) = (inOrder rs).map f := by
  have hsorted : (rs.map f).mergeSort (fun a b => decide (a.start ≤ b.start)) =
      (rs.mergeSort fun a b => decide (a.start ≤ b.start)).map f :=
    (List.map_mergeSort fun a _ b _ => by rw [hf, hf]).symm
  rw [inOrder, inOrder, hsorted]
  cases rs.mergeSort fun a b => decide (a.start ≤ b.start) with
  | nil => rfl
  | cons r rs => rw [List.map_cons, firsts, firsts, firstsAfter_map hf, List.map_cons]

/-- Which records are shown depends on their categories. -/
theorem highlight_map (hstart : ∀ r, (f r).start = r.start)
    (hcategory : ∀ r, (f r).category = r.category) (shown : HighlightConfig)
    (h : nodes'.flatMap (nodeRecords []) = (nodes.flatMap (nodeRecords [])).map f) :
    highlight shown nodes' = (highlight shown nodes).map f := by
  have hshown : ((fun r : Record => shows shown r.category) ∘ f) = fun r => shows shown r.category :=
    funext fun r => congrArg (shows shown) (hcategory r)
  rw [highlight, highlight, h, List.filter_map, hshown, inOrder_map hstart]

/-- Where no line comment meets a newline, no record becomes longer. -/
theorem inReturns_of_ends (hends : ∀ t ∈ tokenize source, t.kind = .lineComment →
    t.stop = source.utf8ByteSize) : r.inReturns source = r := by
  refine if_neg fun hlonger => ?_
  obtain ⟨t, ht, hboth⟩ := List.any_eq_true.mp hlonger.2
  obtain ⟨hkind, hlt⟩ := Token.meetsNewline_iff.mp (Bool.and_eq_true_iff.mp hboth).1
  exact absurd (hends t ht hkind) (Nat.ne_of_lt hlt)

/-- Comments are shown only if this is asked for. -/
theorem comments_of_mem_highlight {shown : HighlightConfig} (h : r ∈ highlight shown nodes)
    (hcategory : r.category = .comment) : shown.comments := by
  have hshown := (List.mem_filter.mp (mem_of_mem_inOrder h)).2
  rw [hcategory] at hshown
  exact hshown

/-- A record that is the only one at its place is kept. -/
theorem mem_highlight_of_alone (hr : r ∈ nodes.flatMap (nodeRecords []))
    (halone : ∀ s ∈ nodes.flatMap (nodeRecords []), s.start = r.start → s = r) :
    r ∈ highlight .standard nodes := by
  obtain ⟨s, hs, hstart⟩ := exists_mem_inOrder hr
  rw [highlight_standard]
  exact halone s (mem_of_mem_inOrder hs) hstart ▸ hs

end Order

end Highlight

/-- The records of both texts, in the order in which they are found. -/
theorem Grammar.records_withReturns {source : String} (hreturn : '\r' ∉ source.toList)
    (config : ParseConfig) :
    (Program.parse (String.ofList (withReturns source.toList)) config).nodes.flatMap (nodeRecords []) =
      ((Program.parse source config).nodes.flatMap (nodeRecords [])).map
        (Record.inReturns source) := by
  have halike := Node.alike_of_seenAll
    (Grammar.Simulation.parse_withReturns hreturn String.toList_ofList config)
  refine flatMap_forall₂ halike fun n hn n' hn' h => nodeRecords_alike n n' [] h ?_
  intro m hm m' hm' t t' category hshown hshown' htokens modifiers
  replace hm := Node.mem_walkAll hn hm
  replace hm' := Node.mem_walkAll hn' hm'
  have hfits := (Grammar.suits_of_mem_walkAll hm).fits hshown
  refine tokenRecords_alike hreturn (fun hcomment => ?_) (fun hcomment => ?_) hfits htokens modifiers
  · exact Grammar.mem_comments_of_mem_walkAll hm hshown.mem_ownTokens hcomment
  · have hfound := Grammar.mem_comments_of_mem_walkAll hm' hshown'.mem_ownTokens hcomment
    rwa [String.toList_ofList] at hfound

/-- **Highlighting with returns.** Whatever the text without carriage returns, the highlighting of
the text with a return before each newline is that of the text, record by record, but that of a line
comment before a newline is longer by one. So the highlighting is the same if each line comment that
is shown ends with the text. -/
theorem returns_lengthen_line_comments (source : String) (hreturn : '\r' ∉ source.toList)
    (config : ParseConfig) (shown : HighlightConfig) :
    let nodes := (Program.parse source config).nodes
    let nodes' := (Program.parse (String.ofList (withReturns source.toList)) config).nodes
    highlight shown nodes' = (highlight shown nodes).map (Record.inReturns source) ∧
    ((shown.comments → ∀ t ∈ tokenize source, t.kind = .lineComment →
        t.stop = source.utf8ByteSize) →
      highlight shown nodes' = highlight shown nodes) := by
  intro nodes nodes'
  have hrecords : highlight shown nodes' = (highlight shown nodes).map (Record.inReturns source) :=
    highlight_map (start_inReturns source) (category_inReturns source) shown
      (Grammar.records_withReturns hreturn config)
  refine ⟨hrecords, fun hends => hrecords.trans (map_eq_self fun r hr => ?_)⟩
  by_cases hcategory : r.category = .comment
  · exact inReturns_of_ends (hends (comments_of_mem_highlight hr hcategory))
  · exact inReturns_of_category hcategory

theorem block_comment_keeps_records :
    let source := "/* a\nb */ x // c"
    let returned := String.ofList (withReturns source.toList)
    '\r' ∉ source.toList ∧ returned = "/* a\r\nb */ x // c" ∧
    highlight .standard (Program.parse returned .standard).nodes =
      highlight .standard (Program.parse source .standard).nodes :=
  ⟨by decide, by decide +kernel,
    (returns_lengthen_line_comments "/* a\nb */ x // c" (by decide) .standard .standard).2
      fun _ => by decide +kernel⟩

/-- A line comment before a newline is shown with the return that it takes in. -/
theorem line_comment_takes_return_in :
    let source := "// c\nx"
    let returned := String.ofList (withReturns source.toList)
    '\r' ∉ source.toList ∧ returned = "// c\r\nx" ∧
    ⟨⟨0, 0⟩, 4, .comment, []⟩ ∈ highlight .standard (Program.parse source .standard).nodes ∧
    ⟨⟨0, 0⟩, 5, .comment, []⟩ ∈ highlight .standard (Program.parse returned .standard).nodes ∧
    highlight .standard (Program.parse returned .standard).nodes ≠
      highlight .standard (Program.parse source .standard).nodes := by
  intro source returned
  have hshort : ∀ r ∈ (Program.parse source .standard).nodes.flatMap (nodeRecords []),
      r.start = ⟨0, 0⟩ → r = ⟨⟨0, 0⟩, 4, .comment, []⟩ := by decide +kernel
  have hlong : ∀ r ∈ (Program.parse returned .standard).nodes.flatMap (nodeRecords []),
      r.start = ⟨0, 0⟩ → r = ⟨⟨0, 0⟩, 5, .comment, []⟩ := by decide +kernel
  have hlonger := mem_highlight_of_alone (r := ⟨⟨0, 0⟩, 5, .comment, []⟩) (by decide +kernel) hlong
  refine ⟨by decide, by decide +kernel, mem_highlight_of_alone (by decide +kernel) hshort, hlonger,
    fun hsame => ?_⟩
  rw [hsame, highlight_standard] at hlonger
  cases hshort _ (mem_of_mem_inOrder hlonger) rfl

end SableFront
