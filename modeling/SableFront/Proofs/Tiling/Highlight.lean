import SableFront.Highlight
import SableFront.Proofs.Tiling.Tree

/-!
# Tiling: the highlighting of a program

A record of the highlighting shows characters of one line of one token that a node keeps. Any two
such tokens are the same or lie apart. So two records that start at different places do not overlap,
and it is enough to put the records in order and to keep one for each place.
-/

namespace SableFront

namespace Position

variable {p : Position} {cs : List Char}

/-- A text that ends on the line where it starts has no newline. -/
theorem line_of_steps (h : (p.steps cs).line = p.line) : '\n' ∉ cs := by
  induction cs generalizing p with
  | nil => exact List.not_mem_nil
  | cons c cs ih =>
    have hle := le_steps (p.step c) cs
    rw [le_def, ← steps_cons, h] at hle
    by_cases hc : c = '\n'
    · subst hc
      have hnext : (p.step '\n').line = p.line + 1 := rfl
      omega
    · have hsame : (p.step c).line = p.line := by rw [step, if_neg hc]
      rw [List.mem_cons, not_or]
      exact ⟨Ne.symm hc, ih (h.trans hsame.symm)⟩

end Position

namespace Highlight

/-- The position right behind a record. -/
def Record.stop (r : Record) : Position := ⟨r.start.line, r.start.character + r.length⟩

variable {r : Record} {t : Token} {category : Category} {modifiers : List Modifier}
  {cs ds : List Char} {p : Position}

/-! ### Lines -/

/-- The first line of a text is what comes before its first newline. -/
theorem exists_lines (cs : List Char) :
    ∃ line rest, lines cs = line :: rest ∧ '\n' ∉ line ∧ line <+: cs := by
  induction cs with
  | nil => exact ⟨[], [], rfl, List.not_mem_nil, List.nil_prefix⟩
  | cons c cs ih =>
    obtain ⟨line, rest, hlines, hline, hprefix⟩ := ih
    unfold lines
    by_cases hc : c = '\n'
    · rw [if_pos hc]
      exact ⟨[], _, rfl, List.not_mem_nil, List.nil_prefix⟩
    · rw [if_neg hc, hlines]
      refine ⟨c :: line, rest, rfl, ?_, (List.prefix_cons_inj c).mpr hprefix⟩
      rw [List.mem_cons, not_or]
      exact ⟨Ne.symm hc, hline⟩

theorem isPrefix_withoutReturn (line : List Char) : withoutReturn line <+: line := by
  unfold withoutReturn
  split
  · exact List.dropLast_prefix line
  · exact List.prefix_rfl

/-- The record shows some characters of one line of a text that starts at a position. -/
def Record.IsPartOf (r : Record) (p : Position) (text : List Char) : Prop :=
  ∃ before shown after, text = before ++ (shown ++ after) ∧ r.start = p.steps before ∧
    r.length = unitSize shown ∧ '\n' ∉ shown ∧ 0 < r.length

theorem Record.IsPartOf.cons {c : Char} (h : r.IsPartOf (p.step c) cs) : r.IsPartOf p (c :: cs) := by
  obtain ⟨before, shown, after, rfl, hstart, hrest⟩ := h
  exact ⟨c :: before, shown, after, rfl, hstart, hrest⟩

theorem isPartOf_of_mem_lineRecords (h : r ∈ lineRecords category modifiers p (lines cs)) :
    r.IsPartOf p cs := by
  -- on the text: a character is added to the first line, or starts another one
  induction cs generalizing p with
  | nil => cases h
  | cons c cs ih =>
    by_cases hc : c = '\n'
    · subst hc
      exact Record.IsPartOf.cons (ih h)
    · obtain ⟨line, rest, hlines, hline, hprefix⟩ := exists_lines cs
      have hall : lines (c :: cs) = (c :: line) :: rest := by rw [lines, if_neg hc, hlines]
      have hnext : (⟨p.line + 1, 0⟩ : Position) = ⟨(p.step c).line + 1, 0⟩ := by
        rw [Position.step, if_neg hc]
      rw [hall, lineRecords] at h
      have hothers : r ∈ lineRecords category modifiers ⟨p.line + 1, 0⟩ rest → r.IsPartOf p (c :: cs) := by
        intro hr
        refine Record.IsPartOf.cons (ih ?_)
        rw [hlines, lineRecords, ← hnext]
        split
        · exact hr
        · exact List.mem_cons_of_mem _ hr
      split at h
      · exact hothers h
      · rename_i hlength
        rcases List.mem_cons.mp h with rfl | h
        · obtain ⟨after, hafter⟩ :=
            (isPrefix_withoutReturn (c :: line)).trans ((List.prefix_cons_inj c).mpr hprefix)
          refine ⟨[], withoutReturn (c :: line), after, hafter.symm, rfl, rfl, fun hmem => ?_,
            Nat.pos_of_ne_zero hlength⟩
          rcases List.mem_cons.mp ((isPrefix_withoutReturn _).subset hmem) with hmem | hmem
          · exact hc hmem.symm
          · exact hline hmem
        · exact hothers h

/-- The records of lines start where the first line does, or at the start of a later line. -/
theorem start_of_mem_lineRecords {ls : List (List Char)}
    (h : r ∈ lineRecords category modifiers p ls) :
    r.start = p ∨ p.line < r.start.line ∧ r.start.character = 0 := by
  induction ls generalizing p with
  | nil => cases h
  | cons line rest ih =>
    have hothers : r ∈ lineRecords category modifiers ⟨p.line + 1, 0⟩ rest →
        p.line < r.start.line ∧ r.start.character = 0 := by
      intro hr
      rcases ih hr with hstart | ⟨hline, hcharacter⟩
      · rw [hstart]
        exact ⟨Nat.lt_succ_self _, rfl⟩
      · exact ⟨Nat.lt_of_succ_lt hline, hcharacter⟩
    rw [lineRecords] at h
    split at h
    · exact .inr (hothers h)
    · rcases List.mem_cons.mp h with rfl | h
      · exact .inl rfl
      · exact .inr (hothers h)

/-! ### Tokens -/

/-- A record of a token shows some of its text. -/
theorem isPartOf_of_mem_tokenRecords (ht : t.CutFrom cs) (h : r ∈ tokenRecords t category modifiers) :
    r.IsPartOf t.span.start (Text.between cs t.offset t.stop) := by
  unfold tokenRecords at h
  split at h
  · cases h
  · rename_i hwidth
    split at h
    · rename_i hline
      rw [List.mem_singleton.mp h]
      refine ⟨[], Text.between cs t.offset t.stop, [], (List.append_nil _).symm, rfl, ht.width,
        Position.line_of_steps (p := t.span.start) ?_, Nat.pos_of_ne_zero hwidth⟩
      rw [ht.span] at hline ⊢
      rwa [← Text.positionAt_eq_steps ht.boundary_offset ht.boundary_stop t.offset_le_stop]
    · split at h
      · rename_i text htext
        have hpart := isPartOf_of_mem_lineRecords h
        rwa [ht.text text htext] at hpart
      · cases h

/-- Two records of one token on one line start at the same place. -/
theorem start_eq_of_mem_tokenRecords {r' : Record} {category' : Category}
    {modifiers' : List Modifier} (h : r ∈ tokenRecords t category modifiers)
    (h' : r' ∈ tokenRecords t category' modifiers') (hline : r.start.line = r'.start.line) :
    r.start = r'.start := by
  have hstart {r : Record} {category : Category} {modifiers : List Modifier}
      (h : r ∈ tokenRecords t category modifiers) :
      r.start = t.span.start ∨ t.span.start.line < r.start.line ∧ r.start.character = 0 := by
    unfold tokenRecords at h
    split at h
    · cases h
    · split at h
      · rw [List.mem_singleton.mp h]
        exact .inl rfl
      · split at h
        · exact start_of_mem_lineRecords h
        · cases h
  rcases hstart h with heq | ⟨hlt, hzero⟩
  · rcases hstart h' with heq' | ⟨hlt', -⟩
    · rw [heq, heq']
    · rw [← hline, heq] at hlt'
      exact absurd hlt' (Nat.lt_irrefl _)
  · rcases hstart h' with heq' | ⟨-, hzero'⟩
    · rw [hline, heq'] at hlt
      exact absurd hlt (Nat.lt_irrefl _)
    · obtain ⟨⟨line, character⟩, _⟩ := r
      obtain ⟨⟨line', character'⟩, _⟩ := r'
      cases hline
      cases hzero
      cases hzero'
      rfl

/-- The record shows a piece of one line, which is what lies between two boundaries of the text. -/
structure Record.Covers (cs : List Char) (r : Record) (a b : Nat) : Prop where
  boundary_start : Text.IsBoundary cs a
  boundary_stop : Text.IsBoundary cs b
  le : a ≤ b
  start : r.start = Text.positionAt cs a
  stop : r.stop = Text.positionAt cs b
  line : '\n' ∉ Text.between cs a b
  length : 0 < r.length

/-- A record of a token covers a part of it. -/
theorem covers_of_mem_tokenRecords (ht : t.CutFrom cs) (h : r ∈ tokenRecords t category modifiers) :
    ∃ a b, t.offset ≤ a ∧ b ≤ t.stop ∧ r.Covers cs a b := by
  obtain ⟨before, shown, after, htext, hstart, hlength, hline, hpos⟩ := isPartOf_of_mem_tokenRecords ht h
  obtain ⟨ahead, behind, hcs, hahead, hupTo⟩ :=
    ht.boundary_offset.exists_between ht.boundary_stop t.offset_le_stop
  rw [htext] at hcs hupTo
  have hparts : cs = (ahead ++ before) ++ (shown ++ (after ++ behind)) := by
    rw [hcs]
    simp only [List.append_assoc]
  have hfirst : Text.IsBoundary cs (byteSize (ahead ++ before)) := ⟨_, _, hparts, rfl⟩
  have hlast : Text.IsBoundary cs (byteSize (ahead ++ before ++ shown)) :=
    ⟨_, after ++ behind, by rw [hparts]; simp only [List.append_assoc], rfl⟩
  have hle : byteSize (ahead ++ before) ≤ byteSize (ahead ++ before ++ shown) := by
    rw [byteSize_append (ahead ++ before)]
    exact Nat.le_add_right _ _
  have hbetween : Text.between cs (byteSize (ahead ++ before)) (byteSize (ahead ++ before ++ shown)) =
      shown := by
    rw [hparts, Text.between_append]
  have hposition : r.start = Text.positionAt cs (byteSize (ahead ++ before)) := by
    rw [hstart, ht.span, ← hahead, hparts, Text.positionAt_append, Position.steps_append,
      List.append_assoc, Text.positionAt_append]
  refine ⟨_, _, ?_, ?_, ⟨hfirst, hlast, hle, hposition, ?_, ?_, hpos⟩⟩
  · rw [byteSize_append, hahead]
    exact Nat.le_add_right _ _
  · rw [← hupTo]
    simp only [byteSize_append]
    omega
  · rw [Text.positionAt_eq_steps hfirst hlast hle, hbetween, Position.steps_of_line hline, ← hposition,
      Record.stop, hlength]
  · rw [hbetween]
    exact hline

/-! ### Nodes -/

/-- The node shows a token that it keeps as this. -/
inductive Classifies (n : Node) : Token → Category → Prop
  | anchor {category : Category} (h : categoryOf n.data = some category) :
      Classifies n n.token category
  | mark {t : Token} {category : Category} (ht : t ∈ n.marks)
      (h : categoryOfKind t.kind = some category) : Classifies n t category
  | comment {t : Token} (ht : t ∈ n.leading ∨ t ∈ n.trailing) : Classifies n t .comment

theorem Classifies.mem_ownTokens {n : Node} (h : Classifies n t category) : t ∈ n.ownTokens := by
  cases h with
  | anchor => exact n.token_mem_ownTokens
  | mark ht => exact Node.mem_ownTokens.mpr (.inr (.inl ht))
  | comment ht => exact Node.mem_ownTokens.mpr (.inr (.inr ht))

/-- The record is one of a token that one of the nodes shows. -/
def Record.IsShownBy (r : Record) (ns : List Node) : Prop :=
  ∃ n ∈ ns, ∃ t category, Classifies n t category ∧ ∃ modifiers, r ∈ tokenRecords t category modifiers

theorem Record.IsShownBy.mono {ms ns : List Node} (h : r.IsShownBy ms) (hns : ms ⊆ ns) :
    r.IsShownBy ns := by
  obtain ⟨n, hn, hrest⟩ := h
  exact ⟨n, hns hn, hrest⟩

theorem isShownBy_of_mem_comments {n : Node} {ts : List Token} (h : r ∈ ts.flatMap commentRecords)
    (hts : ∀ t ∈ ts, t ∈ n.leading ∨ t ∈ n.trailing) : r.IsShownBy [n] := by
  obtain ⟨t, ht, hr⟩ := List.mem_flatMap.mp h
  exact ⟨n, List.mem_singleton_self n, t, _, .comment (hts t ht), _, hr⟩

theorem isShownBy_of_mem_marks {n : Node} (h : r ∈ n.marks.flatMap markRecords) :
    r.IsShownBy [n] := by
  obtain ⟨t, ht, hr⟩ := List.mem_flatMap.mp h
  unfold markRecords at hr
  split at hr
  · rename_i hcategory
    exact ⟨n, List.mem_singleton_self n, t, _, .mark ht hcategory, _, hr⟩
  · cases hr

mutual

/-- The records of a tree are records of tokens that its nodes show. -/
theorem isShownBy_of_mem_nodeRecords : ∀ (n : Node) (passed : List Modifier),
    r ∈ nodeRecords passed n → r.IsShownBy n.walk
  | .mk data children, passed, h => by
    have hself {r : Record} (hr : r.IsShownBy [.mk data children]) :
        r.IsShownBy (Node.mk data children).walk :=
      hr.mono (List.cons_subset.mpr ⟨Node.mem_walk_self _, List.nil_subset _⟩)
    rw [nodeRecords] at h
    simp only [List.mem_append] at h
    rcases h with (((h | h) | h) | h) | h
    · exact hself (isShownBy_of_mem_comments h fun t ht => .inl ht)
    · split at h
      · rename_i hcategory
        exact hself ⟨_, List.mem_singleton_self _, _, _, .anchor hcategory, _, h⟩
      · cases h
    · exact hself (isShownBy_of_mem_marks h)
    · rw [Node.walk]
      exact (isShownBy_of_mem_childRecords children _ h).mono (List.subset_cons_self _ _)
    · exact hself (isShownBy_of_mem_comments h fun t ht => .inr ht)

theorem isShownBy_of_mem_childRecords : ∀ (ns : List Node) (passed : List (List Modifier)),
    r ∈ childRecords passed ns → r.IsShownBy (Node.walkAll ns)
  | [], passed, h => by
    rw [childRecords] at h
    cases h
  | n :: ns, passed, h => by
    have hcases : (∃ own, r ∈ nodeRecords own n) ∨ ∃ others, r ∈ childRecords others ns := by
      cases passed with
      | nil =>
        rw [childRecords] at h
        exact (List.mem_append.mp h).imp (fun h => ⟨_, h⟩) fun h => ⟨_, h⟩
      | cons own others =>
        rw [childRecords] at h
        exact (List.mem_append.mp h).imp (fun h => ⟨_, h⟩) fun h => ⟨_, h⟩
    rw [Node.walkAll]
    rcases hcases with ⟨own, h⟩ | ⟨others, h⟩
    · exact (isShownBy_of_mem_nodeRecords n own h).mono (List.subset_append_left _ _)
    · exact (isShownBy_of_mem_childRecords ns others h).mono (List.subset_append_right _ _)

end

theorem isShownBy_of_mem_flatMap {nodes : List Node} (h : r ∈ nodes.flatMap (nodeRecords [])) :
    r.IsShownBy (Node.walkAll nodes) := by
  obtain ⟨n, hn, hrecord⟩ := List.mem_flatMap.mp h
  exact (isShownBy_of_mem_nodeRecords n [] hrecord).mono fun m hm => Node.mem_walkAll hn hm

/-- The record is one of a token that one of the nodes keeps. -/
def Record.IsOf (r : Record) (ns : List Node) : Prop :=
  ∃ n ∈ ns, ∃ t ∈ n.ownTokens, ∃ category modifiers, r ∈ tokenRecords t category modifiers

theorem isOf_of_mem_nodeRecords (n : Node) (passed : List Modifier)
    (h : r ∈ nodeRecords passed n) : r.IsOf n.walk := by
  obtain ⟨m, hm, t, category, hshown, modifiers, hr⟩ := isShownBy_of_mem_nodeRecords n passed h
  exact ⟨m, hm, t, hshown.mem_ownTokens, category, modifiers, hr⟩

/-! ### Order -/

theorem mem_of_mem_firstsAfter {last : Record} {rs : List Record} (h : r ∈ firstsAfter last rs) :
    r ∈ rs := by
  induction rs generalizing last with
  | nil => cases h
  | cons s rs ih =>
    unfold firstsAfter at h
    split at h
    · exact List.mem_cons_of_mem _ (ih h)
    · rcases List.mem_cons.mp h with rfl | h
      · exact List.mem_cons_self
      · exact List.mem_cons_of_mem _ (ih h)

/-- Of records in order those that are kept start at different places. -/
theorem pairwise_firstsAfter {last : Record} {rs : List Record}
    (h : (last :: rs).Pairwise fun r r' => r.start ≤ r'.start) :
    (last :: firstsAfter last rs).Pairwise fun r r' => r.start < r'.start := by
  induction rs generalizing last with
  | nil => exact List.pairwise_singleton _ _
  | cons s rs ih =>
    obtain ⟨hlast, hrs⟩ := List.pairwise_cons.mp h
    unfold firstsAfter
    split
    · exact ih (List.pairwise_cons.mpr
        ⟨fun r hr => hlast r (List.mem_cons_of_mem _ hr), (List.pairwise_cons.mp hrs).2⟩)
    · rename_i hne
      have hfirst : last.start < s.start :=
        Position.lt_of_le_of_ne (hlast s List.mem_cons_self) (Ne.symm hne)
      have hothers := ih hrs
      refine List.pairwise_cons.mpr ⟨fun r hr => ?_, hothers⟩
      rcases List.mem_cons.mp hr with rfl | hr
      · exact hfirst
      · exact Position.lt_of_lt_of_le hfirst
          (Position.le_of_lt ((List.pairwise_cons.mp hothers).1 r hr))

theorem mem_of_mem_inOrder {rs : List Record} (h : r ∈ inOrder rs) : r ∈ rs := by
  unfold inOrder at h
  cases hsorted : rs.mergeSort fun a b => decide (a.start ≤ b.start) with
  | nil =>
    rw [hsorted] at h
    cases h
  | cons s ss =>
    rw [hsorted] at h
    have hmem : r ∈ s :: ss :=
      (List.mem_cons.mp h).elim (fun h => h ▸ List.mem_cons_self)
        fun h => List.mem_cons_of_mem _ (mem_of_mem_firstsAfter h)
    rw [← hsorted] at hmem
    exact List.mem_mergeSort.mp hmem

theorem exists_mem_firstsAfter {last : Record} {rs : List Record} (h : r ∈ rs) :
    ∃ s ∈ last :: firstsAfter last rs, s.start = r.start := by
  induction rs generalizing last with
  | nil => cases h
  | cons s rs ih =>
    unfold firstsAfter
    by_cases hsame : s.start = last.start
    · rw [if_pos hsame]
      rcases List.mem_cons.mp h with rfl | h
      · exact ⟨last, List.mem_cons_self, hsame.symm⟩
      · exact ih h
    · rw [if_neg hsame]
      rcases List.mem_cons.mp h with rfl | h
      · exact ⟨r, by simp, rfl⟩
      · obtain ⟨found, hfound, hstart⟩ : ∃ u ∈ s :: firstsAfter s rs, u.start = r.start := ih h
        exact ⟨found, List.mem_cons_of_mem _ hfound, hstart⟩

/-- Of the records for a place one is kept. -/
theorem exists_mem_inOrder {rs : List Record} (h : r ∈ rs) :
    ∃ s ∈ inOrder rs, s.start = r.start := by
  have hmem : r ∈ rs.mergeSort fun a b => decide (a.start ≤ b.start) := List.mem_mergeSort.mpr h
  unfold inOrder
  cases hsorted : rs.mergeSort fun a b => decide (a.start ≤ b.start) with
  | nil =>
    rw [hsorted] at hmem
    cases hmem
  | cons first rest =>
    rw [hsorted] at hmem
    rcases List.mem_cons.mp hmem with rfl | hmem
    · exact ⟨r, List.mem_cons_self, rfl⟩
    · exact exists_mem_firstsAfter hmem

/-- **Records that are put in order** start one behind the other. -/
theorem pairwise_inOrder (rs : List Record) : (inOrder rs).Pairwise fun r r' => r.start < r'.start := by
  have hsorted : (rs.mergeSort fun a b => decide (a.start ≤ b.start)).Pairwise
      fun r r' => r.start ≤ r'.start := by
    refine (List.pairwise_mergeSort (fun a b c hab hbc => ?_) (fun a b => ?_) rs).imp of_decide_eq_true
    · exact decide_eq_true (Position.le_trans (of_decide_eq_true hab) (of_decide_eq_true hbc))
    · rw [Bool.or_eq_true, decide_eq_true_iff, decide_eq_true_iff]
      exact Position.le_total _ _
  unfold inOrder
  cases hcases : rs.mergeSort fun a b => decide (a.start ≤ b.start) with
  | nil => exact .nil
  | cons s ss =>
    rw [hcases] at hsorted
    exact pairwise_firstsAfter hsorted

/-- Records of tokens that are the same or lie apart start at the same place or do not overlap. -/
theorem stop_le_of_lt {T : Token → Prop} {current t' : Token} {r' : Record}
    {category' : Category} {modifiers' : List Modifier} (hT : Gathered cs T current) (ht : T t)
    (ht' : T t') (h : r ∈ tokenRecords t category modifiers)
    (h' : r' ∈ tokenRecords t' category' modifiers') (hlt : r.start < r'.start) :
    r.stop ≤ r'.start := by
  rcases hT.apart t t' ht ht' with rfl | happart
  · -- in one token, on different lines
    rw [Position.lt_def] at hlt
    rcases hlt with hline | ⟨hline, hcharacter⟩
    · exact .inl hline
    · rw [start_eq_of_mem_tokenRecords h h' hline] at hcharacter
      exact absurd hcharacter (Nat.lt_irrefl _)
  · obtain ⟨a, b, ha, hb, hcovers⟩ := covers_of_mem_tokenRecords (hT.cut t ht) h
    obtain ⟨a', b', ha', hb', hcovers'⟩ := covers_of_mem_tokenRecords (hT.cut t' ht') h'
    rcases happart with hle | hle
    · rw [hcovers.stop, hcovers'.start]
      exact Text.positionAt_mono cs (by omega)
    · -- the other token comes first, and so does its record
      have hback : r'.start ≤ r.start := by
        rw [hcovers.start, hcovers'.start]
        have hle' := hcovers'.le
        exact Text.positionAt_mono cs (by omega)
      exact absurd hback (Position.not_le_of_lt hlt)

end Highlight

open Highlight

/-- **The highlighting of a program is well formed.** Its records are in the order of the text, one
for each place; none is empty, and none reaches into the next one. Each of them shows a piece of one
line of the text, which is found between its ends. -/
theorem highlighting_is_well_formed (source : String) (config : ParseConfig)
    (shown : HighlightConfig) :
    let rs := highlight shown (Program.parse source config).nodes
    rs.Pairwise (fun r r' => r.start < r'.start ∧
      (r.start.line = r'.start.line → r.start.character + r.length ≤ r'.start.character)) ∧
    ∀ r ∈ rs, 0 < r.length ∧
      ∃ text, Text.slice? source.toList
        ⟨r.start, ⟨r.start.line, r.start.character + r.length⟩⟩ = some text ∧ '\n' ∉ text := by
  intro rs
  obtain ⟨s, hlocating, -⟩ := Grammar.locating_parse source config
  have hgathered := hlocating.gathered
  have htoken (r : Record) (hr : r ∈ rs) :
      ∃ t, Piece.Kept ((Program.parse source config).nodes.map .node) t ∧
        ∃ category modifiers, r ∈ tokenRecords t category modifiers := by
    obtain ⟨n, hn, hrecord⟩ := List.mem_flatMap.mp (List.mem_filter.mp (mem_of_mem_inOrder hr)).1
    obtain ⟨m, hm, t, ht, hfrom⟩ := isOf_of_mem_nodeRecords n [] hrecord
    exact ⟨t, ⟨_, List.mem_map.mpr ⟨n, hn, rfl⟩, .node hm ht⟩, hfrom⟩
  refine ⟨(pairwise_inOrder _).imp_of_mem fun {r r'} hr hr' hlt => ⟨hlt, fun hline => ?_⟩,
    fun r hr => ?_⟩
  · obtain ⟨t, ht, category, modifiers, h⟩ := htoken r hr
    obtain ⟨t', ht', category', modifiers', h'⟩ := htoken r' hr'
    rcases stop_le_of_lt hgathered ht ht' h h' hlt with hbefore | ⟨-, hle⟩
    · exact absurd hline (Nat.ne_of_lt hbefore)
    · exact hle
  · obtain ⟨t, ht, category, modifiers, h⟩ := htoken r hr
    obtain ⟨a, b, -, -, hcovers⟩ := covers_of_mem_tokenRecords (hgathered.cut t ht) h
    refine ⟨hcovers.length, _, ?_, hcovers.line⟩
    have hspan : (⟨r.start, ⟨r.start.line, r.start.character + r.length⟩⟩ : Span) =
        ⟨Text.positionAt source.toList a, Text.positionAt source.toList b⟩ :=
      congrArg₂ Span.mk hcovers.start hcovers.stop
    rw [hspan]
    exact Text.slice?_positionAt hcovers.boundary_start hcovers.boundary_stop hcovers.le

end SableFront
