import SableFront.Tree.Basic
import SableFront.Proofs.Tiling.Token

/-!
# Tiling: positions, boundaries and spans

Positions grow with offsets, and at the boundaries between characters no two offsets have the same
position (`le_of_positionAt_le`). So a boundary is found again by its position, and a span whose ends
are the positions of two boundaries covers the text between them (`slice?_of_liesIn`). Such spans are
closed under `merge` and `hull`, which give the least span around others.
-/

namespace SableFront

namespace Position

variable {p q r : Position}

/-! ### The order of positions -/

theorem le_refl (p : Position) : p ≤ p := .inr ⟨rfl, Nat.le_refl _⟩

theorem le_trans (h : p ≤ q) (h' : q ≤ r) : p ≤ r := by
  rw [le_def] at *
  omega

theorem le_total (p q : Position) : p ≤ q ∨ q ≤ p := by
  rw [le_def, le_def]
  omega

theorem le_antisymm (h : p ≤ q) (h' : q ≤ p) : p = q := by
  obtain ⟨line, character⟩ := p
  obtain ⟨line', character'⟩ := q
  rw [le_def] at h h'
  simp only [Position.mk.injEq]
  simp only at h h'
  omega

theorem le_of_lt (h : p < q) : p ≤ q := by
  rw [lt_def] at h
  rw [le_def]
  omega

theorem not_le_of_lt (h : p < q) : ¬ q ≤ p := by
  rw [lt_def] at h
  rw [le_def]
  omega

theorem lt_of_le_of_ne (h : p ≤ q) (hne : p ≠ q) : p < q := by
  by_cases hlt : p < q
  · exact hlt
  · refine absurd (le_antisymm h ?_) hne
    rw [lt_def] at hlt
    rw [le_def] at *
    omega

theorem lt_of_lt_of_le (h : p < q) (h' : q ≤ r) : p < r := by
  rw [lt_def] at *
  rw [le_def] at h'
  omega

theorem le_steps (p : Position) (cs : List Char) : p ≤ p.steps cs := by
  induction cs generalizing p with
  | nil => exact p.le_refl
  | cons c cs ih => exact le_trans (le_of_lt (p.lt_step c)) (ih (p.step c))

theorem lt_steps_cons (p : Position) (c : Char) (cs : List Char) : p < p.steps (c :: cs) :=
  lt_of_lt_of_le (p.lt_step c) (le_steps _ cs)

/-- Within a line only the character changes. -/
theorem steps_of_line {cs : List Char} (h : '\n' ∉ cs) :
    p.steps cs = ⟨p.line, p.character + unitSize cs⟩ := by
  induction cs generalizing p with
  | nil => rfl
  | cons c cs ih =>
    obtain ⟨hc, hcs⟩ := not_or.mp (List.mem_cons.not.mp h)
    rw [steps_cons, ih hcs, step, if_neg (Ne.symm hc), unitSize_cons, Nat.add_assoc]

/-! ### The earlier and the later of two positions -/

theorem earlier_eq (p q : Position) : p.earlier q = p ∨ p.earlier q = q := by
  unfold earlier
  split
  · exact .inl rfl
  · exact .inr rfl

theorem later_eq (p q : Position) : p.later q = p ∨ p.later q = q := by
  unfold later
  split
  · exact .inr rfl
  · exact .inl rfl

theorem earlier_le (p q : Position) : p.earlier q ≤ p ∧ p.earlier q ≤ q := by
  unfold earlier
  split
  · exact ⟨p.le_refl, ‹_›⟩
  · exact ⟨(le_total p q).resolve_left ‹_›, q.le_refl⟩

theorem le_later (p q : Position) : p ≤ p.later q ∧ q ≤ p.later q := by
  unfold later
  split
  · exact ⟨‹_›, q.le_refl⟩
  · exact ⟨p.le_refl, (le_total p q).resolve_left ‹_›⟩

end Position

/-! ### Offsets and positions -/

namespace Text

variable {cs : List Char} {a b : Nat}

theorem IsBoundary.le (h : IsBoundary cs a) : a ≤ byteSize cs := by
  obtain ⟨before, after, rfl, rfl⟩ := h
  rw [byteSize_append]
  exact Nat.le_add_right _ _

theorem isPrefix_takeBytes (cs : List Char) (h : a ≤ b) : takeBytes cs a <+: takeBytes cs b := by
  induction cs generalizing a b with
  | nil => exact List.prefix_refl _
  | cons c cs ih =>
    unfold takeBytes
    by_cases hc : c.utf8Size ≤ a
    · rw [if_pos hc, if_pos (Nat.le_trans hc h)]
      exact List.prefix_cons_inj c |>.mpr (ih (by omega))
    · rw [if_neg hc]
      exact List.nil_prefix

/-- Positions grow with offsets. -/
theorem positionAt_mono (cs : List Char) (h : a ≤ b) : positionAt cs a ≤ positionAt cs b := by
  obtain ⟨rest, hrest⟩ := isPrefix_takeBytes cs h
  unfold positionAt
  rw [← hrest, Position.steps_append]
  exact Position.le_steps _ rest

theorem offsetFrom_steps (p : Position) (offset : Nat) (before after : List Char) :
    offsetFrom p offset (before ++ after) (p.steps before) = some (offset + byteSize before) := by
  induction before generalizing p offset with
  | nil =>
    unfold offsetFrom
    exact if_pos rfl
  | cons c before ih =>
    have hne : p ≠ p.steps (c :: before) := fun heq =>
      Position.not_le_of_lt (p.lt_steps_cons c before) (heq ▸ p.le_refl)
    rw [offsetFrom.eq_def, if_neg hne]
    simp only [List.cons_append, Position.steps_cons, ih, byteSize_cons, Nat.add_assoc]

/-- A boundary is found by its position. -/
theorem IsBoundary.offsetAt? (h : IsBoundary cs a) : offsetAt? cs (positionAt cs a) = some a := by
  obtain ⟨before, after, rfl, rfl⟩ := h
  unfold Text.offsetAt? positionAt
  rw [takeBytes_byteSize, offsetFrom_steps, Nat.zero_add]

/-- Boundaries are in the order of their positions. -/
theorem le_of_positionAt_le (ha : IsBoundary cs a) (hb : IsBoundary cs b)
    (h : positionAt cs a ≤ positionAt cs b) : a ≤ b := by
  by_cases hle : a ≤ b
  · exact hle
  · have hback := positionAt_mono cs (Nat.le_of_not_le hle)
    have hsame := ha.offsetAt?
    rw [Position.le_antisymm h hback, hb.offsetAt?] at hsame
    exact Nat.le_of_eq (Option.some.inj hsame).symm

theorem positionAt_append (before after : List Char) :
    positionAt (before ++ after) (byteSize before) = Position.origin.steps before := by
  rw [positionAt, takeBytes_byteSize]

/-- Two boundaries cut a text in three. -/
theorem IsBoundary.exists_between (ha : IsBoundary cs a) (hb : IsBoundary cs b) (h : a ≤ b) :
    ∃ before after, cs = before ++ (between cs a b ++ after) ∧ byteSize before = a ∧
      byteSize (before ++ between cs a b) = b := by
  obtain ⟨before, rest, hcs, rfl⟩ := ha
  obtain ⟨upTo, after, rfl, rfl⟩ := hb
  have hprefix := isPrefix_takeBytes (upTo ++ after) h
  rw [takeBytes_byteSize, hcs, takeBytes_byteSize] at hprefix
  obtain ⟨text, rfl⟩ := hprefix
  rw [List.append_assoc, between_append]
  exact ⟨before, after, rfl, rfl, rfl⟩

/-- The later of two boundaries is reached from the earlier one by the text between them. -/
theorem positionAt_eq_steps (ha : IsBoundary cs a) (hb : IsBoundary cs b) (h : a ≤ b) :
    positionAt cs b = (positionAt cs a).steps (between cs a b) := by
  obtain ⟨before, after, hcs, hbefore, hupTo⟩ := ha.exists_between hb h
  generalize between cs a b = text at hcs hupTo ⊢
  subst hcs hbefore hupTo
  rw [positionAt_append, ← List.append_assoc, positionAt_append, Position.steps_append]

/-- Two positions of boundaries cut out the text between them, if they are in this order. -/
theorem slice?_eq (ha : IsBoundary cs a) (hb : IsBoundary cs b) :
    slice? cs ⟨positionAt cs a, positionAt cs b⟩ = if a ≤ b then some (between cs a b) else none := by
  simp only [slice?, ha.offsetAt?, hb.offsetAt?, Option.bind_eq_bind, Option.bind_some, between]

/-- The text between two boundaries is found by their positions. -/
theorem slice?_positionAt (ha : IsBoundary cs a) (hb : IsBoundary cs b) (h : a ≤ b) :
    slice? cs ⟨positionAt cs a, positionAt cs b⟩ = some (between cs a b) :=
  (slice?_eq ha hb).trans (if_pos h)

end Text

/-! ### Spans -/

namespace Span

variable {s t u : Span} {ss : List Span} {cs : List Char}

/-- The span does not reach beyond another one. -/
structure Within (s t : Span) : Prop where
  start : t.start ≤ s.start
  stop : s.stop ≤ t.stop

theorem Within.refl (s : Span) : s.Within s := ⟨s.start.le_refl, s.stop.le_refl⟩

theorem Within.trans (h : s.Within t) (h' : t.Within u) : s.Within u :=
  ⟨Position.le_trans h'.start h.start, Position.le_trans h.stop h'.stop⟩

theorem within_merge (s t : Span) : s.Within (s.merge t) ∧ t.Within (s.merge t) := by
  have hstart := s.start.earlier_le t.start
  have hstop := s.stop.le_later t.stop
  exact ⟨⟨hstart.1, hstop.1⟩, ⟨hstart.2, hstop.2⟩⟩

theorem Within.merge (hs : s.Within u) (ht : t.Within u) : (s.merge t).Within u := by
  constructor
  · rcases s.start.earlier_eq t.start with h | h
    all_goals
      change u.start ≤ s.start.earlier t.start
      rw [h]
    · exact hs.start
    · exact ht.start
  · rcases s.stop.later_eq t.stop with h | h
    all_goals
      change s.stop.later t.stop ≤ u.stop
      rw [h]
    · exact hs.stop
    · exact ht.stop

/-- A hull reaches around all of its spans. -/
theorem within_hull (s : Span) (ss : List Span) :
    s.Within (Node.hull s ss) ∧ ∀ t ∈ ss, t.Within (Node.hull s ss) := by
  induction ss generalizing s with
  | nil => exact ⟨.refl s, List.forall_mem_nil _⟩
  | cons t ss ih =>
    obtain ⟨hfirst, hrest⟩ := ih (s.merge t)
    obtain ⟨hs, ht⟩ := within_merge s t
    exact ⟨hs.trans hfirst, List.forall_mem_cons.mpr ⟨ht.trans hfirst, hrest⟩⟩

/-- And it reaches no further. -/
theorem Within.hull (hs : s.Within u) (hss : ∀ t ∈ ss, t.Within u) : (Node.hull s ss).Within u := by
  induction ss generalizing s with
  | nil => exact hs
  | cons t ss ih =>
    obtain ⟨ht, hss⟩ := List.forall_mem_cons.mp hss
    exact ih (hs.merge ht) hss

/-- The ends of the span are boundaries of a text. -/
def LiesIn (cs : List Char) (s : Span) : Prop :=
  ∃ start stop, Text.IsBoundary cs start ∧ Text.IsBoundary cs stop ∧ start ≤ stop ∧
    s = ⟨Text.positionAt cs start, Text.positionAt cs stop⟩

theorem LiesIn.start_le_stop (h : s.LiesIn cs) : s.start ≤ s.stop := by
  obtain ⟨start, stop, -, -, hle, rfl⟩ := h
  exact Text.positionAt_mono cs hle

theorem LiesIn.merge (hs : s.LiesIn cs) (ht : t.LiesIn cs) : (s.merge t).LiesIn cs := by
  have hle : (s.merge t).start ≤ (s.merge t).stop :=
    Position.le_trans (within_merge s t).1.start
      (Position.le_trans hs.start_le_stop (within_merge s t).1.stop)
  obtain ⟨a, b, ha, hb, -, rfl⟩ := hs
  obtain ⟨a', b', ha', hb', -, rfl⟩ := ht
  obtain ⟨start, hstart, heq⟩ : ∃ start, Text.IsBoundary cs start ∧
      (Text.positionAt cs a).earlier (Text.positionAt cs a') = Text.positionAt cs start := by
    rcases (Text.positionAt cs a).earlier_eq (Text.positionAt cs a') with h | h
    · exact ⟨a, ha, h⟩
    · exact ⟨a', ha', h⟩
  obtain ⟨stop, hstop, heq'⟩ : ∃ stop, Text.IsBoundary cs stop ∧
      (Text.positionAt cs b).later (Text.positionAt cs b') = Text.positionAt cs stop := by
    rcases (Text.positionAt cs b).later_eq (Text.positionAt cs b') with h | h
    · exact ⟨b, hb, h⟩
    · exact ⟨b', hb', h⟩
  simp only [Span.merge, heq, heq'] at hle ⊢
  exact ⟨start, stop, hstart, hstop, Text.le_of_positionAt_le hstart hstop hle, rfl⟩

theorem LiesIn.hull (hs : s.LiesIn cs) (hss : ∀ t ∈ ss, t.LiesIn cs) :
    (Node.hull s ss).LiesIn cs := by
  induction ss generalizing s with
  | nil => exact hs
  | cons t ss ih =>
    obtain ⟨ht, hss⟩ := List.forall_mem_cons.mp hss
    exact ih (hs.merge ht) hss

/-- **A span that lies in a text covers the text between its ends.** -/
theorem slice?_of_liesIn (h : s.LiesIn cs) : ∃ start stop,
    Text.IsBoundary cs start ∧ Text.IsBoundary cs stop ∧ start ≤ stop ∧
      s = ⟨Text.positionAt cs start, Text.positionAt cs stop⟩ ∧
      Text.slice? cs s = some (Text.between cs start stop) := by
  obtain ⟨start, stop, hstart, hstop, hle, rfl⟩ := h
  exact ⟨start, stop, hstart, hstop, hle, rfl, Text.slice?_positionAt hstart hstop hle⟩

end Span

namespace Token

variable {cs : List Char} {t u : Token}

theorem LiesIn.spanLiesIn (h : t.LiesIn cs) : t.span.LiesIn cs :=
  ⟨t.offset, t.stop, h.boundary_offset, h.boundary_stop, Nat.le_add_right _ _, h.span⟩

/-- A token that starts behind another one in bytes does so in positions. -/
theorem LiesIn.span_le (ht : t.LiesIn cs) (hu : u.LiesIn cs) (h : t.stop ≤ u.offset) :
    t.span.stop ≤ u.span.start := by
  rw [ht.span, hu.span]
  exact Text.positionAt_mono cs h

end Token

end SableFront
