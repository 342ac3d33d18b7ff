import SableFront.Proofs.Tiling.Boundary
import Mathlib.Order.Bounds.Defs

/-!
# Tiling: offsets and positions name the same places

The way back from a position to its offset, as editors take it: the line is looked up in the table of
line starts, and its characters are counted until their UTF-16 units reach the position, or step over
it. `offsetAt?_eq_offsetByLines?` says that this finds what is found by stepping through the whole text.

A position is found if it is that of a boundary between characters, and then the boundary is the only
one there (`offsetAt?_eq_some_iff`). So offsets and positions are two names for the same places of a
text, in the same order (`offsets_and_positions_agree`).
-/

namespace SableFront

/-- A text leads down by its newlines. -/
theorem Position.line_steps (p : Position) (cs : List Char) :
    (p.steps cs).line = p.line + cs.count '\n' := by
  induction cs generalizing p with
  | nil => rfl
  | cons c cs ih =>
    rw [steps_cons, ih, step]
    split
    case isTrue hc =>
      rw [hc, List.count_cons_self]
      exact Nat.add_right_comm _ _ _
    case isFalse hc => rw [List.count_cons_of_ne hc]

namespace Text

variable {cs : List Char} {p target : Position} {a b n o l : Nat}

/-! ### Looking up a line -/

/-- The offsets between which a line lies, without the newline that ends it. -/
def lineBounds? (cs : List Char) (line : Nat) : Option (Nat × Nat) :=
  match (lineStarts cs)[line]?, (lineStarts cs)[line + 1]? with
  | none, _ => none
  | some start, some next => some (start, next - 1)
  | some start, none => some (start, byteSize cs)

/-- The offset in a line, which starts at `offset`, at which the units reach `target`: none if a
character steps over it, or the line has less. -/
def offsetOnLine (offset units : Nat) : List Char → Nat → Option Nat
  | [], target => if units = target then some offset else none
  | c :: cs, target =>
    if units = target then some offset
    else if target < units + units16 c then none
    else offsetOnLine (offset + c.utf8Size) (units + units16 c) cs target

/-- The byte offset of a position by the table of line starts. -/
def offsetByLines? (cs : List Char) (target : Position) : Option Nat := do
  let (start, stop) ← lineBounds? cs target.line
  offsetOnLine start 0 (between cs start stop) target.character

theorem length_lineStarts (cs : List Char) : (lineStarts cs).length = lineCount cs := by
  have hlength (offset : Nat) : (startsAfter offset cs).length = cs.count '\n' := by
    induction cs generalizing offset with
    | nil => rfl
    | cons c cs ih =>
      unfold startsAfter
      split
      case isTrue hc => rw [hc, List.count_cons_self, List.length_cons, ih]
      case isFalse hc => rw [List.count_cons_of_ne hc, ih]
  rw [lineStarts, List.length_cons, hlength, lineCount]

theorem startsAfter_line (h : '\n' ∉ cs) : startsAfter n cs = [] := by
  induction cs generalizing n with
  | nil => rfl
  | cons c cs ih =>
    obtain ⟨hc, hcs⟩ := not_or.mp (List.mem_cons.not.mp h)
    unfold startsAfter
    rw [if_neg (Ne.symm hc), ih hcs]

theorem eq_nil_of_unitSize (h : unitSize cs = 0) : cs = [] := by
  cases cs with
  | nil => rfl
  | cons c cs =>
    have hpos := units16_pos c
    rw [unitSize_cons] at h
    omega

/-- The table gives the ends of the line that starts behind the first part of a text. -/
theorem lineBounds?_eq {lines line rest : List Char} (hlines : Position.origin.steps lines = ⟨l, 0⟩)
    (hline : '\n' ∉ line) (hrest : ∀ c ∈ rest.head?, c = '\n') :
    lineBounds? (lines ++ (line ++ rest)) l = some (byteSize lines, byteSize (lines ++ line)) := by
  obtain ⟨before, last, hsplit, hlast, hposition⟩ := exists_lastLine lines
  rw [hlines] at hposition
  obtain ⟨hl, hunits⟩ := Position.mk.injEq .. ▸ hposition
  rw [eq_nil_of_unitSize hunits.symm, List.append_nil] at hsplit
  rw [← hsplit, List.getLast?_eq_getElem?, ← hl] at hlast
  have hlength : (lineStarts lines).length = l + 1 := by
    have hpos : 0 < (lineStarts lines).length := Nat.succ_pos _
    omega
  have hstarts : lineStarts (lines ++ (line ++ rest)) =
      lineStarts lines ++ startsAfter (byteSize (lines ++ line)) rest := by
    rw [lineStarts, lineStarts, startsAfter_append, startsAfter_append, startsAfter_line hline,
      List.nil_append, List.cons_append, Nat.zero_add, byteSize_append]
  have hstart : (lineStarts (lines ++ (line ++ rest)))[l]? = some (byteSize lines) := by
    rw [hstarts, List.getElem?_append_left (by omega), hlast]
  have hnext : (lineStarts (lines ++ (line ++ rest)))[l + 1]? =
      (startsAfter (byteSize (lines ++ line)) rest).head? := by
    rw [hstarts, List.getElem?_append_right (by omega), hlength, Nat.sub_self, List.head?_eq_getElem?]
  unfold lineBounds?
  rw [hstart, hnext]
  cases rest with
  | nil => rw [List.append_nil]; rfl
  | cons c rest =>
    obtain rfl := hrest c rfl
    rfl

/-- Every line of a text is there. -/
theorem exists_line (h : l < lineCount cs) : ∃ lines line rest, cs = lines ++ (line ++ rest) ∧
    Position.origin.steps lines = ⟨l, 0⟩ ∧ '\n' ∉ line ∧ ∀ c ∈ rest.head?, c = '\n' := by
  obtain ⟨lines, after, rfl, hlines⟩ :
      ∃ lines after, cs = lines ++ after ∧ Position.origin.steps lines = ⟨l, 0⟩ := by
    induction l with
    | zero => exact ⟨[], cs, rfl, rfl⟩
    | succ l ih =>
      obtain ⟨lines, after, hcs, hlines⟩ := ih (by omega)
      have hcount := Position.origin.line_steps lines
      rw [hlines] at hcount
      change l = 0 + lines.count '\n' at hcount
      have hmem : '\n' ∈ after := by
        rw [lineCount, hcs, List.count_append] at h
        rw [← List.count_pos_iff]
        omega
      obtain ⟨line, rest, rfl, hline⟩ := List.eq_append_cons_of_mem hmem
      refine ⟨lines ++ (line ++ ['\n']), rest, ?_, ?_⟩
      · rw [hcs, List.append_assoc, List.append_assoc, List.singleton_append]
      · rw [Position.steps_append, hlines, Position.steps_append, Position.steps_of_line hline]
        rfl
  refine ⟨lines, after.takeWhile (· ≠ '\n'), after.dropWhile (· ≠ '\n'), ?_, hlines, ?_, ?_⟩
  · rw [List.takeWhile_append_dropWhile]
  · intro hmem
    simpa using List.all_eq_true.mp List.all_takeWhile _ hmem
  · intro c hc
    have hnot := List.head?_dropWhile_not (· ≠ '\n') after
    rw [Option.mem_def.mp hc] at hnot
    simpa using hnot

/-! ### Stepping through the text -/

/-- What is found is a boundary of that position. -/
theorem exists_of_offsetFrom (h : offsetFrom p n cs target = some o) :
    ∃ before after, cs = before ++ after ∧ p.steps before = target ∧ o = n + byteSize before := by
  induction cs generalizing p n with
  | nil =>
    unfold offsetFrom at h
    split at h
    case isTrue hp => exact ⟨[], [], rfl, hp, (Option.some.inj h).symm⟩
    case isFalse => cases h
  | cons c cs ih =>
    unfold offsetFrom at h
    split at h
    case isTrue hp => exact ⟨[], c :: cs, rfl, hp, (Option.some.inj h).symm⟩
    case isFalse =>
      obtain ⟨before, after, rfl, hsteps, rfl⟩ := ih h
      exact ⟨c :: before, after, rfl, hsteps, Nat.add_assoc _ _ _⟩

/-- Nothing is found that has been passed. -/
theorem offsetFrom_of_lt (h : target < p) : offsetFrom p n cs target = none := by
  cases hfound : offsetFrom p n cs target with
  | none => rfl
  | some o =>
    obtain ⟨before, -, -, rfl, -⟩ := exists_of_offsetFrom hfound
    exact absurd (p.le_steps before) (Position.not_le_of_lt h)

/-- The text before the position can be stepped over. -/
theorem offsetFrom_append {before after : List Char} (h : p.steps before ≤ target) :
    offsetFrom p n (before ++ after) target =
      offsetFrom (p.steps before) (n + byteSize before) after target := by
  induction before generalizing p n with
  | nil => rfl
  | cons c before ih =>
    have hne : p ≠ target := by
      rintro rfl
      exact Position.not_le_of_lt (p.lt_steps_cons c before) h
    rw [List.cons_append, offsetFrom.eq_def, if_neg hne, Position.steps_cons, byteSize_cons,
      ← Nat.add_assoc]
    exact ih h

/-- On its line a position is found by counting units. -/
theorem offsetFrom_line {units character : Nat} {line rest : List Char} (hline : '\n' ∉ line)
    (hrest : ∀ c ∈ rest.head?, c = '\n') :
    offsetFrom ⟨l, units⟩ n (line ++ rest) ⟨l, character⟩ =
      offsetOnLine n units line character := by
  have hposition : (⟨l, units⟩ : Position) = ⟨l, character⟩ ↔ units = character := by
    rw [Position.mk.injEq, and_iff_right rfl]
  induction line generalizing units n with
  | nil =>
    rw [List.nil_append, offsetFrom.eq_def, offsetOnLine]
    refine if_congr hposition rfl ?_
    cases rest with
    | nil => rfl
    | cons c rest =>
      -- the position of the next line is beyond the one looked for
      obtain rfl := hrest c rfl
      exact offsetFrom_of_lt (.inl (Nat.lt_succ_self l))
  | cons c line ih =>
    obtain ⟨hc, hline⟩ := not_or.mp (List.mem_cons.not.mp hline)
    rw [List.cons_append, offsetFrom.eq_def, offsetOnLine]
    refine if_congr hposition rfl ?_
    have hstep : (⟨l, units⟩ : Position).step c = ⟨l, units + units16 c⟩ := if_neg (Ne.symm hc)
    dsimp only
    rw [hstep]
    split
    case isTrue hpassed => exact offsetFrom_of_lt (.inr ⟨rfl, hpassed⟩)
    case isFalse =>
      refine ih hline ?_
      rw [Position.mk.injEq, and_iff_right rfl]

/-- **The table of line starts gives the offset of every position.** -/
theorem offsetAt?_eq_offsetByLines? (cs : List Char) (p : Position) :
    offsetAt? cs p = offsetByLines? cs p := by
  unfold offsetByLines?
  by_cases hcount : p.line < lineCount cs
  · obtain ⟨lines, line, rest, rfl, hlines, hline, hrest⟩ := exists_line hcount
    have hle : Position.origin.steps lines ≤ p := by
      rw [hlines]
      exact .inr ⟨rfl, Nat.zero_le _⟩
    rw [lineBounds?_eq hlines hline hrest, offsetAt?, offsetFrom_append hle, hlines, Nat.zero_add]
    change _ = offsetOnLine _ _ (between _ _ _) _
    rw [between_append]
    exact offsetFrom_line hline hrest
  · have hnone : (lineStarts cs)[p.line]? = none := by
      rw [List.getElem?_eq_none_iff, length_lineStarts]
      exact Nat.le_of_not_lt hcount
    have hbounds : lineBounds? cs p.line = none := by
      unfold lineBounds?
      rw [hnone]
    rw [hbounds]
    cases hfound : offsetAt? cs p with
    | none => rfl
    | some o =>
      obtain ⟨before, after, rfl, rfl, -⟩ := exists_of_offsetFrom hfound
      have hline : (Position.origin.steps before).line = 0 + before.count '\n' := Position.line_steps _ _
      rw [lineCount, List.count_append] at hcount
      omega

/-! ### Places -/

/-- **Exactly the positions of boundaries are found.** -/
theorem offsetAt?_eq_some_iff : offsetAt? cs p = some o ↔ IsBoundary cs o ∧ positionAt cs o = p := by
  constructor
  · intro h
    obtain ⟨before, after, rfl, rfl, rfl⟩ := exists_of_offsetFrom h
    rw [Nat.zero_add, positionAt_append]
    exact ⟨⟨before, after, rfl, rfl⟩, rfl⟩
  · rintro ⟨ho, rfl⟩
    exact ho.offsetAt?

theorem positionAt_lt_iff (ha : IsBoundary cs a) (hb : IsBoundary cs b) :
    positionAt cs a < positionAt cs b ↔ a < b := by
  constructor
  · intro h
    by_contra hle
    exact Position.not_le_of_lt h (positionAt_mono cs (Nat.le_of_not_lt hle))
  · intro h
    refine Position.lt_of_le_of_ne (positionAt_mono cs (Nat.le_of_lt h)) fun heq => ?_
    exact absurd (le_of_positionAt_le hb ha (heq ▸ Position.le_refl _)) (Nat.not_le_of_lt h)

theorem byteSize_takeBytes_le (cs : List Char) (n : Nat) : byteSize (takeBytes cs n) ≤ n := by
  induction cs generalizing n with
  | nil => exact Nat.zero_le _
  | cons c cs ih =>
    unfold takeBytes
    split
    case isTrue hc =>
      have := ih (n - c.utf8Size)
      rw [byteSize_cons]
      omega
    case isFalse => exact Nat.zero_le _

theorem isBoundary_takeBytes (cs : List Char) (n : Nat) : IsBoundary cs (byteSize (takeBytes cs n)) :=
  ⟨takeBytes cs n, dropBytes cs n, (takeBytes_append_dropBytes cs n).symm, rfl⟩

/-- The whole characters within an offset end at the last boundary up to it. -/
theorem IsBoundary.le_takeBytes (hb : IsBoundary cs b) (h : b ≤ n) :
    b ≤ byteSize (takeBytes cs n) := by
  obtain ⟨before, after, rfl, rfl⟩ := hb
  obtain ⟨rest, hrest⟩ := isPrefix_takeBytes (before ++ after) h
  rw [takeBytes_byteSize] at hrest
  rw [← hrest, byteSize_append]
  exact Nat.le_add_right _ _

theorem positionAt_takeBytes (cs : List Char) (n : Nat) :
    positionAt cs (byteSize (takeBytes cs n)) = positionAt cs n := by
  have happend := positionAt_append (takeBytes cs n) (dropBytes cs n)
  rwa [takeBytes_append_dropBytes] at happend

theorem units16_le_utf8Size (c : Char) : units16 c ≤ c.utf8Size := by
  unfold units16
  split
  case isTrue => exact c.utf8Size_pos
  case isFalse hwide =>
    have hone : c.utf8Size ≠ 1 := by
      rw [Ne, Char.utf8Size_eq_one_iff, UInt32.le_iff_toNat_le]
      change ¬ c.toNat ≤ 127
      omega
    have hpos := c.utf8Size_pos
    omega

theorem unitSize_le_byteSize (cs : List Char) : unitSize cs ≤ byteSize cs := by
  induction cs with
  | nil => exact Nat.le_refl _
  | cons c cs ih =>
    rw [unitSize_cons, byteSize_cons]
    exact Nat.add_le_add (units16_le_utf8Size c) ih

/-- The numbers of a position are no greater than the text is long. -/
theorem positionAt_le_byteSize (cs : List Char) (n : Nat) :
    (positionAt cs n).line ≤ byteSize cs ∧ (positionAt cs n).character ≤ byteSize cs := by
  have hle := positionAt_le cs n
  have hsize := unitSize_le_byteSize cs
  exact ⟨Nat.le_trans hle.1 hsize, Nat.le_trans hle.2 hsize⟩

end Text

open Text in
/-- **Offsets and positions name the same places of a text.** Positions are in the order of boundaries;
exactly the boundaries are found, each by its own position; any other offset stands for the last boundary
up to it; and two positions of boundaries cut out the text between them, if they are in this order. The
table of line starts gives the same positions and offsets, and no number in a position is greater than
the text is long in bytes, so 32 bits hold it where they hold the length. -/
theorem offsets_and_positions_agree (cs : List Char) :
    (∀ a b, IsBoundary cs a → IsBoundary cs b → (positionAt cs a < positionAt cs b ↔ a < b)) ∧
    (∀ p o, offsetAt? cs p = some o ↔ IsBoundary cs o ∧ positionAt cs o = p) ∧
    (∀ offset, ∃ b, IsGreatest {b | IsBoundary cs b ∧ b ≤ min offset (byteSize cs)} b ∧
      positionAt cs offset = positionAt cs b) ∧
    (∀ a b, IsBoundary cs a → IsBoundary cs b → slice? cs ⟨positionAt cs a, positionAt cs b⟩ =
      if a ≤ b then some (between cs a b) else none) ∧
    (∀ offset, positionAt cs offset = positionByLines cs offset ∧
      (positionAt cs offset).line ≤ byteSize cs ∧ (positionAt cs offset).character ≤ byteSize cs) ∧
    ∀ p, offsetAt? cs p = offsetByLines? cs p := by
  refine ⟨fun a b => positionAt_lt_iff, fun p o => offsetAt?_eq_some_iff, fun offset => ?_,
    fun a b => slice?_eq, fun offset => ?_, offsetAt?_eq_offsetByLines? cs⟩
  · have hb := isBoundary_takeBytes cs offset
    refine ⟨byteSize (takeBytes cs offset), ⟨⟨hb, ?_⟩, ?_⟩, (positionAt_takeBytes cs offset).symm⟩
    · exact Nat.le_min.mpr ⟨byteSize_takeBytes_le cs offset, hb.le⟩
    · rintro b ⟨hb, hle⟩
      exact hb.le_takeBytes (Nat.le_trans hle (Nat.min_le_left _ _))
  · exact ⟨positionAt_eq_positionByLines cs offset, positionAt_le_byteSize cs offset⟩

/-- The second unit of a character has no offset, and its second byte no position of its own. -/
example : Text.offsetAt? ['😀', 'x'] ⟨0, 1⟩ = none ∧
    Text.positionAt ['😀', 'x'] 3 = ⟨0, 0⟩ := by decide

end SableFront
