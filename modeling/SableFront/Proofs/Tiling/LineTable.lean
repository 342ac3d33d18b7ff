import SableFront.Source.Text
import Mathlib.Data.List.Induction

/-!
# Lines: the table of line starts

A second way to the position of an offset, as editors keep it: a table of the offsets at which the
lines of a text start, in which the line of an offset is looked up, and the UTF-16 units counted
from there. `positionAt_eq_positionByLines` says that this is the position that is reached by
stepping through the text character by character.
-/

namespace SableFront.Text

/-- The text between two offsets. -/
def between (cs : List Char) (start stop : Nat) : List Char :=
  takeBytes (dropBytes cs start) (stop - start)

/-- The offsets right after the newlines of a text that starts at `offset`. -/
def startsAfter (offset : Nat) : List Char → List Nat
  | [] => []
  | c :: cs =>
    if c = '\n' then (offset + c.utf8Size) :: startsAfter (offset + c.utf8Size) cs
    else startsAfter (offset + c.utf8Size) cs

/-- The offsets at which the lines of a text start. -/
def lineStarts (cs : List Char) : List Nat := 0 :: startsAfter 0 cs

/-- The position of an offset by the table of line starts: the last line that starts at or before
the offset, and the UTF-16 units from there on. -/
def positionByLines (cs : List Char) (offset : Nat) : Position :=
  let stop := byteSize (takeBytes cs offset)
  let line := ((lineStarts cs).takeWhile (· ≤ stop)).length - 1
  ⟨line, unitSize (between cs ((lineStarts cs).getD line 0) stop)⟩

/-! ### Offsets between characters -/

theorem dropBytes_byteSize (cs ds : List Char) : dropBytes (cs ++ ds) (byteSize cs) = ds := by
  have h := takeBytes_append_dropBytes (cs ++ ds) (byteSize cs)
  rw [takeBytes_byteSize] at h
  exact List.append_cancel_left h

theorem between_append (before text after : List Char) :
    between (before ++ (text ++ after)) (byteSize before) (byteSize (before ++ text)) = text := by
  rw [between, dropBytes_byteSize, byteSize_append, Nat.add_sub_cancel_left, takeBytes_byteSize]

/-! ### The table -/

theorem startsAfter_append (offset : Nat) (cs ds : List Char) :
    startsAfter offset (cs ++ ds) =
      startsAfter offset cs ++ startsAfter (offset + byteSize cs) ds := by
  induction cs generalizing offset with
  | nil => rfl
  | cons c cs ih =>
    simp only [List.cons_append, startsAfter, byteSize_cons, ih, Nat.add_assoc]
    split
    · rfl
    · rfl

theorem startsAfter_le {offset n : Nat} {cs : List Char} (h : n ∈ startsAfter offset cs) :
    offset < n ∧ n ≤ offset + byteSize cs := by
  induction cs generalizing offset with
  | nil => cases h
  | cons c cs ih =>
    have hpos := c.utf8Size_pos
    rw [byteSize_cons]
    unfold startsAfter at h
    split at h
    · rcases List.mem_cons.mp h with rfl | h
      · omega
      · have := ih h
        omega
    · have := ih h
      omega

/-- The lines that start in the first part of a text are found by looking up to its end. -/
theorem takeWhile_lineStarts (cs ds : List Char) :
    (lineStarts (cs ++ ds)).takeWhile (· ≤ byteSize cs) = lineStarts cs := by
  have hcs : ∀ n ∈ lineStarts cs, decide (n ≤ byteSize cs) = true := by
    intro n hn
    rcases List.mem_cons.mp hn with rfl | hn
    · exact decide_eq_true (Nat.zero_le _)
    · have := startsAfter_le hn
      exact decide_eq_true (by omega)
  have hds : (startsAfter (0 + byteSize cs) ds).takeWhile (· ≤ byteSize cs) = [] := by
    cases hd : startsAfter (0 + byteSize cs) ds with
    | nil => rfl
    | cons n ns =>
      have := startsAfter_le (hd ▸ List.mem_cons_self : n ∈ startsAfter (0 + byteSize cs) ds)
      rw [List.takeWhile_cons_of_neg]
      simp only [decide_eq_true_eq]
      omega
  have happend : lineStarts (cs ++ ds) = lineStarts cs ++ startsAfter (0 + byteSize cs) ds := by
    rw [lineStarts, lineStarts, startsAfter_append, List.cons_append]
  rw [happend, List.takeWhile_append_of_pos hcs, hds, List.append_nil]

/-- The last line of a text: it starts where the table says, and what is on it counts for the
character of the position after the text. -/
theorem exists_lastLine (cs : List Char) : ∃ lines line, cs = lines ++ line ∧
    (lineStarts cs).getLast? = some (byteSize lines) ∧
    Position.origin.steps cs = ⟨(lineStarts cs).length - 1, unitSize line⟩ := by
  -- on the text from its end: a newline starts a new last line, any other character extends it
  induction cs using List.reverseRecOn with
  | nil => exact ⟨[], [], rfl, rfl, rfl⟩
  | append_singleton cs c ih =>
    obtain ⟨lines, line, hcs, hlast, hpos⟩ := ih
    have hstarts : lineStarts (cs ++ [c]) =
        lineStarts cs ++ if c = '\n' then [byteSize (cs ++ [c])] else [] := by
      rw [lineStarts, lineStarts, startsAfter_append, List.cons_append]
      simp only [startsAfter, byteSize_append, byteSize_cons, byteSize_nil, Nat.zero_add,
        Nat.add_zero]
    have hstep : Position.origin.steps (cs ++ [c]) = (Position.origin.steps cs).step c := by
      rw [Position.steps_append, Position.steps_cons, Position.steps_nil]
    rw [hstarts, hstep, hpos, Position.step]
    by_cases hc : c = '\n'
    · rw [if_pos hc, if_pos hc]
      refine ⟨cs ++ [c], [], (List.append_nil _).symm, List.getLast?_concat, ?_⟩
      have hlen : 0 < (lineStarts cs).length := Nat.succ_pos _
      rw [List.length_append, List.length_singleton, Nat.add_sub_cancel, Nat.sub_add_cancel hlen]
      rfl
    · rw [if_neg hc, if_neg hc, List.append_nil]
      refine ⟨lines, line ++ [c], by rw [hcs, List.append_assoc], hlast, ?_⟩
      rw [unitSize_append, unitSize_cons, unitSize_nil, Nat.add_zero]

/-- **The table of line starts gives the position of every offset.** -/
theorem positionAt_eq_positionByLines (cs : List Char) (offset : Nat) :
    positionAt cs offset = positionByLines cs offset := by
  obtain ⟨before, after, hcs, hbefore⟩ :
      ∃ before after, cs = before ++ after ∧ takeBytes cs offset = before :=
    ⟨_, _, (takeBytes_append_dropBytes cs offset).symm, rfl⟩
  obtain ⟨lines, line, hlines, hlast, hpos⟩ := exists_lastLine before
  have hstart : (lineStarts cs).getD ((lineStarts before).length - 1) 0 = byteSize lines := by
    have hprefix :
        lineStarts cs = lineStarts before ++ startsAfter (0 + byteSize before) after := by
      rw [hcs, lineStarts, lineStarts, startsAfter_append, List.cons_append]
    have hlt : (lineStarts before).length - 1 < (lineStarts before).length :=
      Nat.sub_lt (Nat.succ_pos _) Nat.one_pos
    rw [List.getLast?_eq_getElem?] at hlast
    rw [List.getD_eq_getElem?_getD, hprefix, List.getElem?_append_left hlt, hlast]
    rfl
  have htext : between cs (byteSize lines) (byteSize before) = line := by
    rw [hcs, hlines, List.append_assoc, between_append]
  have hwhile : (lineStarts cs).takeWhile (· ≤ byteSize before) = lineStarts before := by
    rw [hcs, takeWhile_lineStarts]
  rw [positionAt, positionByLines, hbefore, hpos, hwhile, hstart, htext]

end SableFront.Text
