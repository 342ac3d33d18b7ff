import Mathlib.Logic.Function.Iterate
import SableFront.Proofs.Tiling.Standing
import SableFront.Token.State

/-!
# Tiling: a lexer and its cursor

A lexer keeps an offset into its text, the position of the offset, the character there, and whether the
text is over. A cursor has the rest of the text instead, from which the character and the end can be
read off. A lexer *follows* a cursor if its parts say so, and it goes on to follow it: by one character
(`Follows.advance`), by a token (`Refines.next`), and when a token is split, where each part is set anew
(`Refines.split`). So the two read the same tokens (`token_iterate_next`).
-/

namespace SableFront

namespace Cursor.Behind

variable {cs before : List Char} {c : Cursor}

theorem rest_eq_dropBytes (h : c.Behind before cs) : c.rest = Text.dropBytes cs c.offset := by
  rw [h.offset, h.text, Text.dropBytes_byteSize]

theorem charAt?_eq (h : c.Behind before cs) : LexerState.charAt? cs c.offset = c.rest.head? := by
  rw [LexerState.charAt?, h.rest_eq_dropBytes]

/-- The text is read to its end where as many bytes have been passed as it has. -/
theorem rest_eq_nil_iff (h : c.Behind before cs) : c.rest = [] ↔ c.offset = byteSize cs := by
  rw [h.offset, h.text, byteSize_append]
  constructor
  · intro hrest
    rw [hrest, byteSize_nil, Nat.add_zero]
  · intro hsize
    cases hrest : c.rest with
    | nil => rfl
    | cons d ds =>
      have hpos := d.utf8Size_pos
      rw [hrest, byteSize_cons] at hsize
      omega

theorem offset_le (h : c.Behind before cs) : c.offset ≤ byteSize cs := by
  rw [h.offset, h.text, byteSize_append]
  exact Nat.le_add_right _ _

end Cursor.Behind

namespace LexerState

/-- The lexer stands where the cursor does. -/
structure Follows (s : LexerState) (c : Cursor) : Prop where
  offset : s.offset = c.offset
  position : s.position = c.position
  current : s.current = c.rest.head?
  eof : s.eof = c.rest.isEmpty

/-- The lexer stands where a lexer with a cursor does, right behind the same token. -/
structure Refines (cs : List Char) (s : LexerState) (l : Lexer) : Prop extends Follows s l.cursor where
  token : s.token = l.token
  cuts : l.Cuts cs

variable {cs before : List Char} {s : LexerState} {c : Cursor} {l l' : Lexer}

/-! ### Single characters -/

/-- The parts can be looked up in the text. -/
theorem follows_of_behind (h : c.Behind before cs) (token : Token) :
    Follows ⟨c.offset, c.position, charAt? cs c.offset, (charAt? cs c.offset).isNone, token⟩ c := by
  refine ⟨rfl, rfl, h.charAt?_eq, ?_⟩
  rw [h.charAt?_eq]
  cases c.rest <;> rfl

namespace Follows

theorem ahead (h : Follows s c) (hc : c.Behind before cs) : s.ahead cs = c.rest := by
  unfold LexerState.ahead
  rw [h.current, h.offset]
  cases hrest : c.rest with
  | nil => rfl
  | cons d ds =>
    have hskip := (hc.skip 1).rest_eq_dropBytes
    simp only [Cursor.skip, hrest, List.take_succ_cons, List.take_zero, List.drop_succ_cons,
      List.drop_zero, byteSize_cons, byteSize_nil, Nat.add_zero] at hskip
    exact congrArg (d :: ·) hskip.symm

/-- **A character brings all parts up to date.** -/
theorem advance (h : Follows s c) (hc : c.Behind before cs) :
    Follows (s.advance cs) (c.skip 1) := by
  unfold LexerState.advance
  rw [h.current]
  cases hrest : c.rest with
  | nil =>
    have hskip : c.skip 1 = c := by
      rw [← Cursor.skip_length_take, hrest]
      rfl
    rw [hskip]
    exact h
  | cons d ds =>
    have hoffset : s.offset + d.utf8Size = (c.skip 1).offset := by simp [Cursor.skip, hrest, h.offset]
    have hposition : s.position.step d = (c.skip 1).position := by
      simp [Cursor.skip, hrest, h.position]
    dsimp only [List.head?_cons]
    rw [hoffset, hposition]
    exact follows_of_behind (hc.skip 1) s.token

theorem advanceBy (h : Follows s c) (hc : c.Behind before cs) (n : Nat) :
    Follows (s.advanceBy cs n) (c.skip n) := by
  induction n generalizing s c before with
  | zero => exact h
  | succ n ih =>
    have hskip : c.skip (n + 1) = (c.skip 1).skip n := by rw [Cursor.skip_skip, Nat.add_comm]
    rw [hskip]
    exact ih (h.advance hc) (hc.skip 1)

/-- What the lexer has passed since it stood at the cursor makes up a token. -/
theorem make_eq {first : LexerState} {n : Nat} (hfirst : Follows first c) (h : Follows s (c.skip n))
    (hc : c.Behind before cs) (kind : Kind) (value : Value) :
    make cs first s kind value = c.place kind value n := by
  have htext : Text.takeBytes (Text.dropBytes cs first.offset) (s.offset - first.offset) =
      c.rest.take n := by
    rw [hfirst.offset, h.offset]
    exact hc.between_skip n
  rw [make, htext, hfirst.position, hfirst.offset, h.position]
  rfl

/-- **A token is scanned as it is cut.** -/
theorem scanToken (h : Follows s c) (hc : c.Behind before cs) :
    (s.scanToken cs).1 = c.next.1 ∧ Follows (s.scanToken cs).2 c.next.2 := by
  unfold LexerState.scanToken
  rw [h.eof, h.current]
  cases hrest : c.rest with
  | nil =>
    rw [Cursor.next_nil hrest, h.position, h.offset]
    exact ⟨rfl, h⟩
  | cons d ds =>
    have hahead : (s.advance cs).ahead cs = ds := by
      rw [(h.advance hc).ahead (hc.skip 1), Cursor.skip, hrest]
      rfl
    have hstop : Follows ((s.advance cs).advanceBy cs (Lexeme.scan d ds).more)
        (c.skip ((Lexeme.scan d ds).more + 1)) := by
      rw [Nat.add_comm, ← Cursor.skip_skip]
      exact (h.advance hc).advanceBy (hc.skip 1) _
    simp only [List.isEmpty_cons, Bool.false_eq_true, if_false, List.head?_cons, hahead,
      Cursor.next_eq_place hrest rfl]
    exact ⟨h.make_eq hstop hc _ _, hstop⟩

end Follows

/-! ### Tokens -/

namespace Refines

theorem start (cs : List Char) : Refines cs (.start cs) (.start cs) :=
  ⟨⟨rfl, rfl, rfl, rfl⟩, rfl,
    .intro (.start cs) .invalid .none 0 (fun _ => rfl) (fun _ h => by cases h) fun _ h => by cases h⟩

theorem next (h : Refines cs s l) : Refines cs (s.next cs) l.next := by
  obtain ⟨before, hbehind⟩ := h.cuts.behind.1
  obtain ⟨htoken, hfollows⟩ := h.scanToken hbehind
  exact ⟨⟨hfollows.offset, hfollows.position, hfollows.current, hfollows.eof⟩, htoken,
    hbehind.cuts_next⟩

/-- The tokens that can be split are those with something behind their first `>`. -/
theorem canSplit_eq (kind : Kind) : canSplit kind = (Lexer.afterAngle? kind).isSome := by
  cases kind with
  | operator o => cases o <;> rfl
  | _ => rfl

/-- **A token is split as it is cut**, and each part is set to what it is there. -/
theorem split (h : Refines cs s l) :
    (s.splitAngle cs).1 = l.splitAngle?.isSome ∧
      Refines cs (s.splitAngle cs).2 (l.splitAngle?.getD l) := by
  unfold splitAngle
  rw [h.token, canSplit_eq]
  cases htail : Lexer.afterAngle? l.token.kind with
  | none =>
    have hl : l.splitAngle? = none := by rw [Lexer.splitAngle?, htail, Option.map_none]
    rw [hl]
    exact ⟨rfl, h⟩
  | some tail =>
    have hl := congrArg (Option.map fun tail =>
      let start : Cursor := ⟨'>' :: tail ++ l.cursor.rest, l.token.offset, l.token.span.start⟩
      (⟨start.skip 1, start.place (.operator .gt) .none 1⟩ : Lexer)) htail
    change l.splitAngle? = some _ at hl
    obtain ⟨hcuts, -⟩ := h.cuts.split hl
    obtain ⟨before, hbehind⟩ := hcuts.behind.1
    rw [hl]
    exact ⟨rfl, follows_of_behind hbehind _, rfl, hcuts⟩

/-- What is read from a cursor on is read by the lexer, token by token. -/
theorem token_iterate (h : Refines cs s l) {n : Nat} {t : Token} (ht : l.cursor.tokens[n]? = some t) :
    ((LexerState.next cs)^[n + 1] s).token = t := by
  induction n generalizing s l with
  | zero =>
    rw [Function.iterate_one, h.next.token]
    by_cases hrest : l.cursor.rest = []
    · rw [Cursor.tokens_nil hrest] at ht
      exact Option.some.inj ht
    · rw [Cursor.tokens_cons hrest] at ht
      exact Option.some.inj ht
  | succ n ih =>
    rw [Function.iterate_succ_apply]
    by_cases hrest : l.cursor.rest = []
    · rw [Cursor.tokens_nil hrest] at ht
      cases ht
    · rw [Cursor.tokens_cons hrest] at ht
      exact ih h.next ht

end Refines

/-- **The lexer reads the tokens of the text**, one after the other. -/
theorem token_iterate_next (source : String) {n : Nat} {t : Token} (ht : (tokenize source)[n]? = some t) :
    ((next source.toList)^[n + 1] (start source.toList)).token = t :=
  (Refines.start source.toList).token_iterate ht

end LexerState

end SableFront
