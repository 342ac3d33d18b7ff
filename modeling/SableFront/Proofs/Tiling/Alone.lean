import SableFront.Proofs.Tiling.Prefix

/-!
# Tiling: tokens alone

A token says nothing of the text around it but where it stands: each token of a text is the only
token of its own text (`tokens_stand_alone`).
-/

namespace SableFront

variable {cs : List Char}

/-- The token at the start of its own text, of which it keeps everything but the place. -/
def Token.alone (t : Token) (text : List Char) : Token :=
  { t with span := ⟨.origin, Position.origin.steps text⟩, offset := 0 }

namespace Cursor

/-- The next token is read again from its own text, and then comes the end. -/
theorem tokens_start_take {cur : Cursor} {d : Char} {ds : List Char} (hrest : cur.rest = d :: ds) :
    let text := cur.rest.take ((Lexeme.scan d ds).more + 1)
    (start text).tokens =
      [cur.next.1.alone text, .eof (Position.origin.steps text) cur.next.1.size] := by
  generalize hfound : Lexeme.scan d ds = found
  intro text
  have hnext := next_eq_place hrest hfound
  have htext : (start text).rest = d :: ds.take found.more := by
    rw [← List.take_succ_cons, ← hrest]
    rfl
  have hagain := next_eq_place htext ((hfound ▸ Lexeme.scan_take d ds :
    Lexeme.scan d (ds.take found.more) = found))
  have hall : text.take (found.more + 1) = text := by rw [List.take_take, Nat.min_self]
  have hplace : (start text).place found.kind found.value (found.more + 1) =
      cur.next.1.alone text := by
    rw [hnext, place]
    simp only [start, hall]
    rfl
  have hskip : (start text).skip (found.more + 1) =
      ⟨[], cur.next.1.size, Position.origin.steps text⟩ := by
    rw [hnext, skip]
    simp only [start, hall, Nat.zero_add]
    rw [← hall, List.drop_take, Nat.sub_self, List.take_zero, hall]
    rfl
  rw [tokens_cons (htext ▸ List.cons_ne_nil _ _), hagain, hplace, hskip, tokens_nil rfl]
  rfl

/-- A token of a text is the only one of its own text. -/
theorem tokens_alone {before : List Char} {cur : Cursor} (h : cur.Behind before cs) {t : Token}
    (ht : t ∈ cur.tokens) (heof : t.kind ≠ .eof) :
    (start (Text.between cs t.offset t.stop)).tokens =
      [t.alone (Text.between cs t.offset t.stop),
        .eof (Position.origin.steps (Text.between cs t.offset t.stop)) t.size] := by
  obtain ⟨e, passed, he, rfl⟩ := h.exists_next ht
  obtain ⟨d, ds, hcons⟩ := List.exists_cons_of_ne_nil (mt e.kind_next_eq_eof.mpr heof)
  have hnext := next_eq_place hcons rfl
  have hoffset : e.next.1.offset = e.offset := by rw [hnext]; rfl
  have hstop : e.next.1.stop = (e.skip ((Lexeme.scan d ds).more + 1)).offset := by rw [hnext]; rfl
  rw [hoffset, hstop, he.between_skip ((Lexeme.scan d ds).more + 1)]
  exact tokens_start_take hcons

end Cursor

/-- **Each token of a text is the only token of its own text.** Cut out of the text and read alone
it is the same token at byte 0, of the same kind and value and of the same length in bytes and in
UTF-16 units, and the end-of-file token follows. So it is for every kind, that of invalid text
included. -/
theorem tokens_stand_alone (source : String) {t : Token} (ht : t ∈ tokenize source)
    (heof : t.kind ≠ .eof) :
    let text := Text.between source.toList t.offset t.stop
    tokenize (String.ofList text) =
      [{ t with span := ⟨.origin, Position.origin.steps text⟩, offset := 0 },
        .eof (Position.origin.steps text) t.size] := by
  intro text
  have halone := Cursor.tokens_alone (.start source.toList) ht heof
  unfold tokenize
  rw [String.toList_ofList]
  exact halone

/-- A base without digits is invalid, also without the text after it. -/
theorem token_stands_alone :
    let t : Token := ⟨.invalid, .text "0x", ⟨⟨0, 2⟩, ⟨0, 4⟩⟩, 2, 2, 2⟩
    t ∈ tokenize "1+0x..2" ∧ t.kind ≠ .eof ∧
      tokenize (String.ofList (Text.between "1+0x..2".toList t.offset t.stop)) =
        [{ t with span := ⟨.origin, ⟨0, 2⟩⟩, offset := 0 }, .eof ⟨0, 2⟩ 2] := by
  intro t
  have ht : t ∈ tokenize "1+0x..2" := by decide +kernel
  have heof : t.kind ≠ .eof := by decide
  exact ⟨ht, heof, tokens_stand_alone "1+0x..2" ht heof⟩

end SableFront
