import SableFront.Proofs.Tiling.Prefix

/-!
# Tiling: tokens and the text ahead of them

A token of a text is the lexeme that the text from its offset on starts with. So what a scanner says
of the text ahead of it holds of every token, and of the text behind it (`Token.exists_foundIn`).
-/

namespace SableFront

variable {cs : List Char}

/-- The token is the lexeme that is found at its offset, where the text goes on with `d` and `ds`. -/
structure Token.FoundIn (cs : List Char) (t : Token) (d : Char) (ds : List Char) : Prop where
  kind : t.kind = (Lexeme.scan d ds).kind
  value : t.value = (Lexeme.scan d ds).value
  ahead : Text.dropBytes cs t.offset = d :: ds
  text : Text.between cs t.offset t.stop = d :: ds.take (Lexeme.scan d ds).more
  after : Text.dropBytes cs t.stop = ds.drop (Lexeme.scan d ds).more

namespace Cursor

/-- A cursor has the text from its offset on ahead. -/
theorem Behind.dropBytes_eq {before : List Char} {cur : Cursor} (h : cur.Behind before cs) :
    Text.dropBytes cs cur.offset = cur.rest := by
  rw [h.offset, h.text, Text.dropBytes_byteSize]

theorem Behind.foundIn_next {before : List Char} {cur : Cursor} (h : cur.Behind before cs) {d : Char}
    {ds : List Char} (hrest : cur.rest = d :: ds) : cur.next.1.FoundIn cs d ds := by
  have hnext := next_eq_place hrest rfl
  have hbetween := h.between_skip ((Lexeme.scan d ds).more + 1)
  have hafter := (h.skip ((Lexeme.scan d ds).more + 1)).dropBytes_eq
  rw [hrest] at hbetween
  rw [hnext]
  refine ⟨rfl, rfl, h.dropBytes_eq.trans hrest, hbetween, hafter.trans ?_⟩
  rw [Cursor.skip, hrest, List.drop_succ_cons]

/-- The tokens from a cursor on are found in the text. -/
theorem Behind.foundIn_tokens {before : List Char} {cur : Cursor} (h : cur.Behind before cs)
    {t : Token} (ht : t ∈ cur.tokens) (heof : t.kind ≠ .eof) : ∃ d ds, t.FoundIn cs d ds := by
  obtain ⟨e, passed, he, rfl⟩ := h.exists_next ht
  obtain ⟨d, ds, hcons⟩ := List.exists_cons_of_ne_nil (mt e.kind_next_eq_eof.mpr heof)
  exact ⟨d, ds, he.foundIn_next hcons⟩

end Cursor

/-- **A token is found where its text starts.** -/
theorem Token.exists_foundIn {source : String} {t : Token} (ht : t ∈ tokenize source) {d : Char}
    (hd : (Text.between source.toList t.offset t.stop).head? = some d) :
    ∃ ds, t.FoundIn source.toList d ds := by
  have heof : t.kind ≠ .eof := by
    intro heof
    obtain ⟨-, -, ⟨init, last, htokens, hlast, -, hsize, hproper⟩, -⟩ := tokenize_tiles source
    -- the end-of-file token has no text
    have hzero : t.size = 0 := by
      rw [htokens, List.mem_append, List.mem_singleton] at ht
      rcases ht with ht | rfl
      · exact absurd heof (hproper t ht).1
      · exact hsize
    have hnone : Text.between source.toList t.offset t.stop = [] := by
      rw [Text.between, Token.stop, hzero, Nat.add_zero, Nat.sub_self]
      exact Text.takeBytes_byteSize [] _
    rw [hnone] at hd
    cases hd
  obtain ⟨d', ds, h⟩ := (Cursor.Behind.start source.toList).foundIn_tokens ht heof
  rw [h.text] at hd
  cases hd
  exact ⟨ds, h⟩

end SableFront
