import SableFront.Proofs.Coverage.Line

/-!
# Coverage: what is cut anew

Where a token of several `>` is split, what follows the first `>` is cut anew from there on. Within
the run of `>` and `=` this may give other tokens than before, and so a token of the text may be lost
there: it is *cut anew* behind the `>` that was split off. Behind the run no token is
(`Lexer.StandsIn.cutAnew`).
-/

namespace SableFront

open Lexeme

namespace Token

/-- The token `a` is a single `>`. The token `t` is written in `>` and `=` only and starts in the run of
these behind `a`, and where the text is cut from the end of `a` on `t` is not among the tokens. -/
structure CutAnew (cs : List Char) (t a : Token) : Prop where
  single : Text.between cs a.offset a.stop = ['>']
  kind : isRunKind t.kind
  behind : a.stop ≤ t.offset
  run : ∀ c ∈ Text.between cs a.stop t.offset, c = '>' ∨ c = '='
  lost : ∃ before cur, Cursor.Behind before cs cur ∧ cur.offset = a.stop ∧ t ∉ cur.tokens

/-- The token `t` of a text goes where the bracket `a` does: it is the bracket itself, or one of
several characters that starts with it, or is lost where the text is cut anew behind it. -/
inductive GoesWith (cs : List Char) (t a : Token) : Prop
  | same (h : t = a)
  | start (hsingle : Text.between cs a.offset a.stop = ['>']) (hangle : Grammar.isClosingAngle t.kind)
      (hoffset : t.offset = a.offset)
  | anew (h : t.CutAnew cs a)

end Token

namespace Text

theorem between_prefix (cs : List Char) {a b c : Nat} (h : b ≤ c) :
    between cs a b <+: between cs a c :=
  isPrefix_takeBytes _ (Nat.sub_le_sub_right h a)

end Text

/-- The tokens that are not among those behind the run are of its characters, and before its end. -/
theorem Cursor.in_run {c : Cursor} {t : Token} (ht : t ∈ c.tokens)
    (hlost : t ∉ (c.skip (run c.rest).length).tokens) :
    isRunKind t.kind ∧ t.stop ≤ (c.skip (run c.rest).length).offset := by
  obtain ⟨angles, hangles, htokens⟩ := c.tokens_run
  have hapart := c.apart_tokens
  rw [htokens] at ht hapart
  generalize c.skip (run c.rest).length = d at ht hlost hapart ⊢
  have hangle : t ∈ angles := (List.mem_append.mp ht).resolve_right hlost
  have hfirst : d.next.1 ∈ d.tokens := by
    rw [d.tokens_next]
    exact List.mem_cons_self
  refine ⟨hangles t hangle, ?_⟩
  rw [← d.next_offset.1]
  exact (List.pairwise_append.mp hapart).2.2 t hangle _ hfirst

namespace Lexer

variable {cs : List Char} {l l' : Lexer} {t : Token}

/-- What is left of a token that is split is a single `>`. -/
theorem Cuts.single_split (h : l.Cuts cs) (hl : l.splitAngle? = some l') :
    Text.between cs l'.token.offset l'.token.stop = ['>'] := by
  obtain @⟨before, c, h, kind, value, n, -, hangle, -⟩ := h
  unfold splitAngle? at hl
  obtain ⟨tail, htail, rfl⟩ := Option.map_eq_some_iff.mp hl
  have hfirst : c.rest.take 1 = ['>'] := by
    rw [← List.take_append_drop n c.rest, hangle tail htail]
    rfl
  have htext := h.between_skip 1
  rw [hfirst] at htext
  change Text.between cs c.offset (c.offset + byteSize (c.rest.take 1)) = ['>'] at htext
  rwa [hfirst] at htext

/-- What is left of a token that is split ends no later. -/
theorem Cuts.stop_split_le (h : l.Cuts cs) (hl : l.splitAngle? = some l') :
    l'.token.stop ≤ l.token.stop := by
  obtain @⟨before, c, h, kind, value, n, -, hangle, -⟩ := h
  unfold splitAngle? at hl
  obtain ⟨tail, htail, rfl⟩ := Option.map_eq_some_iff.mp hl
  change c.offset + byteSize ['>'] ≤ c.offset + byteSize (c.rest.take n)
  rw [hangle tail htail, byteSize_cons, byteSize_cons]
  exact Nat.add_le_add_left (Nat.add_le_add_left (Nat.zero_le _) _) _

/-- **What a split loses is cut anew** behind the `>` that is split off. -/
theorem StandsIn.cutAnew (h : l.StandsIn cs) (hl : l.splitAngle? = some l') (ht : t ∈ l.ahead)
    (hlost : t ∉ l'.ahead) : t.CutAnew cs l'.token := by
  obtain ⟨hahead, hahead', hcommon⟩ := h.cuts.placed.skip_split hl
  obtain ⟨⟨before, hbehind⟩, hstop⟩ := (h.cuts.split hl).1.behind
  rw [hahead'] at hlost
  obtain ⟨hkind, hrun⟩ : isRunKind t.kind ∧
      t.stop ≤ (l'.cursor.skip (run l'.cursor.rest).length).offset := by
    obtain ⟨angles, -, htokens⟩ := l'.cursor.tokens_run
    rw [hcommon]
    refine Cursor.in_run (hahead ▸ ht) fun hmem => hlost ?_
    rw [htokens, hcommon]
    exact List.mem_append_right _ hmem
  refine ⟨h.cuts.single_split hl, hkind, Nat.le_trans (h.cuts.stop_split_le hl) (h.stop_le ht),
    fun c hc => ?_, before, l'.cursor, hbehind, hstop, hlost⟩
  -- the text up to the token is a part of the run
  have hwhole := hbehind.between_skip (run l'.cursor.rest).length
  have htake : l'.cursor.rest.take (run l'.cursor.rest).length = run l'.cursor.rest :=
    take_takeWhile isRunChar _
  rw [htake, hstop] at hwhole
  have hmem := (Text.between_prefix cs (a := l'.token.stop)
    (Nat.le_trans t.offset_le_stop hrun)).subset hc
  rw [hwhole] at hmem
  have hchar := List.all_eq_true.mp List.all_takeWhile c hmem
  simpa [isRunChar] using hchar

end Lexer

end SableFront
