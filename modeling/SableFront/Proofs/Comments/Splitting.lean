import SableFront.Proofs.Lookahead

/-!
# Comments: what a split leaves ahead

Where a token of several `>` is split, the text behind the first `>` is read again, and may be cut
into other tokens than before. All of these are written in `>` and `=` only, and a token that starts
in a run of such characters ends in it: so behind the run both ways to cut the text go on alike
(`tokens_run`, `ahead_split`).
-/

namespace SableFront

namespace Lexeme

/-- The characters that splitting may put together in another way. -/
def isRunChar (c : Char) : Bool := c == '>' || c == '='

/-- The kinds of what is written in such characters only. -/
def isRunKind : Kind → Bool
  | .operator o => o.spelling.toList.all isRunChar
  | _ => false

/-- A symbol that starts with such a character is written in them only. -/
theorem symbol_run : ∀ e ∈ symbols, e.1.head?.any isRunChar →
    e.1.all isRunChar ∧ isRunKind e.2 := by
  have h : symbols.all (fun e => !e.1.head?.any isRunChar ||
      (e.1.all isRunChar && isRunKind e.2)) = true := rfl
  intro e he hhead
  have hall := List.all_eq_true.mp h e he
  rw [hhead, Bool.not_true, Bool.false_or, Bool.and_eq_true] at hall
  exact hall

theorem isSome_foldl_longer (es : List (List Char × Kind)) (b : List Char × Kind) :
    (es.foldl longer (some b)).isSome := by
  induction es generalizing b with
  | nil => rfl
  | cons e es ih =>
    rw [List.foldl_cons, longer]
    split
    · exact ih e
    · exact ih b

/-- A text that starts with a symbol starts with a longest one. -/
theorem isSome_longestSymbol? {e : List Char × Kind} {cs : List Char} (he : e ∈ symbols)
    (hstarts : e.1.isPrefixOf cs) : (longestSymbol? cs).isSome := by
  have hmem : e ∈ symbols.filter fun entry => entry.1.isPrefixOf cs :=
    List.mem_filter.mpr ⟨he, hstarts⟩
  unfold longestSymbol?
  cases hfound : symbols.filter fun entry => entry.1.isPrefixOf cs with
  | nil =>
    rw [hfound] at hmem
    cases hmem
  | cons d ds => exact isSome_foldl_longer ds d

/-- A lexeme that starts in a run lies in it. -/
theorem scan_run {c : Char} (hc : isRunChar c) (cs : List Char) :
    ∃ spelling kind, scan c cs = .bare kind (spelling.length - 1) ∧ spelling ≠ [] ∧
      spelling <+: c :: cs ∧ spelling.all isRunChar ∧ isRunKind kind := by
  have hscan : scan c cs = scanSymbol c cs := by
    rcases Bool.or_eq_true _ _ ▸ hc with h | h
    all_goals
      rw [beq_iff_eq.mp h]
      rfl
  have hsome : (longestSymbol? (c :: cs)).isSome := by
    rcases Bool.or_eq_true _ _ ▸ hc with h | h
    all_goals rw [beq_iff_eq.mp h]
    · exact isSome_longestSymbol? (e := (['>'], .operator .gt)) (by decide) rfl
    · exact isSome_longestSymbol? (e := (['='], .operator .eq)) (by decide) rfl
  obtain ⟨⟨spelling, kind⟩, hlongest⟩ := Option.isSome_iff_exists.mp hsome
  obtain ⟨hmem, hstarts⟩ := longestSymbol?_eq_some hlongest
  have hne := (symbol_spelling _ hmem).1
  have hhead : spelling.head?.any isRunChar := by
    obtain ⟨d, ds, hcons⟩ := List.exists_cons_of_ne_nil hne
    change spelling = d :: ds at hcons
    rw [hcons] at hstarts ⊢
    obtain ⟨rest, hrest⟩ := hstarts
    rw [List.cons_append, List.cons.injEq] at hrest
    rw [hrest.1]
    exact hc
  obtain ⟨hall, hkind⟩ := symbol_run _ hmem hhead
  refine ⟨spelling, kind, ?_, hne, hstarts, hall, hkind⟩
  rw [hscan, scanSymbol, hlongest]

/-- The run of such characters that a text starts with. -/
def run (cs : List Char) : List Char := cs.takeWhile isRunChar

theorem run_append {ds : List Char} (hds : ds.all isRunChar) (cs : List Char) :
    run (ds ++ cs) = ds ++ run cs :=
  List.takeWhile_append_of_pos fun d hd => List.all_eq_true.mp hds d hd

end Lexeme

open Lexeme

namespace Cursor

theorem skip_skip (c : Cursor) (m n : Nat) : (c.skip m).skip n = c.skip (m + n) := by
  have htake : c.rest.take m ++ (c.rest.drop m).take n = c.rest.take (m + n) :=
    List.take_add.symm
  have hdrop : (c.rest.drop m).drop n = c.rest.drop (m + n) := List.drop_drop
  unfold skip
  dsimp only
  rw [hdrop, ← htake, byteSize_append, Position.steps_append, Nat.add_assoc]

theorem skip_length_take (c : Cursor) (n : Nat) : c.skip (c.rest.take n).length = c.skip n := by
  rcases Nat.le_total n c.rest.length with hle | hle
  · rw [List.length_take_of_le hle]
  · have htake : c.rest.take n = c.rest := List.take_of_length_le hle
    have hdrop : c.rest.drop n = c.rest.drop c.rest.length := by
      rw [List.drop_of_length_le hle, List.drop_length]
    unfold skip
    rw [htake, List.take_length, hdrop]

/-- **Behind a run of such characters the text goes on as before**, wherever it started. -/
theorem tokens_run (c : Cursor) :
    ∃ angles : List Token, (∀ t ∈ angles, isRunKind t.kind) ∧
      c.tokens = angles ++ (c.skip (run c.rest).length).tokens := by
  -- on the length of the run, which each of its tokens makes shorter
  induction hn : (run c.rest).length using Nat.strongRecOn generalizing c with
  | ind n ih =>
    by_cases hrun : run c.rest = []
    · rw [hrun, List.length_nil] at hn
      subst hn
      exact ⟨[], List.forall_mem_nil _, rfl⟩
    · obtain ⟨d, ds, hrest⟩ : ∃ d ds, c.rest = d :: ds := by
        refine List.exists_cons_of_ne_nil fun hnil => hrun ?_
        rw [hnil]
        rfl
      have hd : isRunChar d := by
        refine Bool.of_not_eq_false fun hd => hrun ?_
        rw [hrest, run, List.takeWhile_cons, hd]
        rfl
      obtain ⟨spelling, kind, hscan, hne, ⟨rest, hspelling⟩, hall, hkind⟩ := scan_run hd ds
      rw [← hrest] at hspelling
      have hpos : 0 < spelling.length := List.length_pos_iff.mpr hne
      have hmore : spelling.length - 1 + 1 = spelling.length := by omega
      have hnext : c.next = (c.place kind .none spelling.length, c.skip spelling.length) := by
        rw [next, hrest]
        dsimp only
        rw [hscan]
        dsimp only [bare]
        rw [hmore]
      have hbehind : (c.skip spelling.length).rest = rest := by
        change c.rest.drop spelling.length = rest
        rw [← hspelling, List.drop_left]
      have hlength : spelling.length + (run rest).length = n := by
        rw [← hn, ← hspelling, run_append hall, List.length_append]
      obtain ⟨angles, hangles, htokens⟩ := ih (run rest).length (by omega)
        (c.skip spelling.length) (by rw [hbehind])
      refine ⟨c.next.1 :: angles, ?_, ?_⟩
      · refine List.forall_mem_cons.mpr ⟨?_, hangles⟩
        rw [hnext]
        exact hkind
      · rw [tokens_cons (hrest ▸ List.cons_ne_nil d ds), hnext, htokens, skip_skip, hlength]
        rfl

end Cursor

/-! ### Lexers -/

namespace Lexer

theorem all_isRunChar_of_afterAngle? {k : Kind} {tail : List Char} (h : afterAngle? k = some tail) :
    tail.all isRunChar := by
  unfold afterAngle? at h
  split at h
  all_goals
    cases h
  all_goals rfl

/-- A cursor behind a token that can be split stands right behind its spelling. -/
def Placed (l : Lexer) : Prop :=
  ∀ tail, afterAngle? l.token.kind = some tail →
    l.cursor = (⟨'>' :: tail ++ l.cursor.rest, l.token.offset, l.token.span.start⟩ : Cursor).skip
      (tail.length + 1)

theorem placed_of_afterAngle? {l : Lexer} (h : afterAngle? l.token.kind = none) : l.Placed := by
  intro tail htail
  rw [h] at htail
  cases htail

end Lexer

/-- A cursor that goes on behind a token stands right behind its spelling. -/
theorem Cursor.placed_skip (c : Cursor) {kind : Kind} {n : Nat} (value : Value)
    (h : ∀ tail, Lexer.afterAngle? kind = some tail → c.rest.take n = '>' :: tail) :
    Lexer.Placed ⟨c.skip n, c.place kind value n⟩ := by
  intro tail htail
  have hspelling := h tail htail
  have htext : '>' :: tail ++ c.rest.drop n = c.rest := by
    rw [← hspelling, List.take_append_drop]
  have hskip : c.skip n = c.skip (tail.length + 1) := by
    rw [← c.skip_length_take, hspelling]
    rfl
  change c.skip n = Cursor.skip ⟨'>' :: tail ++ c.rest.drop n, c.offset, c.position⟩ _
  rw [htext]
  exact hskip

theorem Cursor.placed_next (c : Cursor) : Lexer.Placed ⟨c.next.2, c.next.1⟩ := by
  by_cases hrest : c.rest = []
  · rw [next_nil hrest]
    exact Lexer.placed_of_afterAngle? rfl
  · obtain ⟨d, ds, hcons⟩ := List.exists_cons_of_ne_nil hrest
    have hnext : c.next = (c.place (scan d ds).kind (scan d ds).value ((scan d ds).more + 1),
        c.skip ((scan d ds).more + 1)) := by
      rw [next, hcons]
    rw [hnext]
    exact c.placed_skip _ fun tail htail => hcons ▸ (solid_scan d ds).2 tail htail

theorem Cursor.placed_significant (c : Cursor) :
    Lexer.Placed ⟨c.significant.cursor, c.significant.token⟩ := by
  obtain ⟨d, htoken, hcursor⟩ := c.exists_significant
  rw [htoken, hcursor]
  exact d.placed_next

/-- Behind the run both ways to read on stand at the same place. -/
theorem Lexer.Placed.skip_split {l l' : Lexer} (h : l.Placed) (hl : l.splitAngle? = some l') :
    l.ahead = l.cursor.tokens ∧ l'.ahead = l'.cursor.tokens ∧
      l'.cursor.skip (run l'.cursor.rest).length = l.cursor.skip (run l.cursor.rest).length := by
  unfold splitAngle? at hl
  obtain ⟨tail, htail, rfl⟩ := Option.map_eq_some_iff.mp hl
  have hcursor := h tail htail
  have heof : l.token.isEof = false := by
    unfold Token.isEof
    cases hkind : l.token.kind
    case eof =>
      rw [hkind] at htail
      cases htail
    all_goals rfl
  generalize hstart :
    (⟨'>' :: tail ++ l.cursor.rest, l.token.offset, l.token.span.start⟩ : Cursor) = start at hcursor
  have hrun : run (start.skip 1).rest = tail ++ run l.cursor.rest := by
    have hrest : (start.skip 1).rest = tail ++ l.cursor.rest := by
      rw [← hstart]
      rfl
    rw [hrest, run_append (all_isRunChar_of_afterAngle? htail)]
  have hbehind (n : Nat) : l.cursor.skip n = start.skip (tail.length + 1 + n) := by
    rw [hcursor, Cursor.skip_skip]
  refine ⟨?_, rfl, ?_⟩
  · rw [ahead, heof]
    rfl
  · rw [hbehind, Cursor.skip_skip, hrun, List.length_append]
    congr 1
    omega

/-- **A split changes only the run behind the token.** -/
theorem Lexer.Placed.ahead_split {l l' : Lexer} (h : l.Placed) (hl : l.splitAngle? = some l') :
    ∃ angles angles' common : List Token,
      (∀ t ∈ angles, isRunKind t.kind) ∧ (∀ t ∈ angles', isRunKind t.kind) ∧
      l.ahead = angles ++ common ∧ l'.ahead = angles' ++ common := by
  obtain ⟨hahead, hahead', hcommon⟩ := h.skip_split hl
  obtain ⟨angles, hangles, htokens⟩ := l.cursor.tokens_run
  obtain ⟨angles', hangles', htokens'⟩ := l'.cursor.tokens_run
  rw [hcommon] at htokens'
  exact ⟨angles, angles', _, hangles, hangles', hahead.trans htokens, hahead'.trans htokens'⟩

end SableFront
