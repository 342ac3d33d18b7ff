import SableFront.Proofs.LineEndings.Lexeme
import SableFront.Proofs.Simulation.Limit
import SableFront.Proofs.Spaced.Word

/-!
# Line endings: tokens

A text and the text with returns are read side by side. Their cursors are *abreast* if they stand at
one place of both texts, or at a newline of both where the second one has passed the return. From
there both go on to tokens of one kind and are abreast again, or the second one passes the return
before a newline, a blank of its own (`Cursor.Abreast.progress`). So both come to significant tokens
that look alike on their lines, with the same newlines before them and comments that look alike, and
both texts are parsed into trees that look alike (`Grammar.Simulation.parse_withReturns`).

What comments have to show is compared beside that (`Cursor.Paired`): a block comment has the same
records in both texts, since the return is left out at the end of each of its lines. The record of a
line comment is that of its token, which takes the return: it is longer by one, but for that of a
comment where the text ends.
-/

namespace SableFront

open Text

/-! ### Records of comments -/

namespace Highlight

variable {c : Char} {cs : List Char} {category : Category} {modifiers : List Modifier}

theorem withoutReturn_cons (h : c ≠ '\r') (line : List Char) :
    withoutReturn (c :: line) = c :: withoutReturn line := by
  unfold withoutReturn
  cases line with
  | nil => simp [h]
  | cons d line =>
    rw [List.getLast?_cons_cons]
    split <;> rfl

theorem lines_cons (hc : c ≠ '\n') {line : List Char} {rest : List (List Char)}
    (h : lines cs = line :: rest) : lines (c :: cs) = (c :: line) :: rest := by
  rw [lines, if_neg hc, h]

/-- The lines of both texts are the same but for the returns at their ends. -/
theorem map_lines_withReturns (h : '\r' ∉ cs) :
    (lines (withReturns cs)).map withoutReturn = (lines cs).map withoutReturn := by
  induction cs with
  | nil => rfl
  | cons c cs ih =>
    obtain ⟨hc, hcs⟩ := List.ne_and_not_mem_of_not_mem_cons h
    have hlines := ih hcs
    by_cases hline : c = '\n'
    · subst hline
      exact congrArg ([] :: ·) hlines
    · obtain ⟨line, rest, hsplit, -⟩ := exists_lines cs
      obtain ⟨line', rest', hsplit', -⟩ := exists_lines (withReturns cs)
      rw [hsplit, hsplit', List.map_cons, List.map_cons, List.cons.injEq] at hlines
      rw [withReturns_cons hline, lines_cons hline hsplit, lines_cons hline hsplit', List.map_cons,
        List.map_cons, withoutReturn_cons (Ne.symm hc), withoutReturn_cons (Ne.symm hc), hlines.1,
        hlines.2]

/-- The return at the end of a line is not shown. -/
theorem lineRecords_congr {ls ls' : List (List Char)} (h : ls.map withoutReturn = ls'.map withoutReturn)
    (p : Position) : lineRecords category modifiers p ls = lineRecords category modifiers p ls' := by
  induction ls generalizing ls' p with
  | nil =>
    rw [List.map_nil, eq_comm, List.map_eq_nil_iff] at h
    rw [h]
  | cons line ls ih =>
    cases ls' with
    | nil => cases h
    | cons line' ls' =>
      obtain ⟨hline, hls⟩ := List.cons.inj h
      rw [lineRecords, lineRecords, hline, ih hls]

end Highlight

/-! ### Cursors side by side -/

open Highlight

namespace Cursor

/-- The cursors stand at one place of a text without returns and of the text with returns. -/
structure Same (c c' : Cursor) : Prop where
  noReturn : '\r' ∉ c.rest
  rest : c'.rest = withReturns c.rest
  position : c'.position = c.position

/-- The cursors stand at one place of both texts, or the second one has passed the return before a
newline. -/
inductive Abreast (c c' : Cursor) : Prop
  | same (h : c.Same c')
  | between {rest : List Char} (noReturn : '\r' ∉ rest) (hrest : c.rest = '\n' :: rest)
    (hrest' : c'.rest = '\n' :: withReturns rest) (hline : c'.position.line = c.position.line)

/-- Tokens of one kind have been found, and the cursors are abreast behind them. -/
structure Paired (found found' : Token × Cursor) : Prop where
  kind : found.1.kind = found'.1.kind
  alike : found.1.kind ≠ .whitespace → found.1.kind ≠ .newline → View.lined.Alike found.1 found'.1
  abreast : found.2.Abreast found'.2
  same : Lexer.afterAngle? found.1.kind ≠ none → found.2.Same found'.2
  records : found.1.kind.isComment → (found.1.kind = .lineComment → found.2.rest = []) →
    ∀ modifiers, tokenRecords found'.1 .comment modifiers = tokenRecords found.1 .comment modifiers
  longer : found.1.kind = .lineComment → found.2.rest ≠ [] → ∀ modifiers, ∃ length,
    tokenRecords found.1 .comment modifiers = [⟨found.1.span.start, length, .comment, modifiers⟩] ∧
    tokenRecords found'.1 .comment modifiers = [⟨found.1.span.start, length + 1, .comment, modifiers⟩]

variable {c c' : Cursor} {d : Char} {ds : List Char}

/-- A token on one line has one record. -/
theorem tokenRecords_place {n : Nat} (hline : '\n' ∉ d :: ds.take n) (hrest : c.rest = d :: ds)
    (kind : Kind) (value : Value) (category : Category) (modifiers : List Modifier) :
    tokenRecords (c.place kind value (n + 1)) category modifiers =
      [⟨c.position, unitSize (d :: ds.take n), category, modifiers⟩] := by
  have htext : c.rest.take (n + 1) = d :: ds.take n := by rw [hrest, List.take_succ_cons]
  have honline : (c.place kind value (n + 1)).OnLine := by
    refine ⟨?_, ?_, ?_⟩
    · change (c.position.steps (c.rest.take (n + 1))).line = c.position.line
      rw [htext, Position.steps_of_line hline]
    · change 0 < byteSize (c.rest.take (n + 1))
      rw [htext, byteSize_cons]
      exact Nat.lt_of_lt_of_le d.utf8Size_pos (Nat.le_add_right _ _)
    · change 0 < unitSize (c.rest.take (n + 1))
      rw [htext, unitSize_cons]
      exact Nat.lt_of_lt_of_le (units16_pos d) (Nat.le_add_right _ _)
  rw [tokenRecords_eq honline, ← htext]
  rfl

/-- What is seen of a token on its lines. -/
theorem alike_place {kind : Kind} {value value' : Value} {n n' : Nat} (hposition : c'.position = c.position)
    (hline : (c'.position.steps (c'.rest.take n')).line = (c.position.steps (c.rest.take n)).line)
    (hsame : kind.isOpenEnded = false → value = value' ∧ c'.rest.take n' = c.rest.take n) :
    View.lined.Alike (c.place kind value n) (c'.place kind value' n') := by
  change View.lined.token _ = View.lined.token _
  cases hkind : kind.isOpenEnded with
  | true =>
    rw [View.lined_token_of_isOpenEnded hkind, View.lined_token_of_isOpenEnded hkind]
    simp only [place, hposition] at hline ⊢
    rw [hline]
  | false =>
    obtain ⟨rfl, htext⟩ := hsame hkind
    rw [View.lined_token hkind, View.lined_token hkind, place, place, htext, hposition]

/-- A token over several lines has the records of these. -/
theorem tokenRecords_lines {text : List Char} {n : Nat} (htext : c.rest.take n = text)
    (hline : '\n' ∈ text) (kind : Kind) (category : Category) (modifiers : List Modifier) :
    tokenRecords (c.place kind (.text (String.ofList text)) n) category modifiers =
      lineRecords category modifiers c.position (lines text) := by
  have hwidth : (c.place kind (.text (String.ofList text)) n).width ≠ 0 := by
    change unitSize (c.rest.take n) ≠ 0
    rw [htext]
    cases text with
    | nil => cases hline
    | cons d ds =>
      have := units16_pos d
      rw [unitSize_cons]
      omega
  have hstop : (c.place kind (.text (String.ofList text)) n).span.stop.line ≠
      (c.place kind (.text (String.ofList text)) n).span.start.line := by
    change (c.position.steps (c.rest.take n)).line ≠ c.position.line
    rw [htext]
    exact fun heq => Position.line_of_steps heq hline
  rw [tokenRecords, if_neg hwidth, if_neg hstop]
  change lineRecords category modifiers c.position (lines (String.ofList text).toList) = _
  rw [String.toList_ofList]

/-- A token that carries its text has the same records in both texts. -/
theorem tokenRecords_over {kind : Kind} {n n' : Nat} (hrest : c.rest = d :: ds)
    (hrest' : c'.rest = d :: withReturns ds) (hposition : c'.position = c.position) (hd : d ≠ '\n')
    (hreturn : '\r' ∉ c.rest) (htaken : (withReturns ds).take n' = withReturns (ds.take n))
    (category : Category) (modifiers : List Modifier) :
    tokenRecords (c'.place kind (Lexeme.ofText kind d (withReturns ds) n').value (n' + 1)) category
        modifiers =
      tokenRecords (c.place kind (Lexeme.ofText kind d ds n).value (n + 1)) category modifiers := by
  have htext : c.rest.take (n + 1) = d :: ds.take n := by rw [hrest, List.take_succ_cons]
  have htext' : c'.rest.take (n' + 1) = withReturns (d :: ds.take n) := by
    rw [hrest', List.take_succ_cons, htaken, withReturns_cons hd]
  by_cases hline : '\n' ∈ d :: ds.take n
  · -- the returns are at the ends of lines, so the records of these are the same
    have hline' : '\n' ∈ withReturns (d :: ds.take n) :=
      List.mem_flatMap.mpr ⟨'\n', hline, by simp⟩
    have hreturn' : '\r' ∉ d :: ds.take n := fun hmem => by
      rw [← htext] at hmem
      exact hreturn (List.mem_of_mem_take hmem)
    have hvalue : (Lexeme.ofText kind d (withReturns ds) n').value =
        .text (String.ofList (withReturns (d :: ds.take n))) := by
      rw [withReturns_cons hd, ← htaken]
      rfl
    rw [hvalue, tokenRecords_lines htext' hline', hposition,
      lineRecords_congr (map_lines_withReturns hreturn')]
    exact (tokenRecords_lines htext hline kind category modifiers).symm
  · have hwhole := withReturns_of_line hline
    rw [withReturns_cons hd, List.cons.injEq, ← htaken] at hwhole
    have hline' : '\n' ∉ d :: (withReturns ds).take n' := by rwa [hwhole.2]
    rw [tokenRecords_place hline' hrest', tokenRecords_place hline hrest, hwhole.2, hposition]

theorem scan_newline (ds : List Char) : Lexeme.scan '\n' ds = .bare .newline 0 := rfl

/-- Behind a return the blank ends at the newline. -/
theorem scan_return (ds : List Char) :
    Lexeme.scan '\r' ('\n' :: ds) = .bare .whitespace 0 := rfl

theorem Same.skip (h : c.Same c') (hrest : c.rest = d :: ds) (hd : d ≠ '\n') {n n' : Nat}
    (htaken : (withReturns ds).take n' = withReturns (ds.take n))
    (hbehind : (withReturns ds).drop n' = withReturns (ds.drop n)) :
    (c.skip (n + 1)).Same (c'.skip (n' + 1)) := by
  have hrest' := h.rest
  rw [hrest, withReturns_cons hd] at hrest'
  refine ⟨fun hmem => h.noReturn (List.mem_of_mem_drop hmem), ?_, ?_⟩
  · rw [Cursor.skip, Cursor.skip, hrest, hrest', List.drop_succ_cons, List.drop_succ_cons, hbehind]
  · have hstop : c'.position.steps (c'.rest.take (n' + 1)) = c.position.steps (c.rest.take (n + 1)) := by
      rw [hrest, hrest', List.take_succ_cons, List.take_succ_cons, htaken, h.position,
        ← withReturns_cons hd, steps_withReturns]
    exact hstop

/-- A token ends within its line. -/
theorem paired_within (h : c.Same c') (hrest : c.rest = d :: ds) (hd : d ≠ '\n') {kind : Kind}
    {value value' : Value} {n : Nat} (hvalue : kind.isOpenEnded = false → value = value')
    (hline : '\n' ∉ ds.take n) (hend : kind = .lineComment → ds.drop n = []) :
    Paired (c.place kind value (n + 1), c.skip (n + 1)) (c'.place kind value' (n + 1), c'.skip (n + 1)) := by
  have hrest' := h.rest
  rw [hrest, withReturns_cons hd] at hrest'
  obtain ⟨htake, hdrop⟩ := withReturns_within hline
  have htext : c'.rest.take (n + 1) = c.rest.take (n + 1) := by
    rw [hrest, hrest', List.take_succ_cons, List.take_succ_cons, htake]
  have hsame := h.skip hrest hd (htake.trans (withReturns_of_line hline).symm) hdrop
  refine ⟨rfl, fun _ _ => alike_place h.position ?_ fun hkind => ⟨hvalue hkind, htext⟩,
    .same hsame, fun _ => hsame, fun _ _ modifiers => ?_, fun hcomment hmore => ?_⟩
  · rw [htext, h.position]
  · have hone : '\n' ∉ d :: ds.take n := by
      rw [List.mem_cons, not_or]
      exact ⟨Ne.symm hd, hline⟩
    rw [tokenRecords_place hone hrest, tokenRecords_place (htake ▸ hone) hrest', htake, h.position]
  · have hbehind : (c.skip (n + 1)).rest = ds.drop n := by rw [Cursor.skip, hrest, List.drop_succ_cons]
    exact absurd (hbehind.trans (hend hcomment)) hmore

/-- A token takes the rest of its line, and in the text with returns the return, too. -/
theorem paired_edge (h : c.Same c') (hrest : c.rest = d :: ds) (hd : d ≠ '\n') {kind : Kind}
    {value value' : Value} {line rest : List Char} (htext : ds = line ++ '\n' :: rest)
    (hline : '\n' ∉ line) (hkind : kind = .whitespace ∨ kind = .lineComment ∨ kind = .invalid) :
    Paired (c.place kind value (line.length + 1), c.skip (line.length + 1))
      (c'.place kind value' (line.length + 1 + 1), c'.skip (line.length + 1 + 1)) := by
  have hrest' := h.rest
  rw [hrest, withReturns_cons hd, htext, withReturns_line hline] at hrest'
  subst htext
  have htake : (line ++ '\n' :: rest).take line.length = line := List.take_left
  have hdrop : (line ++ '\n' :: rest).drop line.length = '\n' :: rest := List.drop_left
  have hlength : (line ++ ['\r']).length = line.length + 1 := List.length_append ..
  have htake' : (line ++ '\r' :: '\n' :: withReturns rest).take (line.length + 1) = line ++ ['\r'] := by
    rw [List.append_cons line '\r']
    exact List.take_left' hlength
  have hdrop' : (line ++ '\r' :: '\n' :: withReturns rest).drop (line.length + 1) =
      '\n' :: withReturns rest := by
    rw [List.append_cons line '\r']
    exact List.drop_left' hlength
  have hlines : (c'.position.steps (c'.rest.take (line.length + 1 + 1))).line =
      (c.position.steps (c.rest.take (line.length + 1))).line := by
    rw [hrest, hrest', List.take_succ_cons, List.take_succ_cons, htake, htake', h.position,
      ← List.cons_append, Position.steps_append]
    rfl
  have hbehind : (c.skip (line.length + 1)).rest = '\n' :: rest := by
    rw [Cursor.skip, hrest, List.drop_succ_cons, hdrop]
  refine ⟨rfl, fun hblank _ => alike_place h.position hlines fun hopen => ?_, ?_, fun hangle => ?_,
    fun hcomment hend => ?_, fun _ _ modifiers => ?_⟩
  · rcases hkind with rfl | rfl | rfl
    · exact absurd rfl hblank
    · cases hopen
    · cases hopen
  · refine .between (fun hmem => h.noReturn ?_) hbehind ?_ hlines
    · rw [hrest]
      simp [hmem]
    · rw [Cursor.skip, hrest', List.drop_succ_cons, hdrop']
  · rcases hkind with rfl | rfl | rfl <;> exact absurd rfl hangle
  · rcases hkind with rfl | rfl | rfl
    · cases hcomment
    · cases hbehind.symm.trans (hend rfl)
    · cases hcomment
  · have hone : '\n' ∉ d :: line := by
      rw [List.mem_cons, not_or]
      exact ⟨Ne.symm hd, hline⟩
    have hone' : '\n' ∉ d :: (line ++ ['\r']) := by simpa using hone
    refine ⟨unitSize (d :: line), ?_, ?_⟩
    · rw [tokenRecords_place (htake.symm ▸ hone) hrest, htake]
      rfl
    · rw [tokenRecords_place (htake'.symm ▸ hone') hrest', htake', h.position, ← List.cons_append,
        unitSize_append]
      rfl

/-- A token goes on over the ends of lines. -/
theorem paired_across (h : c.Same c') (hrest : c.rest = d :: ds) (hd : d ≠ '\n') {kind : Kind}
    {n n' : Nat} (hkind : kind = .blockComment ∨ kind = .invalid)
    (htaken : (withReturns ds).take n' = withReturns (ds.take n))
    (hbehind : (withReturns ds).drop n' = withReturns (ds.drop n)) :
    Paired (c.place kind (Lexeme.ofText kind d ds n).value (n + 1), c.skip (n + 1))
      (c'.place kind (Lexeme.ofText kind d (withReturns ds) n').value (n' + 1), c'.skip (n' + 1)) := by
  have hrest' := h.rest
  rw [hrest, withReturns_cons hd] at hrest'
  have hsame := h.skip hrest hd htaken hbehind
  refine ⟨rfl, fun _ _ => alike_place h.position (congrArg Position.line hsame.position) fun hopen => ?_,
    .same hsame, fun _ => hsame,
    fun _ _ => tokenRecords_over hrest hrest' h.position hd h.noReturn htaken .comment,
    fun hcomment => ?_⟩
  · rcases hkind with rfl | rfl <;> cases hopen
  · rcases hkind with rfl | rfl <;> cases hcomment

/-- **From one place of both texts, before anything but a newline, both cursors go on alike.** -/
theorem paired_of_same (h : c.Same c') (hrest : c.rest = d :: ds) (hd : d ≠ '\n') :
    Paired c.next c'.next := by
  have hrest' := h.rest
  rw [hrest, withReturns_cons hd] at hrest'
  rw [next_eq_place hrest rfl, next_eq_place hrest' rfl]
  have htwin := Lexeme.twin_scan hd ds
  generalize Lexeme.scan d ds = l at htwin
  generalize Lexeme.scan d (withReturns ds) = l' at htwin
  cases htwin with
  | within hseen hline hend =>
    obtain ⟨hkind, hmore, hvalue⟩ := Lexeme.seen_eq_iff.mp hseen
    rw [← hkind, ← hmore]
    exact paired_within h hrest hd hvalue hline hend
  | edge htext hline hkind hopen hmore hmore' =>
    rw [← hkind, hmore, hmore']
    exact paired_edge h hrest hd htext hline hopen
  | across hkind htaken hbehind => exact paired_across h hrest hd hkind htaken hbehind

/-- Behind the return both cursors pass the newline. -/
theorem paired_of_between {rest : List Char} (noReturn : '\r' ∉ rest) (hrest : c.rest = '\n' :: rest)
    (hrest' : c'.rest = '\n' :: withReturns rest) (hline : c'.position.line = c.position.line) :
    Paired c.next c'.next := by
  rw [next_eq_place hrest (scan_newline _), next_eq_place hrest' (scan_newline _)]
  have hsame : (c.skip 1).Same (c'.skip 1) := by
    refine ⟨?_, ?_, ?_⟩
    · rw [skip, hrest]
      exact noReturn
    · rw [skip, skip, hrest, hrest']
      rfl
    · rw [skip, skip, hrest, hrest']
      change (⟨c'.position.line + 1, 0⟩ : Position) = ⟨c.position.line + 1, 0⟩
      rw [hline]
  refine ⟨rfl, fun _ hnewline => absurd rfl hnewline, .same hsame, fun _ => hsame, fun hcomment => ?_,
    fun hcomment => ?_⟩
  · cases hcomment
  · cases hcomment

/-- **Cursors that are abreast stay so**: at the end of both texts, by a return that only the second
one passes, or by tokens of one kind. -/
theorem Abreast.progress (h : c.Abreast c') :
    (c.rest = [] ∧ c'.rest = [] ∧ c'.position = c.position) ∨
    (c'.rest ≠ [] ∧ c'.next.1.kind = .whitespace ∧ c.Abreast c'.next.2) ∨
    (c.rest ≠ [] ∧ c'.rest ≠ [] ∧ Paired c.next c'.next) := by
  cases h with
  | between noReturn hrest hrest' hline =>
    refine .inr (.inr ⟨?_, ?_, paired_of_between noReturn hrest hrest' hline⟩)
    · exact hrest ▸ List.cons_ne_nil _ _
    · exact hrest' ▸ List.cons_ne_nil _ _
  | same h =>
    cases hrest : c.rest with
    | nil =>
      have hrest' := h.rest
      rw [hrest] at hrest'
      exact .inl ⟨rfl, hrest', h.position⟩
    | cons d ds =>
      by_cases hd : d = '\n'
      · subst hd
        have hrest' := h.rest
        have noReturn := h.noReturn
        rw [hrest, withReturns_newline] at hrest'
        rw [hrest] at noReturn
        have hds : '\r' ∉ ds := (List.ne_and_not_mem_of_not_mem_cons noReturn).2
        rw [next_eq_place hrest' (scan_return _)]
        refine .inr (.inl ⟨hrest' ▸ List.cons_ne_nil _ _, rfl, .between hds hrest ?_ ?_⟩)
        · rw [skip, hrest']
          rfl
        · rw [skip, hrest', h.position]
          rfl
      · have hrest' := h.rest
        rw [hrest, withReturns_cons hd] at hrest'
        exact .inr (.inr ⟨List.cons_ne_nil _ _, hrest' ▸ List.cons_ne_nil _ _,
          paired_of_same h hrest hd⟩)

end Cursor

/-! ### Significant tokens -/

/-- Lexers at tokens that look alike, with cursors that are abreast behind them. -/
structure Lexer.Abreast (l l' : Lexer) : Prop where
  token : View.lined.Alike l.token l'.token
  cursor : l.cursor.Abreast l'.cursor
  same : afterAngle? l.token.kind ≠ none → l.cursor.Same l'.cursor

namespace Cursor

variable {c c' : Cursor}

theorem significant_of_isTrivia (hrest : c.rest ≠ []) (htrivia : c.next.1.kind.isTrivia) :
    c.significant = { c.next.2.significant with
      newline := c.next.1.kind == .newline || c.next.2.significant.newline
      comments := if c.next.1.kind.isComment then c.next.1 :: c.next.2.significant.comments
        else c.next.2.significant.comments } := by
  rw [significant, dif_pos ⟨hrest, htrivia⟩]

/-- **Both cursors come to significant tokens that look alike**, behind the same newlines and
comments that look alike. -/
theorem Abreast.significant (h : c.Abreast c') :
    c.significant.lexer.Abreast c'.significant.lexer ∧
      c.significant.newline = c'.significant.newline ∧
      View.lined.Alike c.significant.comments c'.significant.comments := by
  -- on the trivia before the token in the text with returns, which has a blank more for each return
  induction c' using significant.induct generalizing c with
  | case1 c' hc' ih =>
    rcases h.progress with ⟨-, hend, -⟩ | ⟨-, hblank, habreast⟩ | ⟨hrest, hrest', hpaired⟩
    · exact absurd hend hc'.1
    · obtain ⟨hlexer, hnewline, hcomments⟩ := ih habreast
      rw [significant_of_isTrivia hc'.1 hc'.2, hblank]
      exact ⟨hlexer, hnewline, hcomments⟩
    · have htrivia : c.next.1.kind.isTrivia := hpaired.kind ▸ hc'.2
      obtain ⟨hlexer, hnewline, hcomments⟩ := ih hpaired.abreast
      rw [significant_of_isTrivia hc'.1 hc'.2, significant_of_isTrivia hrest htrivia, ← hpaired.kind]
      refine ⟨hlexer, congrArg (c.next.1.kind == .newline || ·) hnewline, ?_⟩
      dsimp only
      split
      · rename_i hcomment
        refine .cons (hpaired.alike (fun hblank => ?_) fun hblank => ?_) hcomments
        · rw [hblank] at hcomment
          cases hcomment
        · rw [hblank] at hcomment
          cases hcomment
      · exact hcomments
  | case2 c' hc' =>
    have hnext' : c'.significant = ⟨c'.next.1, c'.next.2, false, []⟩ := by
      rw [Cursor.significant, dif_neg hc']
    rcases h.progress with ⟨hrest, hrest', hposition⟩ | ⟨hrest', hblank, -⟩ | ⟨hrest, hrest', hpaired⟩
    · have hnext : c.significant = ⟨c.next.1, c.next.2, false, []⟩ := significant_eq_next (.inl hrest)
      rw [hnext, hnext', next_nil hrest, next_nil hrest']
      refine ⟨⟨?_, h, fun hangle => absurd rfl hangle⟩, rfl, .nil⟩
      change View.lined.token (.eof c.position c.offset) = View.lined.token (.eof c'.position c'.offset)
      rw [hposition]
      rfl
    · exact absurd ⟨hrest', hblank ▸ rfl⟩ hc'
    · have htrivia : c.next.1.kind.isTrivia = false := hpaired.kind ▸ isTrivia_next hc'
      rw [significant_eq_next (.inr htrivia), hnext']
      refine ⟨⟨hpaired.alike (fun hblank => ?_) (fun hblank => ?_), hpaired.abreast, hpaired.same⟩, rfl,
        .nil⟩
      · rw [hblank] at htrivia
        cases htrivia
      · rw [hblank] at htrivia
        cases htrivia

end Cursor

namespace Lexer.Abreast

variable {l l' : Lexer}

/-- What is left of a token that is split is at one place of both texts. -/
theorem split (h : l.Abreast l') : (l.splitAngle?.getD l).Abreast (l'.splitAngle?.getD l') := by
  have hkind : l.token.kind = l'.token.kind := kind_alike h.token
  cases hangle : afterAngle? l.token.kind with
  | none =>
    have hnone {l : Lexer} (h : afterAngle? l.token.kind = none) : l.splitAngle? = none := by
      rw [splitAngle?, h]
      rfl
    rw [hnone hangle, hnone (hkind ▸ hangle)]
    exact h
  | some tail =>
    have hsame := h.same (hangle ▸ Option.some_ne_none tail)
    have hstart : l.token.span.start = l'.token.span.start := by
      rw [← (View.lined_places l.token).1, show View.lined.token _ = View.lined.token _ from h.token,
        (View.lined_places l'.token).1]
    have htail : '\n' ∉ tail ∧ '\r' ∉ tail := by
      unfold afterAngle? at hangle
      split at hangle
      all_goals cases hangle
      all_goals decide
    have hsplit {l : Lexer} (h : afterAngle? l.token.kind = some tail) : l.splitAngle?.getD l =
        ⟨Cursor.skip ⟨'>' :: tail ++ l.cursor.rest, l.token.offset, l.token.span.start⟩ 1,
          Cursor.place ⟨'>' :: tail ++ l.cursor.rest, l.token.offset, l.token.span.start⟩
            (.operator .gt) .none 1⟩ := by
      rw [splitAngle?, h]
      rfl
    have hskip : (Cursor.skip ⟨'>' :: tail ++ l.cursor.rest, l.token.offset, l.token.span.start⟩ 1).Same
        (Cursor.skip ⟨'>' :: tail ++ l'.cursor.rest, l'.token.offset, l'.token.span.start⟩ 1) := by
      refine ⟨fun hmem => ?_, ?_, ?_⟩
      · exact (List.mem_append.mp hmem).elim htail.2 hsame.noReturn
      · change tail ++ l'.cursor.rest = withReturns (tail ++ l.cursor.rest)
        rw [withReturns_append, withReturns_of_line htail.1, hsame.rest]
      · exact congrArg (Position.step · '>') hstart.symm
    rw [hsplit hangle, hsplit (hkind ▸ hangle)]
    refine ⟨?_, .same hskip, fun hnone => absurd rfl hnone⟩
    change View.lined.token (Cursor.place _ _ _ 1) = View.lined.token (Cursor.place _ _ _ 1)
    rw [Cursor.place, Cursor.place, hstart]
    rfl

end Lexer.Abreast

/-! ### Programs -/

namespace Grammar.Simulation

/-- A text and the text with returns are read with the same options, the first one with all errors
kept. -/
def ofReturns (config config' : ParseConfig) (hlimit : config.maxErrors = none)
    (hspeculates : config'.speculateGenerics = config.speculateGenerics)
    (hattaches : config'.attachComments = config.attachComments) : Simulation where
  view := .lined
  config := config
  config' := config'
  lexer := Lexer.Abreast
  unlimited := hlimit
  speculates := hspeculates
  attaches _ := hattaches
  token h := h.token
  next h := by
    obtain ⟨hlexer, hnewline, hcomments⟩ := h.cursor.significant
    exact ⟨hlexer, hnewline, map_token_alike hcomments⟩
  split h := h.split

/-- **Both texts are parsed into trees that look alike on their lines.** -/
theorem parse_withReturns {source source' : String} (hreturn : '\r' ∉ source.toList)
    (hreturned : source'.toList = withReturns source.toList) (config : ParseConfig) :
    Node.AlikeItems .lined (Program.parse source config).nodes
      (Program.parse source' config).nodes := by
  let full : ParseConfig := { config with maxErrors := none }
  have hstart : (Cursor.start source.toList).Same (Cursor.start source'.toList) :=
    ⟨hreturn, hreturned, rfl⟩
  have hunread : (ofReturns full config rfl rfl rfl).Holds (.unread source full)
      (.unread source' config) :=
    ⟨⟨rfl, .same hstart, fun _ => hstart⟩, rfl, rfl, keptErrors_nil _ ▸ .nil, .none, rfl, rfl, rfl, rfl⟩
  rw [Program.parse_limit source config]
  exact (parse_alike hunread.bump).1

end Grammar.Simulation

end SableFront
