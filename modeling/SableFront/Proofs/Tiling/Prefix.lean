import SableFront.Proofs.Literals.Content
import SableFront.Proofs.Tiling.Standing
import Mathlib.Tactic.SplitIfs

/-!
# Tiling: lexemes alone

A lexeme is found by looking at the text ahead, and sometimes beyond what it takes in the end: for a
second point, a closing quote, a longer symbol. What it looks at beyond its end only decides that it
ends there. So cut out of its text it is found again, the same in all it says (`Lexeme.scan_take`).

Each kind of lexeme has one lemma, which says so of the characters after the first: if `more` of
them are taken, then they alone give the same lexeme.
-/

namespace SableFront

variable {c : Char} {cs : List Char} {n : Nat}

/-! ### Runs -/

theorem take_takeWhile (p : Char → Bool) (cs : List Char) :
    cs.take (cs.takeWhile p).length = cs.takeWhile p :=
  (List.prefix_iff_eq_take.mp (List.takeWhile_prefix p)).symm

theorem drop_takeWhile (p : Char → Bool) (cs : List Char) :
    cs.drop (cs.takeWhile p).length = cs.dropWhile p := by
  have h := List.take_append_drop (cs.takeWhile p).length cs
  rw [take_takeWhile] at h
  exact List.append_cancel_left (h.trans List.takeWhile_append_dropWhile.symm)

/-- What follows a run does not belong to it. -/
theorem head?_dropWhile {p : Char → Bool} : ∀ d ∈ (cs.dropWhile p).head?, p d = false := by
  intro d hd
  have hnot := List.head?_dropWhile_not p cs
  rwa [Option.mem_def.mp hd] at hnot

/-- A run of characters is the same in any part of the text that covers it. -/
theorem takeWhile_take {p : Char → Bool} (h : (cs.takeWhile p).length ≤ n) :
    (cs.take n).takeWhile p = cs.takeWhile p := by
  induction cs generalizing n with
  | nil => rw [List.take_nil]
  | cons d ds ih =>
    cases n with
    | zero =>
      rw [List.take_zero, List.takeWhile_nil]
      exact (List.length_eq_zero_iff.mp (Nat.le_zero.mp h)).symm
    | succ n =>
      rw [List.take_succ_cons, List.takeWhile_cons, List.takeWhile_cons]
      cases hd : p d with
      | false => rfl
      | true =>
        rw [List.takeWhile_cons_of_pos hd, List.length_cons] at h
        rw [if_pos rfl, if_pos rfl, ih (Nat.le_of_succ_le_succ h)]

theorem head?_take_ne {d : Char} (h : cs.head? ≠ some d) (n : Nat) :
    (cs.take n).head? ≠ some d := by
  rw [List.head?_take]
  split
  · exact (Option.some_ne_none d).symm
  · exact h

/-- What a lexeme carries of its text it carries alone, too. -/
theorem Lexeme.ofText_take (kind : Kind) (c : Char) (cs : List Char) (n : Nat) :
    ofText kind c (cs.take n) n = ofText kind c cs n := by
  rw [ofText, ofText, List.take_take, Nat.min_self]

/-! ### Numbers -/

namespace Number

theorem integer_take (value : Option UInt64) (c : Char) (cs : List Char) (more : Nat) :
    integer value c (cs.take more) more = integer value c cs more := by
  unfold integer
  split
  · rfl
  · exact Lexeme.ofText_take _ _ _ _

theorem more_integer (value : Option UInt64) (c : Char) (cs : List Char) (more : Nat) :
    (integer value c cs more).more = more := by
  unfold integer
  split <;> rfl

/-- The base of a literal shows in the next character. -/
theorem radix?_take (c : Char) (cs : List Char) (n : Nat) :
    radix? c (cs.take (n + 1)) = radix? c cs := by
  cases cs <;> rfl

/-- The second character tells the base of a literal that starts with a zero. -/
theorem radix?_eq_some {base lead : Nat} (h : radix? c cs = some (base, lead)) :
    c = '0' ∧ ∃ d ds, cs = d :: ds ∧
      ((d = 'b' ∨ d = 'B') ∧ base = 2 ∧ lead = 1 ∨ (d = 'x' ∨ d = 'X') ∧ base = 16 ∧ lead = 1 ∨
        isDigit 8 d ∧ base = 8 ∧ lead = 0) := by
  cases cs with
  | nil => cases h
  | cons d ds =>
    unfold radix? at h
    dsimp only at h
    split_ifs at h with hzero hbinary hhexadecimal hoctal
    all_goals
      cases h
      refine ⟨not_not.mp hzero, d, ds, rfl, ?_⟩
    · exact .inl ⟨hbinary, rfl, rfl⟩
    · exact .inr (.inl ⟨hhexadecimal, rfl, rfl⟩)
    · exact .inr (.inr ⟨hoctal, rfl, rfl⟩)

/-- Either a character stands between the zero and the digits, or the zero itself is followed by a
digit. -/
theorem pos_of_radix? {base lead : Nat} (h : radix? c cs = some (base, lead)) :
    0 < lead + (digitRun base (cs.drop lead)).length := by
  obtain ⟨-, d, ds, rfl, ⟨-, rfl, rfl⟩ | ⟨-, rfl, rfl⟩ | ⟨hoctal, rfl, rfl⟩⟩ := radix?_eq_some h
  · exact Nat.lt_of_lt_of_le Nat.one_pos (Nat.le_add_right _ _)
  · exact Nat.lt_of_lt_of_le Nat.one_pos (Nat.le_add_right _ _)
  · rw [List.drop_zero, digitRun, List.takeWhile_cons_of_pos hoctal, List.length_cons]
    exact Nat.lt_of_lt_of_le Nat.one_pos (Nat.le_add_left _ _)

theorem startsFraction_iff :
    startsFraction cs ↔ ∃ ds, cs = '.' :: ds ∧ ds.head? ≠ some '.' := by
  unfold startsFraction
  split
  · rename_i ds
    constructor
    · intro h
      cases h
    · rintro ⟨es, heq, hne⟩
      cases heq
      exact absurd rfl hne
  · rename_i ds hds
    refine ⟨fun _ => ⟨ds, rfl, fun hhead => ?_⟩, fun _ => rfl⟩
    obtain ⟨es, rfl⟩ := List.head?_eq_some_iff.mp hhead
    exact hds es rfl
  · rename_i hno
    constructor
    · intro h
      cases h
    · rintro ⟨ds, rfl, -⟩
      exact absurd rfl (hno ds)

/-- How many characters a float takes after its point. -/
def fractionSize (cs : List Char) : Nat :=
  (digitRun 10 cs).length +
    if ((cs.drop (digitRun 10 cs).length).head?).any isSingleMark then 1 else 0

theorem more_float (c : Char) (digits cs : List Char) :
    (float (c :: digits) cs).more = digits.length + (fractionSize cs + 1) := by
  unfold float fractionSize
  dsimp only
  rw [List.length_cons]
  omega

/-- The digits of a fraction and the mark after them are what they are without the text behind. -/
theorem float_take (whole cs : List Char) :
    float whole (cs.take (fractionSize cs)) = float whole cs := by
  have hdigits : digitRun 10 (cs.take (fractionSize cs)) = digitRun 10 cs :=
    takeWhile_take (Nat.le_add_right _ _)
  have hmark : ((cs.take (fractionSize cs)).drop (digitRun 10 cs).length).head?.any isSingleMark =
      (cs.drop (digitRun 10 cs).length).head?.any isSingleMark := by
    rw [List.drop_take, fractionSize, Nat.add_sub_cancel_left]
    split
    · cases cs.drop (digitRun 10 cs).length <;> rfl
    · rename_i hno
      rw [List.take_zero, Bool.eq_false_iff.mpr hno]
      rfl
  unfold float
  simp only [hdigits, hmark]

theorem scan_of_radix {base lead : Nat} (h : radix? c cs = some (base, lead)) :
    scan c cs = integer (value? base (digitRun base (cs.drop lead))) c cs
      (lead + (digitRun base (cs.drop lead)).length) := by
  have hbase : 0 < base := by
    obtain ⟨-, d, ds, -, ⟨-, rfl, -⟩ | ⟨-, rfl, -⟩ | ⟨-, rfl, -⟩⟩ := radix?_eq_some h
    all_goals decide
  simp only [scan, h, readDigits_behind hbase, List.length_eq_zero_iff, value?]

theorem scan_of_fraction {tail : List Char} (h : radix? c cs = none)
    (hrest : cs.drop (digitRun 10 cs).length = '.' :: tail) (hpoint : tail.head? ≠ some '.') :
    scan c cs = float (c :: digitRun 10 cs) tail := by
  have hstarts : startsFraction ('.' :: tail) := startsFraction_iff.mpr ⟨tail, rfl, hpoint⟩
  have hdigits : cs.take (digitRun 10 cs).length = digitRun 10 cs := take_takeWhile _ cs
  simp only [scan, h, readDigits_ten, hrest, hdigits, hstarts, if_true, List.drop_one, List.tail_cons]

theorem scan_of_whole (h : radix? c cs = none)
    (hrest : ¬ startsFraction (cs.drop (digitRun 10 cs).length)) :
    scan c cs = integer (value? 10 (c :: digitRun 10 cs)) c cs (digitRun 10 cs).length := by
  simp only [scan, h, readDigits_ten, if_neg hrest]

theorem scan_take (c : Char) (cs : List Char) :
    scan c (cs.take (scan c cs).more) = scan c cs := by
  cases hradix : radix? c cs with
  | some found =>
    obtain ⟨base, lead⟩ := found
    have hscan := scan_of_radix hradix
    generalize hmore : lead + (digitRun base (cs.drop lead)).length = more at hscan
    have hdigits : digitRun base ((cs.take more).drop lead) = digitRun base (cs.drop lead) := by
      rw [List.drop_take, ← hmore, Nat.add_sub_cancel_left]
      exact takeWhile_take (Nat.le_refl _)
    have hradix' : radix? c (cs.take more) = some (base, lead) := by
      obtain ⟨k, rfl⟩ := Nat.exists_eq_add_one_of_ne_zero
        (Nat.ne_of_gt (hmore ▸ pos_of_radix? hradix))
      rw [radix?_take, hradix]
    rw [hscan, more_integer, scan_of_radix hradix', hdigits, hmore, integer_take]
  | none =>
    by_cases hfraction : startsFraction (cs.drop (digitRun 10 cs).length)
    · obtain ⟨tail, htail, hpoint⟩ := startsFraction_iff.mp hfraction
      rw [scan_of_fraction hradix htail hpoint, more_float]
      have hdigits : digitRun 10 (cs.take ((digitRun 10 cs).length + (fractionSize tail + 1))) =
          digitRun 10 cs := takeWhile_take (Nat.le_add_right _ _)
      have hrest : (cs.take ((digitRun 10 cs).length + (fractionSize tail + 1))).drop
          (digitRun 10 cs).length = '.' :: tail.take (fractionSize tail) := by
        rw [List.drop_take, htail, Nat.add_sub_cancel_left, List.take_succ_cons]
      have hpoint' : (tail.take (fractionSize tail)).head? ≠ some '.' := head?_take_ne hpoint _
      have hradix' :
          radix? c (cs.take ((digitRun 10 cs).length + (fractionSize tail + 1))) = none := by
        rw [← Nat.add_assoc, radix?_take, hradix]
      rw [scan_of_fraction hradix' (hdigits.symm ▸ hrest) hpoint', hdigits, float_take]
    · rw [scan_of_whole hradix hfraction, more_integer]
      have hdigits : digitRun 10 (cs.take (digitRun 10 cs).length) = digitRun 10 cs :=
        takeWhile_take (Nat.le_refl _)
      have hrest :
          ¬ startsFraction ((cs.take (digitRun 10 cs).length).drop (digitRun 10 cs).length) := by
        rw [List.drop_take, Nat.sub_self, List.take_zero]
        exact Bool.false_ne_true
      have hradix' : radix? c (cs.take (digitRun 10 cs).length) = none := by
        cases (digitRun 10 cs).length with
        | zero => rfl
        | succ n => rw [radix?_take, hradix]
      rw [scan_of_whole hradix' (hdigits.symm ▸ hrest), hdigits, integer_take]

end Number

/-! ### Literals -/

namespace Literal

/-- A string ends at its closing quote, or where its content breaks off. -/
theorem content_take (cs : List Char) : content (cs.take (contentSize cs)) = content cs := by
  -- on the content, pair by pair and character by character
  induction cs using content.induct with
  | case1 => rfl
  | case2 cs => rfl
  | case3 c cs hc body closed hcontent ih =>
    rw [contentSize_pair hc, List.take_succ_cons, List.take_succ_cons, content_pair hc,
      content_pair hc, ih]
  | case4 cs hne =>
    have hend (ds : List Char) : content ('"' :: ds) = ([], true) := rfl
    have hsize : contentSize ('"' :: cs) = 0 + 1 := rfl
    rw [hsize, List.take_succ_cons, hend, hend]
  | case5 cs hne => rfl
  | case6 c cs hne hquote hline body closed hcontent ih =>
    have hpair := eq_nil_of_unpaired hne
    have hpair' : c = '\\' → cs.take (contentSize cs) = [] := by
      intro hc
      rw [hpair hc, List.take_nil]
    rw [contentSize_cons hpair hquote hline, List.take_succ_cons, content_cons hpair' hquote hline,
      ih, content_cons hpair hquote hline]

theorem more_scanString (c : Char) (cs : List Char) : (scanString c cs).more = contentSize cs := by
  rw [scanString_eq, contentSize]
  dsimp only
  split
  · split <;> rfl
  · rfl

theorem scanString_take (c : Char) (cs : List Char) :
    scanString c (cs.take (scanString c cs).more) = scanString c cs := by
  rw [more_scanString, scanString_eq, scanString_eq, content_take, contentSize]
  obtain ⟨body, closed⟩ := content cs
  cases closed with
  | false => exact Lexeme.ofText_take _ _ _ _
  | true =>
    dsimp only
    rw [if_pos rfl, if_pos rfl, if_pos rfl]
    split
    · rfl
    · exact Lexeme.ofText_take _ _ _ _

/-- The digits of a code point are what they are without the text behind. -/
theorem codePoint_take {digits : Nat} (h : (codePoint digits cs).2 ≤ n) :
    codePoint digits (cs.take n) = codePoint digits cs := by
  rw [codePoint_eq] at h
  have hrun :
      Number.digitRun 16 ((cs.take n).take digits) = Number.digitRun 16 (cs.take digits) := by
    rw [List.take_take, Nat.min_comm, ← List.take_take]
    exact takeWhile_take h
  rw [codePoint_eq, codePoint_eq, hrun]

theorem escape_take (h : (escape c cs).2 ≤ n) : escape c (cs.take n) = escape c cs := by
  unfold escape at h ⊢
  split
  · rename_i hc
    rw [if_pos hc] at h
    exact codePoint_take h
  · rename_i hu
    rw [if_neg hu] at h
    split
    · rename_i hc
      rw [if_pos hc] at h
      exact codePoint_take h
    · rfl

/-- A written character is what it is without the text behind. -/
theorem written_take {piece : Piece} {taken : Nat} (h : written cs = .ok (piece, taken))
    (hn : taken ≤ n) : 0 < taken ∧ written (cs.take n) = .ok (piece, taken) := by
  rcases written_eq_ok h with ⟨d, ds, rfl, hd, rfl, rfl⟩ | ⟨d, ds, rfl, hslash, hline, rfl, rfl⟩
  · obtain ⟨k, rfl⟩ : ∃ k, n = k + 2 := ⟨n - 2, by omega⟩
    refine ⟨Nat.succ_pos _, ?_⟩
    rw [List.take_succ_cons, List.take_succ_cons, written_pair hd,
      escape_take (Nat.le_of_add_le_add_right hn)]
  · obtain ⟨k, rfl⟩ : ∃ k, n = k + 1 := ⟨n - 1, by omega⟩
    exact ⟨Nat.one_pos, written_plain hslash hline _⟩

theorem written_take_error {taken : Nat} (h : written cs = .error taken) :
    written (cs.take taken) = .error taken := by
  cases cs with
  | nil => cases h; rfl
  | cons c cs =>
    by_cases hslash : c = '\\'
    · subst hslash
      cases cs with
      | nil => cases h; rfl
      | cons d ds =>
        by_cases hd : d = '\n'
        · rw [hd] at h
          cases h
          rfl
        · rw [written_pair hd] at h
          cases h
    · by_cases hline : c = '\n'
      · rw [hline] at h
        cases h
        rfl
      · rw [written_plain hslash hline] at h
        cases h

theorem startsWith_take (cs : List Char) (n : Nat) :
    startsWith '\'' (cs.take (n + 1)) = startsWith '\'' cs := by
  cases cs <;> rfl

theorem not_startsWith_take (h : ¬ startsWith '\'' cs) (n : Nat) :
    ¬ startsWith '\'' (cs.take n) := by
  cases n with
  | zero =>
    rw [List.take_zero]
    exact Bool.false_ne_true
  | succ n => rwa [startsWith_take]

/-- Whether a quote follows the written character is seen by one more character. -/
theorem scanChar_take (c : Char) (cs : List Char) :
    scanChar c (cs.take (scanChar c cs).more) = scanChar c cs := by
  by_cases hquote : startsWith '\'' cs
  · have hscan (ds : List Char) (hds : startsWith '\'' ds) : scanChar c ds = .invalid c ds 1 := by
      rw [scanChar, if_pos hds]
    have hquote' : startsWith '\'' (cs.take (0 + 1)) := startsWith_take cs 0 ▸ hquote
    rw [hscan cs hquote]
    change scanChar c (cs.take (0 + 1)) = _
    rw [hscan _ hquote']
    exact Lexeme.ofText_take _ _ _ _
  · have hquote' := not_startsWith_take hquote
    cases hwritten : written cs with
    | error taken =>
      have hscan (ds : List Char) (hds : ¬ startsWith '\'' ds) (hw : written ds = .error taken) :
          scanChar c ds = .invalid c ds taken := by
        rw [scanChar, if_neg hds, hw]
      rw [hscan cs hquote hwritten]
      change scanChar c (cs.take taken) = _
      rw [hscan _ (hquote' taken) (written_take_error hwritten)]
      exact Lexeme.ofText_take _ _ _ _
    | ok found =>
      obtain ⟨piece, taken⟩ := found
      by_cases hclose : startsWith '\'' (cs.drop taken)
      · have hclose' : startsWith '\'' ((cs.take (taken + 1)).drop taken) := by
          rwa [List.drop_take, Nat.add_sub_cancel_left, ← Nat.zero_add 1, startsWith_take]
        have hmore : (scanChar c cs).more = taken + 1 := by
          rw [scanChar, if_neg hquote, hwritten]
          dsimp only
          rw [if_pos hclose]
          split <;> rfl
        rw [hmore]
        unfold scanChar
        rw [if_neg hquote, if_neg (hquote' _), (written_take hwritten (Nat.le_succ _)).2, hwritten]
        dsimp only
        rw [if_pos hclose, if_pos hclose']
        split
        · rfl
        · exact Lexeme.ofText_take _ _ _ _
      · have hscan (ds : List Char) (hds : ¬ startsWith '\'' ds)
            (hw : written ds = .ok (piece, taken)) (hno : ¬ startsWith '\'' (ds.drop taken)) :
            scanChar c ds = .invalid c ds taken := by
          rw [scanChar, if_neg hds, hw]
          exact if_neg hno
        have hno : ¬ startsWith '\'' ((cs.take taken).drop taken) := by
          rw [List.drop_take, Nat.sub_self, List.take_zero]
          exact Bool.false_ne_true
        rw [hscan cs hquote hwritten hclose]
        change scanChar c (cs.take taken) = _
        rw [hscan _ (hquote' taken) (written_take hwritten (Nat.le_refl _)).2 hno]
        exact Lexeme.ofText_take _ _ _ _

end Literal

/-! ### Symbols, comments and words -/

namespace Lexeme

/-- No symbol is written like another one, and each is the longest in its own spelling. -/
theorem longestSymbol?_spelling {e : List Char × Kind} (he : e ∈ symbols) :
    longestSymbol? e.1 = some e := by
  have h : symbols.all (fun e => longestSymbol? e.1 == some e) = true := rfl
  exact eq_of_beq (List.all_eq_true.mp h e he)

/-- What starts no symbol starts none alone. -/
theorem longestSymbol?_singleton (h : longestSymbol? (c :: cs) = none) :
    longestSymbol? [c] = none := by
  cases hfound : longestSymbol? [c] with
  | none => rfl
  | some e =>
    obtain ⟨hmem, hprefix⟩ := longestSymbol?_eq_some hfound
    have hstarts : e.1 <+: c :: cs := hprefix.trans ⟨cs, rfl⟩
    have hsome := isSome_longestSymbol? hmem (List.isPrefixOf_iff_prefix.mpr hstarts)
    rw [h] at hsome
    cases hsome

theorem scanSymbol_take (c : Char) (cs : List Char) :
    scanSymbol c (cs.take (scanSymbol c cs).more) = scanSymbol c cs := by
  cases hlongest : longestSymbol? (c :: cs) with
  | none =>
    have hscan (ds : List Char) (hds : longestSymbol? (c :: ds) = none) :
        scanSymbol c ds = .invalid c ds 0 := by
      rw [scanSymbol, hds]
    rw [hscan cs hlongest]
    change scanSymbol c (cs.take 0) = _
    rw [hscan (cs.take 0) (longestSymbol?_singleton hlongest)]
    exact ofText_take _ _ _ _
  | some e =>
    obtain ⟨spelling, kind⟩ := e
    have hscan (ds : List Char) (hds : longestSymbol? (c :: ds) = some (spelling, kind)) :
        scanSymbol c ds = .bare kind (spelling.length - 1) := by
      rw [scanSymbol, hds]
    obtain ⟨hmem, hprefix⟩ := longestSymbol?_eq_some hlongest
    rw [hscan cs hlongest]
    refine hscan _ ?_
    change longestSymbol? (c :: cs.take (spelling.length - 1)) = _
    rw [take_symbol hmem hprefix]
    exact longestSymbol?_spelling hmem

theorem commentEnd?_cons (h : c = '*' → cs.head? ≠ some '/') :
    commentEnd? (c :: cs) = (commentEnd? cs).map (· + 1) := by
  rw [commentEnd?]
  intro ds hc hcs
  exact h hc (by rw [hcs]; rfl)

/-- A block comment ends at its first end. -/
theorem commentEnd?_take (h : commentEnd? cs = some n) : commentEnd? (cs.take n) = some n := by
  induction cs using commentEnd?.induct generalizing n with
  | case1 => cases h
  | case2 cs =>
    cases h
    rfl
  | case3 c cs hne ih =>
    have hopen : c = '*' → cs.head? ≠ some '/' := by
      intro hc hhead
      obtain ⟨ds, hds⟩ := List.head?_eq_some_iff.mp hhead
      exact hne ds hc hds
    rw [commentEnd?_cons hopen] at h
    obtain ⟨m, hm, rfl⟩ := Option.map_eq_some_iff.mp h
    have hopen' : c = '*' → (cs.take m).head? ≠ some '/' := fun hc => head?_take_ne (hopen hc) m
    rw [List.take_succ_cons, commentEnd?_cons hopen', ih hm]
    rfl

/-- Away from comments a slash starts a symbol. -/
theorem scanSlash_eq_scanSymbol (hline : cs.head? ≠ some '/') (hblock : cs.head? ≠ some '*') :
    scanSlash c cs = scanSymbol c cs := by
  unfold scanSlash
  split
  · exact absurd rfl hline
  · exact absurd rfl hblock
  · rfl

theorem scanSlash_take (c : Char) (cs : List Char) :
    scanSlash c (cs.take (scanSlash c cs).more) = scanSlash c cs := by
  by_cases hline : cs.head? = some '/'
  · obtain ⟨ds, rfl⟩ := List.head?_eq_some_iff.mp hline
    have hscan (es : List Char) : scanSlash c ('/' :: es) =
        .ofText .lineComment c ('/' :: es) (('/' :: es).takeWhile (· ≠ '\n')).length := rfl
    have hslash (es : List Char) : ('/' :: es).takeWhile (· ≠ '\n') =
        '/' :: es.takeWhile (· ≠ '\n') := rfl
    rw [hscan]
    change scanSlash c (('/' :: ds).take (('/' :: ds).takeWhile (· ≠ '\n')).length) = _
    rw [hslash, List.length_cons, List.take_succ_cons, hscan, hslash,
      takeWhile_take (Nat.le_refl _), List.length_cons, ← List.take_succ_cons]
    exact ofText_take _ _ _ _
  · by_cases hblock : cs.head? = some '*'
    · obtain ⟨ds, rfl⟩ := List.head?_eq_some_iff.mp hblock
      cases hend : commentEnd? ds with
      | some n =>
        have hscan (es : List Char) (hes : commentEnd? es = some n) : scanSlash c ('*' :: es) =
            .ofText .blockComment c ('*' :: es) (n + 1) := by
          rw [scanSlash, hes]
        rw [hscan ds hend]
        change scanSlash c (('*' :: ds).take (n + 1)) = _
        rw [List.take_succ_cons, hscan _ (commentEnd?_take hend), ← List.take_succ_cons]
        exact ofText_take _ _ _ _
      | none =>
        have hmore : (scanSlash c ('*' :: ds)).more = ('*' :: ds).length := by
          rw [scanSlash, hend]
          rfl
        rw [hmore, List.take_length]
    · rw [scanSlash_eq_scanSymbol hline hblock,
        scanSlash_eq_scanSymbol (head?_take_ne hline _) (head?_take_ne hblock _), scanSymbol_take]

theorem scanWord_take (c : Char) (cs : List Char) :
    scanWord c (cs.take (scanWord c cs).more) = scanWord c cs := by
  have htail : (cs.take (cs.takeWhile isWordChar).length).takeWhile isWordChar =
      cs.takeWhile isWordChar := takeWhile_take (Nat.le_refl _)
  change scanWord c (cs.take (cs.takeWhile isWordChar).length) = _
  rw [scanWord, htail]
  rfl

/-- **A lexeme is found again where it stands alone.** -/
theorem scan_take (c : Char) (cs : List Char) : scan c (cs.take (scan c cs).more) = scan c cs := by
  unfold scan
  split_ifs
  · have hblanks : (cs.take (cs.takeWhile isBlank).length).takeWhile isBlank =
        cs.takeWhile isBlank := takeWhile_take (Nat.le_refl _)
    change Lexeme.bare _ ((cs.take (cs.takeWhile isBlank).length).takeWhile isBlank).length = _
    rw [hblanks]
  · rfl
  · exact scanSlash_take c cs
  · exact Literal.scanString_take c cs
  · exact Literal.scanChar_take c cs
  · exact Number.scan_take c cs
  · exact scanWord_take c cs
  · exact scanSymbol_take c cs

end Lexeme

end SableFront
