import SableFront.Proofs.Coverage.Line
import SableFront.Proofs.Simulation.View

/-!
# Line endings: lexemes

A text with newlines may be written with a carriage return before each of them
(`Text.withReturns`). At one place of both texts, before any newline, lexemes of one kind are found
(`Lexeme.twin_scan`). For neither a carriage return nor a newline belongs to a number, a word or a
symbol, or closes a literal, so what ends within its line takes the same characters in both texts.
What runs on to the end of its line takes the carriage return, too: blanks, line comments, and
literals that are not closed there. Only block comments go on over the end of a line.
-/

namespace SableFront

variable {c x : Char} {cs ds line rest : List Char} {n : Nat}

namespace Text

/-- The text with a carriage return before every newline. -/
def withReturns (cs : List Char) : List Char :=
  cs.flatMap fun c => if c = '\n' then ['\r', '\n'] else [c]

theorem withReturns_newline (cs : List Char) :
    withReturns ('\n' :: cs) = '\r' :: '\n' :: withReturns cs := rfl

theorem withReturns_cons (h : c ≠ '\n') (cs : List Char) :
    withReturns (c :: cs) = c :: withReturns cs := by
  rw [withReturns, List.flatMap_cons, if_neg h]
  rfl

theorem withReturns_append (cs ds : List Char) :
    withReturns (cs ++ ds) = withReturns cs ++ withReturns ds := List.flatMap_append

/-- A line is the same in both texts. -/
theorem withReturns_of_line (h : '\n' ∉ cs) : withReturns cs = cs := by
  induction cs with
  | nil => rfl
  | cons c cs ih =>
    obtain ⟨hc, hcs⟩ := List.ne_and_not_mem_of_not_mem_cons h
    rw [withReturns_cons (Ne.symm hc), ih hcs]

/-- Both texts up to the end of the first line, and behind it. -/
theorem withReturns_line (h : '\n' ∉ line) (rest : List Char) :
    withReturns (line ++ '\n' :: rest) = line ++ '\r' :: '\n' :: withReturns rest := by
  rw [withReturns_append, withReturns_of_line h, withReturns_newline]

theorem head?_withReturns_ne {d : Char} (hd : d ≠ '\r') (h : cs.head? ≠ some d) :
    (withReturns cs).head? ≠ some d := by
  cases cs with
  | nil => exact h
  | cons c cs =>
    by_cases hc : c = '\n'
    · rw [hc, withReturns_newline, List.head?_cons]
      exact fun heq => hd (Option.some_inj.mp heq).symm
    · rwa [withReturns_cons hc, List.head?_cons]

/-- Within a line both texts are the same, and behind that place one is the other with returns. -/
theorem withReturns_within (h : '\n' ∉ cs.take n) :
    (withReturns cs).take n = cs.take n ∧ (withReturns cs).drop n = withReturns (cs.drop n) := by
  have htext := withReturns_append (cs.take n) (cs.drop n)
  rw [List.take_append_drop, withReturns_of_line h] at htext
  rcases Nat.le_total n cs.length with hle | hle
  · have hlength : (cs.take n).length = n := List.length_take_of_le hle
    rw [htext]
    exact ⟨List.take_left' hlength, List.drop_left' hlength⟩
  · rw [List.take_of_length_le hle] at h ⊢
    rw [withReturns_of_line h, List.take_of_length_le hle, List.drop_eq_nil_of_le hle]
    exact ⟨rfl, rfl⟩

/-- The positions behind both texts are the same. -/
theorem steps_withReturns (p : Position) (cs : List Char) : p.steps (withReturns cs) = p.steps cs := by
  induction cs generalizing p with
  | nil => rfl
  | cons c cs ih =>
    by_cases hc : c = '\n'
    · subst hc
      rw [withReturns_newline, Position.steps_cons, Position.steps_cons, Position.steps_cons, ih]
      rfl
    · rw [withReturns_cons hc, Position.steps_cons, Position.steps_cons, ih]

end Text

open Text

/-! ### Characters at the end of a line -/

/-- A newline, or the carriage return before it. -/
def IsLineEnd (c : Char) : Prop := c = '\n' ∨ c = '\r'

theorem isLineEnd_newline : IsLineEnd '\n' := .inl rfl

theorem isLineEnd_return : IsLineEnd '\r' := .inr rfl

theorem takeWhile_append_cons {p : Char → Bool} (h : p x = false) (cs ds : List Char) :
    (cs ++ x :: ds).takeWhile p = cs.takeWhile p := by
  rw [List.takeWhile_append, List.takeWhile_cons_of_neg (Bool.eq_false_iff.mp h), List.append_nil]
  split
  · rename_i hlength
    exact (List.takeWhile_prefix p).eq_of_length hlength |>.symm
  · rfl

theorem drop_takeWhile_append (p : Char → Bool) (cs ds : List Char) :
    (cs ++ ds).drop (cs.takeWhile p).length = cs.drop (cs.takeWhile p).length ++ ds :=
  List.drop_append_of_le_length (List.takeWhile_prefix p).length_le

namespace Lexeme

/-- What is seen of a lexeme: the value of one that may be open at the end of a line is not. -/
def seen (l : Lexeme) : Lexeme :=
  { l with value := if l.kind.isOpenEnded then .none else l.value }

theorem seen_eq_iff {l l' : Lexeme} : l.seen = l'.seen ↔
    l.kind = l'.kind ∧ l.more = l'.more ∧ (l.kind.isOpenEnded = false → l.value = l'.value) := by
  obtain ⟨kind, value, more⟩ := l
  obtain ⟨kind', value', more'⟩ := l'
  unfold seen
  rw [mk.injEq]
  constructor
  · rintro ⟨rfl, hvalue, rfl⟩
    refine ⟨rfl, rfl, fun hkind => ?_⟩
    change kind.isOpenEnded = false at hkind
    dsimp only at hvalue
    rwa [hkind, if_neg Bool.false_ne_true, if_neg Bool.false_ne_true] at hvalue
  · rintro ⟨rfl, rfl, hvalue⟩
    refine ⟨rfl, ?_, rfl⟩
    dsimp only
    split
    · rfl
    · rename_i hkind
      exact hvalue (Bool.eq_false_iff.mpr hkind)

end Lexeme

/-! ### Numbers -/

namespace Number

theorem isDigit_lineEnd (hx : IsLineEnd x) (base : Nat) : isDigit base x = false := by
  have hdigit : digit? base x = none := by
    rcases hx with rfl | rfl
    all_goals exact if_neg (Nat.lt_irrefl base)
  rw [isDigit, hdigit]
  rfl

theorem digitRun_line (hx : IsLineEnd x) (base : Nat) (cs ds : List Char) :
    digitRun base (cs ++ x :: ds) = digitRun base cs :=
  takeWhile_append_cons (isDigit_lineEnd hx base) cs ds

theorem radix?_line (hx : IsLineEnd x) (c : Char) (cs ds : List Char) :
    radix? c (cs ++ x :: ds) = radix? c cs := by
  cases cs with
  | nil =>
    have hdigit := isDigit_lineEnd hx 8
    rcases hx with rfl | rfl
    all_goals simp [radix?, hdigit]
  | cons d cs => rfl

/-- Between the zero of a literal and its digits there is a letter at most, and it is there. -/
theorem lead_le_length {base lead : Nat} (h : radix? c cs = some (base, lead)) :
    lead ≤ cs.length := by
  obtain ⟨-, d, ds, rfl, ⟨-, -, rfl⟩ | ⟨-, -, rfl⟩ | ⟨-, -, rfl⟩⟩ := radix?_eq_some h
  all_goals exact Nat.le_add_left _ _

theorem startsFraction_line (hx : IsLineEnd x) (cs ds : List Char) :
    startsFraction (cs ++ x :: ds) = startsFraction cs := by
  have hpoint : x ≠ '.' := by rcases hx with rfl | rfl <;> decide
  rw [Bool.eq_iff_iff, startsFraction_iff, startsFraction_iff]
  cases cs with
  | nil =>
    refine ⟨?_, ?_⟩
    · rintro ⟨es, heq, -⟩
      exact absurd (List.cons.inj heq).1 hpoint
    · rintro ⟨es, heq, -⟩
      cases heq
  | cons d cs =>
    have hhead : (cs ++ x :: ds).head? = some '.' ↔ cs.head? = some '.' := by
      cases cs with
      | nil => simpa using hpoint
      | cons => rfl
    simp only [List.cons_append, List.cons.injEq]
    constructor
    · rintro ⟨es, ⟨rfl, rfl⟩, hne⟩
      exact ⟨cs, ⟨rfl, rfl⟩, fun h => hne (hhead.mpr h)⟩
    · rintro ⟨es, ⟨rfl, rfl⟩, hne⟩
      exact ⟨_, ⟨rfl, rfl⟩, fun h => hne (hhead.mp h)⟩

theorem seen_integer (value : Option UInt64) (c : Char) (cs ds : List Char) (more : Nat) :
    (integer value c cs more).seen = (integer value c ds more).seen := by
  unfold integer
  split <;> rfl

theorem float_line (hx : IsLineEnd x) (whole cs ds : List Char) :
    float whole (cs ++ x :: ds) = float whole cs := by
  have hmark : ((cs ++ x :: ds).drop (digitRun 10 cs).length).head?.any isSingleMark =
      (cs.drop (digitRun 10 cs).length).head?.any isSingleMark := by
    rw [digitRun, drop_takeWhile_append]
    cases cs.drop (cs.takeWhile (isDigit 10)).length with
    | nil => rcases hx with rfl | rfl <;> rfl
    | cons => rfl
  unfold float
  simp only [digitRun_line hx, hmark]

/-- A number ends before the end of its line. -/
theorem scan_line (hx : IsLineEnd x) (c : Char) (cs ds : List Char) :
    (scan c (cs ++ x :: ds)).seen = (scan c cs).seen := by
  have hradix := radix?_line hx c cs ds
  cases hfound : radix? c cs with
  | some found =>
    obtain ⟨base, lead⟩ := found
    rw [scan_of_radix (hradix.trans hfound), scan_of_radix hfound,
      List.drop_append_of_le_length (lead_le_length hfound), digitRun_line hx]
    exact seen_integer _ _ _ _ _
  | none =>
    have hdigits : (cs ++ x :: ds).drop (digitRun 10 (cs ++ x :: ds)).length =
        cs.drop (digitRun 10 cs).length ++ x :: ds := by
      rw [digitRun_line hx, digitRun, drop_takeWhile_append]
    by_cases hfraction : startsFraction (cs.drop (digitRun 10 cs).length)
    · have hfraction' := hfraction
      rw [← startsFraction_line hx _ ds, ← hdigits] at hfraction'
      obtain ⟨tail, htail, hpoint⟩ := startsFraction_iff.mp hfraction
      obtain ⟨tail', htail', hpoint'⟩ := startsFraction_iff.mp hfraction'
      have heq : tail' = tail ++ x :: ds := by
        rw [htail', htail, List.cons_append] at hdigits
        exact (List.cons.inj hdigits).2
      rw [scan_of_fraction (hradix.trans hfound) htail' hpoint',
        scan_of_fraction hfound htail hpoint, digitRun_line hx, heq, float_line hx]
    · have hfraction' := hfraction
      rw [← startsFraction_line hx _ ds, ← hdigits] at hfraction'
      rw [scan_of_whole (hradix.trans hfound) hfraction', scan_of_whole hfound hfraction,
        digitRun_line hx]
      exact seen_integer _ _ _ _ _

end Number

/-! ### Literals -/

namespace Literal

/-- A string that is closed ends where it is. -/
theorem content_of_closed (h : (content cs).2 = true) (ds : List Char) :
    content (cs ++ ds) = content cs := by
  -- on the content, pair by pair and character by character
  induction cs using content.induct with
  | case1 => cases h
  | case2 cs => cases h
  | case3 c cs hc body closed hcontent ih =>
    rw [content_pair hc] at h
    rw [List.cons_append, List.cons_append, content_pair hc, content_pair hc, ih h]
  | case4 cs hne => rfl
  | case5 cs hne => cases h
  | case6 c cs hne hquote hline body closed hcontent ih =>
    have hslash : c ≠ '\\' := by
      intro hslash
      obtain rfl := eq_nil_of_unpaired hne hslash
      rw [hslash] at h
      cases h
    have hpair (es : List Char) : c = '\\' → es = [] := fun hc => absurd hc hslash
    rw [content_cons (hpair _) hquote hline] at h
    rw [List.cons_append, content_cons (hpair _) hquote hline, content_cons (hpair _) hquote hline,
      ih h]

/-- A string that is not closed on its line breaks off at the end of it. -/
theorem content_of_open (h : (content line).2 = false) (hline : '\n' ∉ line) (rest : List Char) :
    content (line ++ '\n' :: rest) = (line, false) := by
  induction line using content.induct with
  | case1 => rfl
  | case2 cs => exact absurd (by simp) hline
  | case3 c cs hc body closed hcontent ih =>
    rw [content_pair hc] at h
    rw [List.mem_cons, List.mem_cons, not_or, not_or] at hline
    rw [List.cons_append, List.cons_append, content_pair hc, ih h hline.2.2]
  | case4 cs hne => cases h
  | case5 cs hne => exact absurd List.mem_cons_self hline
  | case6 c cs hne hquote hnewline body closed hcontent ih =>
    by_cases hslash : c = '\\'
    · obtain rfl := eq_nil_of_unpaired hne hslash
      rw [hslash]
      rfl
    · have hpair (es : List Char) : c = '\\' → es = [] := fun hc => absurd hc hslash
      rw [content_cons (hpair _) hquote hnewline] at h
      rw [List.cons_append, content_cons (hpair _) hquote hnewline,
        ih h (List.ne_and_not_mem_of_not_mem_cons hline).2]

/-- A carriage return closes no string. -/
theorem content_return (h : (content cs).2 = false) : (content (cs ++ ['\r'])).2 = false := by
  induction cs using content.induct with
  | case1 => rfl
  | case2 cs => rfl
  | case3 c cs hc body closed hcontent ih =>
    rw [content_pair hc] at h
    rw [List.cons_append, List.cons_append, content_pair hc]
    exact ih h
  | case4 cs hne => cases h
  | case5 cs hne => rfl
  | case6 c cs hne hquote hline body closed hcontent ih =>
    by_cases hslash : c = '\\'
    · obtain rfl := eq_nil_of_unpaired hne hslash
      rw [hslash]
      rfl
    · have hpair (es : List Char) : c = '\\' → es = [] := fun hc => absurd hc hslash
      rw [content_cons (hpair _) hquote hline] at h
      rw [List.cons_append, content_cons (hpair _) hquote hline]
      exact ih h

theorem startsWith_line (hx : IsLineEnd x) (cs ds : List Char) :
    startsWith '\'' (cs ++ x :: ds) = startsWith '\'' cs := by
  cases cs with
  | nil => rcases hx with rfl | rfl <;> rfl
  | cons => rfl

theorem escape_line (hx : IsLineEnd x) (c : Char) (cs ds : List Char) :
    escape c (cs ++ x :: ds) = escape c cs := by
  refine escape_append (fun d hd => ?_) c cs
  obtain rfl := Option.some.inj hd
  exact Bool.eq_false_iff.mp (Number.isDigit_lineEnd hx 16)

/-- The character literal at `c` before `cs`, behind its written character. -/
def closeChar (c : Char) (cs : List Char) (piece : Piece) (taken : Nat) : Lexeme :=
  if startsWith '\'' (cs.drop taken) then
    match piece with
    | .char d => ⟨.char, .char d, taken + 1⟩
    | _ => .invalid c cs (taken + 1)
  else .invalid c cs taken

theorem scanChar_of_written (hquote : startsWith '\'' cs = false) {piece : Piece} {taken : Nat}
    (h : written cs = .ok (piece, taken)) : scanChar c cs = closeChar c cs piece taken := by
  rw [scanChar, if_neg (Bool.eq_false_iff.mp hquote), h]
  rfl

theorem closeChar_line (hx : IsLineEnd x) (c : Char) (ds : List Char) (piece : Piece) {taken : Nat}
    (h : taken ≤ cs.length) :
    (closeChar c (cs ++ x :: ds) piece taken).seen = (closeChar c cs piece taken).seen := by
  unfold closeChar
  rw [List.drop_append_of_le_length h, startsWith_line hx]
  split
  · cases piece <;> rfl
  · rfl

theorem closeChar_le {piece : Piece} {taken : Nat} (h : taken ≤ cs.length) :
    (closeChar c cs piece taken).more ≤ cs.length := by
  unfold closeChar
  split
  · rename_i hclose
    have hlt : taken < cs.length := by
      refine Nat.lt_of_le_of_ne h fun heq => ?_
      rw [heq, List.drop_length] at hclose
      cases hclose
    cases piece <;> exact hlt
  · exact h

/-- A line with more than a backslash starts with a written character. -/
theorem exists_written (hline : '\n' ∉ line) (hempty : line ≠ []) (hslash : line ≠ ['\\']) :
    ∃ piece taken, written line = .ok (piece, taken) ∧ taken ≤ line.length ∧
      ∀ x ds, IsLineEnd x → written (line ++ x :: ds) = .ok (piece, taken) := by
  obtain ⟨d, cs, rfl⟩ := List.exists_cons_of_ne_nil hempty
  obtain ⟨hd, hcs⟩ := List.ne_and_not_mem_of_not_mem_cons hline
  by_cases hpair : d = '\\'
  · subst hpair
    have hmore : cs ≠ [] := fun hnil => hslash (by rw [hnil])
    obtain ⟨e, es, rfl⟩ := List.exists_cons_of_ne_nil hmore
    have he : e ≠ '\n' := Ne.symm (List.ne_and_not_mem_of_not_mem_cons hcs).1
    refine ⟨_, _, written_pair he es, Nat.add_le_add_right (taken_le_length e es) 2,
      fun x ds hx => ?_⟩
    rw [List.cons_append, List.cons_append, written_pair he, escape_line hx]
  · exact ⟨_, _, written_plain hpair (Ne.symm hd) cs, Nat.le_add_left _ _,
      fun x ds _ => written_plain hpair (Ne.symm hd) _⟩

/-- Then the literal ends within the line. -/
theorem scanChar_line (hline : '\n' ∉ line) (hempty : line ≠ []) (hslash : line ≠ ['\\'])
    (c : Char) : (scanChar c line).more ≤ line.length ∧
      ∀ x ds, IsLineEnd x → (scanChar c (line ++ x :: ds)).seen = (scanChar c line).seen := by
  cases hquote : startsWith '\'' line with
  | true =>
    rw [scanChar, if_pos hquote]
    refine ⟨List.length_pos_iff.mpr hempty, fun x ds hx => ?_⟩
    rw [scanChar, if_pos ((startsWith_line hx line ds).trans hquote)]
    rfl
  | false =>
    obtain ⟨piece, taken, hwritten, hle, hbefore⟩ := exists_written hline hempty hslash
    rw [scanChar_of_written hquote hwritten]
    refine ⟨closeChar_le hle, fun x ds hx => ?_⟩
    rw [scanChar_of_written ((startsWith_line hx line ds).trans hquote) (hbefore x ds hx)]
    exact closeChar_line hx c ds piece hle

end Literal

/-! ### Words, symbols and comments -/

namespace Lexeme

theorem isWordChar_lineEnd (hx : IsLineEnd x) : isWordChar x = false := by
  rcases hx with rfl | rfl <;> decide

theorem scanWord_line (hx : IsLineEnd x) (c : Char) (cs ds : List Char) :
    scanWord c (cs ++ x :: ds) = scanWord c cs := by
  unfold scanWord
  rw [takeWhile_append_cons (isWordChar_lineEnd hx)]

theorem lineEnd_not_mem_symbol (hx : IsLineEnd x) : ∀ e ∈ symbols, x ∉ e.1 := by
  have h : symbols.all (fun e => !e.1.contains '\n' && !e.1.contains '\r') = true := rfl
  intro e he hmem
  have hall := List.all_eq_true.mp h e he
  rcases hx with rfl | rfl
  all_goals
    rw [List.contains_iff_mem.mpr hmem] at hall
    simp at hall

/-- No symbol goes on over the end of a line. -/
theorem isPrefixOf_line (hx : IsLineEnd x) {e : List Char × Kind} (he : e ∈ symbols)
    (cs ds : List Char) : e.1.isPrefixOf (cs ++ x :: ds) = e.1.isPrefixOf cs := by
  rw [Bool.eq_iff_iff, List.isPrefixOf_iff_prefix, List.isPrefixOf_iff_prefix]
  refine ⟨fun hpre => ?_, fun hpre => hpre.trans (List.prefix_append cs _)⟩
  rcases List.prefix_or_prefix_of_prefix hpre (List.prefix_append cs _) with h | ⟨more, hmore⟩
  · exact h
  cases more with
  | nil => exact ⟨[], by rw [← hmore, List.append_nil, List.append_nil]⟩
  | cons d more =>
    rw [← hmore] at hpre
    obtain ⟨tail, htail⟩ := (List.prefix_append_right_inj _).mp hpre
    obtain rfl : d = x := (List.cons.inj htail).1
    exact absurd (hmore ▸ by simp) (lineEnd_not_mem_symbol hx e he)

theorem scanSymbol_line (hx : IsLineEnd x) (c : Char) (cs ds : List Char) :
    scanSymbol c (cs ++ x :: ds) = scanSymbol c cs := by
  have hlongest : longestSymbol? (c :: cs ++ x :: ds) = longestSymbol? (c :: cs) := by
    unfold longestSymbol?
    rw [List.filter_congr fun e he => isPrefixOf_line hx he (c :: cs) ds]
  unfold scanSymbol
  rw [← List.cons_append, hlongest]
  rfl

/-- A block comment ends in both texts or in neither, and takes the same text but for the returns. -/
theorem commentEnd?_withReturns (cs : List Char) :
    commentEnd? cs = none ∧ commentEnd? (withReturns cs) = none ∨
      ∃ n n', commentEnd? cs = some n ∧ commentEnd? (withReturns cs) = some n' ∧
        (withReturns cs).take n' = withReturns (cs.take n) ∧
        (withReturns cs).drop n' = withReturns (cs.drop n) := by
  induction cs using commentEnd?.induct with
  | case1 => exact .inl ⟨rfl, rfl⟩
  | case2 cs => exact .inr ⟨2, 2, rfl, rfl, rfl, rfl⟩
  | case3 c cs hne ih =>
    have hopen : c = '*' → cs.head? ≠ some '/' := by
      intro hc hhead
      obtain ⟨ds, hds⟩ := List.head?_eq_some_iff.mp hhead
      exact hne ds hc hds
    have hopen' : c = '*' → (withReturns cs).head? ≠ some '/' := fun hc =>
      head?_withReturns_ne (by decide) (hopen hc)
    have hreturn (ds : List Char) :
        commentEnd? ('\r' :: '\n' :: ds) = ((commentEnd? ds).map (· + 1)).map (· + 1) := rfl
    rw [commentEnd?_cons hopen]
    by_cases hc : c = '\n'
    · subst hc
      rw [withReturns_newline, hreturn]
      rcases ih with ⟨hnone, hnone'⟩ | ⟨n, n', hsome, hsome', htake, hdrop⟩
      · rw [hnone, hnone']
        exact .inl ⟨rfl, rfl⟩
      · rw [hsome, hsome']
        refine .inr ⟨n + 1, n' + 2, rfl, rfl, ?_, hdrop⟩
        rw [List.take_succ_cons, List.take_succ_cons, List.take_succ_cons, withReturns_newline, htake]
    · rw [withReturns_cons hc, commentEnd?_cons hopen']
      rcases ih with ⟨hnone, hnone'⟩ | ⟨n, n', hsome, hsome', htake, hdrop⟩
      · rw [hnone, hnone']
        exact .inl ⟨rfl, rfl⟩
      · rw [hsome, hsome']
        refine .inr ⟨n + 1, n' + 1, rfl, rfl, ?_, hdrop⟩
        rw [List.take_succ_cons, List.take_succ_cons, withReturns_cons hc, htake]

/-! ### Lexemes of both texts -/

/-- What is found behind a character in a text, and in the text with returns. -/
inductive Twin (c : Char) (cs : List Char) : Lexeme → Lexeme → Prop
  /-- It ends within its line; a line comment only does so where the text ends. -/
  | within {l l' : Lexeme} (hseen : l.seen = l'.seen) (hline : '\n' ∉ cs.take l.more)
    (hend : l.kind = .lineComment → cs.drop l.more = []) : Twin c cs l l'
  /-- It takes the rest of its line, and in the text with returns the carriage return, too. -/
  | edge {l l' : Lexeme} {line rest : List Char} (htext : cs = line ++ '\n' :: rest)
    (hline : '\n' ∉ line) (hkind : l.kind = l'.kind)
    (hopen : l.kind = .whitespace ∨ l.kind = .lineComment ∨ l.kind = .invalid)
    (hmore : l.more = line.length) (hmore' : l'.more = line.length + 1) : Twin c cs l l'
  /-- It may go on over the ends of lines. -/
  | across {kind : Kind} {n n' : Nat} (hkind : kind = .blockComment ∨ kind = .invalid)
    (htaken : (withReturns cs).take n' = withReturns (cs.take n))
    (hbehind : (withReturns cs).drop n' = withReturns (cs.drop n)) :
    Twin c cs (.ofText kind c cs n) (.ofText kind c (withReturns cs) n')

theorem Twin.of_isComment {l l' : Lexeme} (hseen : l.seen = l'.seen) (hline : '\n' ∉ cs.take l.more)
    (hkind : l.kind.isComment = false) : Twin c cs l l' :=
  .within hseen hline fun hcomment => by
    rw [hcomment] at hkind
    cases hkind

/-- The last line of a text is the same in both, so what is found on the other lines is to be
compared. -/
theorem twin_of_lines (c : Char) {f : List Char → Lexeme} (hkind : ∀ cs, (f cs).kind.isComment = false)
    (h : ∀ line rest, '\n' ∉ line → Twin c (line ++ '\n' :: rest) (f (line ++ '\n' :: rest))
      (f (line ++ '\r' :: '\n' :: withReturns rest))) (cs : List Char) :
    Twin c cs (f cs) (f (withReturns cs)) := by
  by_cases hmem : '\n' ∈ cs
  · obtain ⟨line, rest, rfl, hline⟩ := List.eq_append_cons_of_mem hmem
    rw [withReturns_line hline]
    exact h line rest hline
  · rw [withReturns_of_line hmem]
    exact .of_isComment rfl (fun hnewline => hmem (List.mem_of_mem_take hnewline)) (hkind cs)

/-- A lexeme that ends before the end of its line is found in both texts. -/
theorem twin_of_line (c : Char) {f : List Char → Lexeme} (hkind : ∀ cs, (f cs).kind.isComment = false)
    (hmore : ∀ cs : List Char, '\n' ∉ cs.take (f cs).more)
    (hline : ∀ {x}, IsLineEnd x → ∀ cs ds, (f (cs ++ x :: ds)).seen = (f cs).seen) (cs : List Char) :
    Twin c cs (f cs) (f (withReturns cs)) := by
  refine twin_of_lines c hkind (fun line rest _ => .of_isComment ?_ (hmore _) (hkind _)) cs
  rw [hline isLineEnd_newline, hline isLineEnd_return]

theorem twin_scanSymbol (c : Char) (cs : List Char) :
    Twin c cs (scanSymbol c cs) (scanSymbol c (withReturns cs)) :=
  twin_of_line c (fun cs => (isSymbol_scanSymbol c cs).isComment)
    (fun cs => (isSymbol_scanSymbol c cs).newline_not_mem) (fun hx cs ds => congrArg seen (scanSymbol_line hx c cs ds)) cs

theorem twin_scanWord (c : Char) (cs : List Char) :
    Twin c cs (scanWord c cs) (scanWord c (withReturns cs)) := by
  refine twin_of_line c (fun cs => (isWord_ofWord _).isComment) (fun cs => ?_)
    (fun hx cs ds => congrArg seen (scanWord_line hx c cs ds)) cs
  change '\n' ∉ cs.take (cs.takeWhile isWordChar).length
  rw [take_takeWhile]
  exact newline_not_mem_takeWhile (by decide) cs

theorem twin_number (c : Char) (cs : List Char) :
    Twin c cs (Number.scan c cs) (Number.scan c (withReturns cs)) :=
  twin_of_line c (fun cs => (isLiteral_number c cs).isComment) (Number.newline_not_mem_scan c)
    (fun hx cs ds => Number.scan_line hx c cs ds) cs

theorem seen_scanString (c : Char) {cs ds : List Char}
    (h : Literal.content cs = Literal.content ds) :
    (Literal.scanString c cs).seen = (Literal.scanString c ds).seen := by
  rw [Literal.scanString_eq, Literal.scanString_eq, h]
  dsimp only
  split
  · split <;> rfl
  · rfl

theorem scanString_of_open (c : Char) {cs body : List Char}
    (h : Literal.content cs = (body, false)) :
    Literal.scanString c cs = .invalid c cs body.length := by
  rw [Literal.scanString_eq, h]
  rfl

theorem twin_scanString (c : Char) (cs : List Char) :
    Twin c cs (Literal.scanString c cs) (Literal.scanString c (withReturns cs)) := by
  refine twin_of_lines c (fun cs => (isLiteral_scanString c cs).isComment)
    (fun line rest hline => ?_) cs
  cases hclosed : (Literal.content line).2 with
  | true =>
    have hsame (ds : List Char) := Literal.content_of_closed hclosed ds
    refine .of_isComment (seen_scanString c ((hsame _).trans (hsame _).symm)) ?_
      (isLiteral_scanString c _).isComment
    rw [Literal.more_scanString]
    exact Literal.newline_not_mem_content _
  | false =>
    have hopen := Literal.content_of_open hclosed hline rest
    have hreturn : '\n' ∉ line ++ ['\r'] := by simpa using hline
    have hopen' := Literal.content_of_open (Literal.content_return hclosed) hreturn (withReturns rest)
    rw [← List.append_cons] at hopen'
    rw [scanString_of_open c hopen, scanString_of_open c hopen']
    exact .edge rfl hline rfl (.inr (.inr rfl)) rfl (List.length_append ..)

theorem twin_scanChar (c : Char) (cs : List Char) :
    Twin c cs (Literal.scanChar c cs) (Literal.scanChar c (withReturns cs)) := by
  refine twin_of_lines c (fun cs => (isLiteral_scanChar c cs).isComment)
    (fun line rest hline => ?_) cs
  by_cases hempty : line = []
  · subst hempty
    exact .edge rfl hline rfl (.inr (.inr rfl)) rfl rfl
  by_cases hslash : line = ['\\']
  · subst hslash
    exact .edge rfl hline rfl (.inr (.inr rfl)) rfl rfl
  obtain ⟨hle, hsame⟩ := Literal.scanChar_line hline hempty hslash c
  have hnewline := hsame '\n' rest isLineEnd_newline
  refine .of_isComment (hnewline.trans (hsame '\r' _ isLineEnd_return).symm) ?_
    (isLiteral_scanChar c _).isComment
  rw [(seen_eq_iff.mp hnewline).2.1, List.take_append_of_le_length hle]
  exact fun hmem => hline (List.mem_of_mem_take hmem)

/-- A carriage return is a blank, so blanks that reach the end of their line take it. -/
theorem twin_blanks (c : Char) (cs : List Char) :
    Twin c cs (.bare .whitespace (cs.takeWhile isBlank).length)
      (.bare .whitespace ((withReturns cs).takeWhile isBlank).length) := by
  refine twin_of_lines (f := fun cs => .bare .whitespace (cs.takeWhile isBlank).length) c
    (fun _ => rfl) (fun line rest hline => ?_) cs
  have hnewline (cs ds : List Char) : (cs ++ '\n' :: ds).takeWhile isBlank = cs.takeWhile isBlank :=
    takeWhile_append_cons rfl cs ds
  rw [List.append_cons line '\r', hnewline, hnewline, List.takeWhile_append]
  split
  · rename_i hall
    rw [hall]
    exact .edge rfl hline rfl (.inl rfl) rfl (List.length_append ..)
  · refine .of_isComment rfl ?_ rfl
    change '\n' ∉ (line ++ '\n' :: rest).take (line.takeWhile isBlank).length
    rw [← hnewline line rest, take_takeWhile]
    exact newline_not_mem_takeWhile rfl _

theorem takeWhile_line (h : '\n' ∉ cs) (ds : List Char) :
    (cs ++ ds).takeWhile (· ≠ '\n') = cs ++ ds.takeWhile (· ≠ '\n') :=
  List.takeWhile_append_of_pos fun _ hd => decide_eq_true fun heq => h (heq ▸ hd)

/-- A line comment takes its line. -/
theorem twin_lineComment (c : Char) (cs : List Char) :
    Twin c cs (.ofText .lineComment c cs (cs.takeWhile (· ≠ '\n')).length)
      (.ofText .lineComment c (withReturns cs) ((withReturns cs).takeWhile (· ≠ '\n')).length) := by
  by_cases hmem : '\n' ∈ cs
  · obtain ⟨line, rest, rfl, hline⟩ := List.eq_append_cons_of_mem hmem
    have hnewline {cs : List Char} (h : '\n' ∉ cs) (ds : List Char) :
        (cs ++ '\n' :: ds).takeWhile (· ≠ '\n') = cs := by
      rw [takeWhile_line h, List.takeWhile_cons_of_neg (by simp), List.append_nil]
    have hreturn : '\n' ∉ line ++ ['\r'] := by simpa using hline
    rw [withReturns_line hline, hnewline hline, List.append_cons line '\r', hnewline hreturn]
    exact .edge rfl hline rfl (.inr (.inl rfl)) rfl (List.length_append ..)
  · rw [withReturns_of_line hmem]
    refine .within rfl (fun hnewline => hmem (List.mem_of_mem_take hnewline)) fun _ => ?_
    change cs.drop (cs.takeWhile (· ≠ '\n')).length = []
    have hall := takeWhile_line hmem []
    rw [List.append_nil, List.takeWhile_nil, List.append_nil] at hall
    rw [hall, List.drop_length]

theorem twin_scanSlash (c : Char) (cs : List Char) :
    Twin c cs (scanSlash c cs) (scanSlash c (withReturns cs)) := by
  by_cases hline : cs.head? = some '/'
  · obtain ⟨ds, rfl⟩ := List.head?_eq_some_iff.mp hline
    exact twin_lineComment c ('/' :: ds)
  by_cases hblock : cs.head? = some '*'
  · obtain ⟨ds, rfl⟩ := List.head?_eq_some_iff.mp hblock
    have hstar : withReturns ('*' :: ds) = '*' :: withReturns ds := rfl
    rcases commentEnd?_withReturns ds with ⟨hnone, hnone'⟩ | ⟨n, n', hsome, hsome', htaken, hbehind⟩
    · rw [hstar, scanSlash, scanSlash, hnone, hnone']
      refine .across (.inr rfl) ?_ ?_
      · rw [← hstar, List.take_length, List.take_length]
      · rw [← hstar, List.drop_length, List.drop_length]
        rfl
    · rw [hstar, scanSlash, scanSlash, hsome, hsome']
      refine .across (.inl rfl) ?_ hbehind
      rw [hstar, List.take_succ_cons, List.take_succ_cons, htaken]
      rfl
  · rw [scanSlash_eq_scanSymbol hline hblock,
      scanSlash_eq_scanSymbol (head?_withReturns_ne (by decide) hline)
        (head?_withReturns_ne (by decide) hblock)]
    exact twin_scanSymbol c cs

/-- **At one place, before any newline, both texts go on with lexemes of one kind.** -/
theorem twin_scan (hc : c ≠ '\n') (cs : List Char) : Twin c cs (scan c cs) (scan c (withReturns cs)) := by
  unfold scan
  split_ifs
  · exact twin_blanks c cs
  · exact twin_scanSlash c cs
  · exact twin_scanString c cs
  · exact twin_scanChar c cs
  · exact twin_number c cs
  · exact twin_scanWord c cs
  · exact twin_scanSymbol c cs

end Lexeme

end SableFront
