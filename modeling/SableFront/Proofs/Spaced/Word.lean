import Mathlib.Tactic.SplitIfs
import SableFront.Proofs.Literals.Digits
import SableFront.Token.Significant

/-!
# Spaced text: words

A word is a token as it is written, with the kind and the value that it is read as. Wherever a blank
or the end of the text follows it, each word is read alike:

* `Word.isRead_operator`, `Word.isRead_mark`: the spellings of the vocabulary;
* `Word.isRead_bool`, `Word.isRead_null`: the words for literals;
* `Word.isRead_name`: names, which are no reserved words;
* `Word.isRead_numeral`: base-ten integers that fit 64 bits, and with it `Word.isRead_int`.

So a text of words with single blanks between them is cut into these words.
-/

namespace SableFront

/-- A token as it is written, and what it is read as. -/
structure Word where
  text : String
  kind : Kind
  value : Value

namespace Word

def operator (o : Operator) : Word := ⟨o.spelling, .operator o, .none⟩

def mark (p : Punctuation) : Word := ⟨p.spelling, .punctuation p, .none⟩

def bool (b : Bool) : Word := ⟨if b then "true" else "false", .bool, .bool b⟩

def null : Word := ⟨"nullptr", .null, .none⟩

def name (s : String) : Word := ⟨s, .ident, .text s⟩

/-- A base-ten integer, however it is written. -/
def numeral (digits : String) : Word := ⟨digits, .int, .int (Number.valueOf 10 digits.toList)⟩

def int (n : Nat) : Word := ⟨toString n, .int, .int n⟩

end Word

/-- The kind of the first of some words, or that of the end of the text. -/
def Word.kindAt (ws : List Word) : Kind := (ws.head?.map Word.kind).getD .eof

/-- A blank or the end of the text comes next. -/
def BlankNext (cs : List Char) : Prop := cs = [] ∨ ∃ ds, cs = ' ' :: ds

/-- Before the text the word is read as what it says. -/
structure Word.IsReadBefore (w : Word) (rest : List Char) : Prop where
  scan : ∃ c cs, w.text.toList = c :: cs ∧
    Lexeme.scan c (cs ++ rest) = ⟨w.kind, w.value, cs.length⟩
  significant : w.kind.isTrivia = false
  not_eof : w.kind ≠ .eof

/-- Before a blank or the end of the text the word is read as what it says. -/
structure Word.IsRead (w : Word) : Prop where
  scan : ∃ c cs, w.text.toList = c :: cs ∧
    ∀ rest, BlankNext rest → Lexeme.scan c (cs ++ rest) = ⟨w.kind, w.value, cs.length⟩
  significant : w.kind.isTrivia = false
  not_eof : w.kind ≠ .eof

/-! ### Names and numerals -/

/-- The text is a name: a word that is not reserved. -/
structure IsName (s : String) : Prop where
  word : ∃ c cs, s.toList = c :: cs ∧ Lexeme.isWordStart c ∧ cs.all Lexeme.isWordChar
  keyword : Keyword.ofSpelling? s = none
  operator : Operator.ofWord? s = none

/-- The text is a base-ten integer literal: digits that stand for a number below the limit, and a
zero in front is not the mark of another base. -/
structure IsNumeral (s : String) : Prop where
  digits : ∃ c cs, s.toList = c :: cs ∧ (c :: cs).all (Number.isDigit 10) ∧
    Number.radix? c cs = none
  lt : Number.valueOf 10 s.toList < Number.limit

variable {c : Char} {cs rest : List Char}

/-! ### Single characters -/

theorem Number.digit?_ten (h : '0' ≤ c ∧ c ≤ '9') :
    Number.digit? 10 c = some (c.toNat - '0'.toNat) := by
  have hle : c.toNat ≤ 57 := h.2
  have hlt : c.toNat - '0'.toNat < 10 := by
    show c.toNat - 48 < 10
    omega
  unfold digit?
  rw [if_pos h]
  exact if_pos hlt

theorem Number.isDigit_ten : Number.isDigit 10 c ↔ '0' ≤ c ∧ c ≤ '9' := by
  unfold isDigit
  by_cases h : '0' ≤ c ∧ c ≤ '9'
  · simp [digit?_ten h, h]
  · unfold digit?
    rw [if_neg h]
    simp only [Option.isSome_ite, h, iff_false, Nat.not_lt]
    split_ifs
    · exact Nat.le_add_left 10 _
    · exact Nat.le_add_left 10 _
    · exact Nat.le_refl 10

/-- No letter is a digit. -/
theorem not_isDigit_of_isWordStart (h : Lexeme.isWordStart c) : Number.isDigit 10 c = false := by
  rw [Bool.eq_false_iff]
  intro hdigit
  have hhigh : c.val.toNat ≤ 57 := (Number.isDigit_ten.mp hdigit).2
  simp only [Lexeme.isWordStart, Bool.or_eq_true, decide_eq_true_eq] at h
  rcases h with h | rfl
  · rcases Bool.or_eq_true_iff.mp h with hupper | hlower
    · have : 65 ≤ c.val.toNat := (of_decide_eq_true hupper).1
      omega
    · have : 97 ≤ c.val.toNat := of_decide_eq_true (Bool.and_eq_true_iff.mp hlower).1
      omega
  · exact absurd hhigh (by decide)

theorem Number.isDigit_iff : c.isDigit ↔ '0' ≤ c ∧ c ≤ '9' := by
  rw [Char.isDigit, Bool.and_eq_true, decide_eq_true_eq, decide_eq_true_eq]
  rfl

/-- What starts with a digit is a number. -/
theorem scan_digit (hc : Number.isDigit 10 c) : Lexeme.scan c cs = Number.scan c cs := by
  have hne {d : Char} (hd : Number.isDigit 10 d = false) : c ≠ d := by
    rintro rfl
    rw [hd] at hc
    cases hc
  have hblank : Lexeme.isBlank c = false := by
    simp [Lexeme.isBlank, hne (d := ' ') rfl, hne (d := '\t') rfl, hne (d := '\r') rfl]
  unfold Lexeme.scan
  rw [if_neg (by simp [hblank]), if_neg (hne rfl), if_neg (hne rfl), if_neg (hne rfl),
    if_neg (hne rfl), if_pos hc]

theorem Number.valueOf_eq_ofDigitChars {digits : List Char} (h : ∀ d ∈ digits, d.isDigit) :
    Number.valueOf 10 digits = Nat.ofDigitChars 10 digits 0 := by
  suffices hfrom : ∀ n, digits.foldl (fun n c => n * 10 + (digit? 10 c).getD 0) n =
      Nat.ofDigitChars 10 digits n from hfrom 0
  induction digits with
  | nil => exact fun n => rfl
  | cons d digits ih =>
    intro n
    have hd := digit?_ten (isDigit_iff.mp (h d List.mem_cons_self))
    rw [List.foldl_cons, Nat.ofDigitChars_cons, ih fun e he => h e (List.mem_cons_of_mem d he), hd,
      Option.getD_some, Nat.mul_comm]

theorem Number.valueOf_toDigits (n : Nat) : Number.valueOf 10 (Nat.toDigits 10 n) = n := by
  rw [valueOf_eq_ofDigitChars fun d hd => Nat.isDigit_of_mem_toDigits (by decide) (by decide) hd]
  exact Nat.ofDigitChars_ten_toDigits

/-- Numbers are written without zeros in front. -/
theorem head_toDigits {n : Nat} (h : 0 < n) : ∃ c cs, Nat.toDigits 10 n = c :: cs ∧ c ≠ '0' := by
  induction n using Nat.strongRecOn with
  | ind n ih =>
    rw [Nat.toDigits_eq_if (by decide)]
    split_ifs with hlt
    · refine ⟨_, _, rfl, fun h0 => ?_⟩
      have := Nat.digitChar_eq_zero.mp h0
      omega
    · obtain ⟨c, cs, hcs, hc⟩ := ih (n / 10) (by omega) (by omega)
      exact ⟨c, cs ++ _, by rw [hcs]; rfl, hc⟩

theorem BlankNext.head {p : Char → Bool} (hrest : BlankNext rest) (hblank : p ' ' = false) :
    ∀ d ∈ rest.head?, p d = false := by
  obtain rfl | ⟨ds, rfl⟩ := hrest
  · exact fun d hd => absurd hd (Option.not_mem_none d)
  · exact fun d hd => Option.some.inj hd ▸ hblank

theorem takeWhile_append_rest {p : Char → Bool} (hcs : ∀ d ∈ cs, p d)
    (hrest : ∀ d ∈ rest.head?, p d = false) : (cs ++ rest).takeWhile p = cs := by
  rw [List.takeWhile_append_of_pos hcs]
  cases rest with
  | nil => rw [List.takeWhile_nil, List.append_nil]
  | cons d ds => rw [List.takeWhile_cons_of_neg (by simp [hrest d rfl]), List.append_nil]

/-- A word ends where no further character of a word follows. -/
theorem Lexeme.scan_word (hstart : isWordStart c) (hcs : ∀ d ∈ cs, isWordChar d)
    (hrest : ∀ d ∈ rest.head?, isWordChar d = false) :
    scan c (cs ++ rest) =
      ⟨(ofWord (String.ofList (c :: cs))).1, (ofWord (String.ofList (c :: cs))).2, cs.length⟩ := by
  have hne {d : Char} (hd : isWordStart d = false) : c ≠ d := by
    rintro rfl
    rw [hd] at hstart
    cases hstart
  have hblank : isBlank c = false := by
    simp [isBlank, hne (d := ' ') rfl, hne (d := '\t') rfl, hne (d := '\r') rfl]
  unfold scan
  rw [if_neg (by simp [hblank]), if_neg (hne rfl), if_neg (hne rfl), if_neg (hne rfl),
    if_neg (hne rfl), if_neg (by simp [not_isDigit_of_isWordStart hstart]), if_pos hstart]
  unfold scanWord
  simp only [takeWhile_append_rest hcs hrest]

/-! ### The kinds of words -/

namespace Word

/-- A word is read if it is scanned alike at the end of the text and before a blank. -/
theorem IsRead.of_scan {w : Word} (htext : w.text.toList = c :: cs)
    (hend : Lexeme.scan c cs = ⟨w.kind, w.value, cs.length⟩)
    (hblank : ∀ ds, Lexeme.scan c (cs ++ ' ' :: ds) = ⟨w.kind, w.value, cs.length⟩)
    (htrivia : w.kind.isTrivia = false) (heof : w.kind ≠ .eof) : w.IsRead := by
  refine ⟨⟨c, cs, htext, fun rest hrest => ?_⟩, htrivia, heof⟩
  obtain rfl | ⟨ds, rfl⟩ := hrest
  · rw [List.append_nil]
    exact hend
  · exact hblank ds

theorem isRead_operator (o : Operator) : (operator o).IsRead := by
  cases o <;> exact .of_scan rfl rfl (fun ds => rfl) rfl Kind.noConfusion

theorem isRead_mark (p : Punctuation) : (mark p).IsRead := by
  cases p <;> exact .of_scan rfl rfl (fun ds => rfl) rfl Kind.noConfusion

theorem isRead_bool (b : Bool) : (bool b).IsRead := by
  cases b <;> exact .of_scan rfl rfl (fun ds => rfl) rfl Kind.noConfusion

theorem isRead_null : null.IsRead := .of_scan rfl rfl (fun _ => rfl) rfl Kind.noConfusion

theorem scan_name {s : String} (h : IsName s) : ∃ c cs, s.toList = c :: cs ∧
    ∀ rest : List Char, (∀ d ∈ rest.head?, Lexeme.isWordChar d = false) →
      Lexeme.scan c (cs ++ rest) = ⟨.ident, .text s, cs.length⟩ := by
  obtain ⟨c, cs, hs, hstart, hall⟩ := h.word
  have hword : Lexeme.ofWord s = (.ident, .text s) := by
    unfold Lexeme.ofWord
    rw [h.keyword, h.operator]
  refine ⟨c, cs, hs, fun rest hrest => ?_⟩
  rw [Lexeme.scan_word hstart (List.all_eq_true.mp hall) hrest, ← hs, String.ofList_toList, hword]

theorem isRead_name {s : String} (h : IsName s) : (name s).IsRead := by
  obtain ⟨c, cs, hs, hscan⟩ := scan_name h
  exact ⟨⟨c, cs, hs, fun rest hrest => hscan rest (hrest.head rfl)⟩, rfl, Kind.noConfusion⟩

theorem isRead_numeral {s : String} (h : IsNumeral s) : (numeral s).IsRead := by
  obtain ⟨c, cs, hs, hall, hradix⟩ := h.digits
  have hdigits : ∀ d ∈ c :: cs, Number.isDigit 10 d := List.all_eq_true.mp hall
  refine ⟨⟨c, cs, hs, fun rest hrest => ?_⟩, rfl, Kind.noConfusion⟩
  have hc : Number.isDigit 10 c := hdigits c List.mem_cons_self
  -- what follows the digits gives the literal neither another base nor a fraction
  have hbase : Number.radix? c (cs ++ rest) = none := by
    cases cs with
    | cons d ds => exact hradix
    | nil =>
      obtain rfl | ⟨ds, rfl⟩ := hrest
      · rfl
      · simp [Number.radix?, show Number.isDigit 8 ' ' = false from rfl]
  have hrun : Number.digitRun 10 (cs ++ rest) = cs :=
    takeWhile_append_rest (fun d hd => hdigits d (List.mem_cons_of_mem c hd)) (hrest.head rfl)
  have hpoint : Number.startsFraction rest = false := by
    obtain rfl | ⟨ds, rfl⟩ := hrest <;> rfl
  have hlt : Number.valueOf 10 (c :: cs) < Number.limit := hs ▸ h.lt
  rw [scan_digit hc]
  have hvalue : (UInt64.ofNat (Number.valueOf 10 (c :: cs))).toNat = Number.valueOf 10 (c :: cs) :=
    UInt64.toNat_ofNat_of_lt' hlt
  unfold Number.scan
  simp only [hbase, Number.readDigits_ten, hrun, List.drop_left, hpoint, Bool.false_eq_true, if_false]
  rw [Number.value?, if_neg (List.cons_ne_nil c cs), Number.checked_of_lt hlt, numeral, hs,
    Number.integer, hvalue]

theorem toList_toString (n : Nat) : (toString n).toList = Nat.toDigits 10 n := by
  rw [Nat.toString_eq_ofList_toDigits, String.toList_ofList]

theorem isNumeral_toString {n : Nat} (h : n < Number.limit) : IsNumeral (toString n) := by
  have hdigits (d : Char) (hd : d ∈ Nat.toDigits 10 n) : Number.isDigit 10 d :=
    Number.isDigit_ten.mpr (Number.isDigit_iff.mp
      (Nat.isDigit_of_mem_toDigits (by decide) (by decide) hd))
  refine ⟨?_, by rwa [toList_toString, Number.valueOf_toDigits]⟩
  rw [toList_toString]
  rcases Nat.eq_zero_or_pos n with rfl | hpos
  · exact ⟨'0', [], rfl, rfl, rfl⟩
  · obtain ⟨c, cs, hcs, hc⟩ := head_toDigits hpos
    refine ⟨c, cs, hcs, List.all_eq_true.mpr (hcs ▸ hdigits), ?_⟩
    cases cs with
    | nil => rfl
    | cons d ds => exact if_pos hc

theorem int_eq_numeral (n : Nat) : int n = numeral (toString n) := by
  rw [numeral, toList_toString, Number.valueOf_toDigits, int]

theorem isRead_int {n : Nat} (h : n < Number.limit) : (int n).IsRead :=
  int_eq_numeral n ▸ isRead_numeral (isNumeral_toString h)

end Word

theorem Word.IsRead.before {w : Word} (h : w.IsRead) (hrest : BlankNext rest) :
    w.IsReadBefore rest := by
  obtain ⟨c, cs, htext, hscan⟩ := h.scan
  exact ⟨⟨c, cs, htext, hscan rest hrest⟩, h.significant, h.not_eof⟩

/-! ### Spaced text -/

/-- The words with a blank before each. -/
def spaced (ws : List Word) : List Char := ws.flatMap fun w => ' ' :: w.text.toList

/-- The words with single blanks between them. -/
def sourceOf (ws : List Word) : String := " ".intercalate (ws.map Word.text)

theorem toList_sourceOf (w : Word) (ws : List Word) :
    (sourceOf (w :: ws)).toList = w.text.toList ++ spaced ws := by
  induction ws generalizing w with
  | nil =>
    rw [sourceOf, List.map_cons, List.map_nil, String.intercalate_singleton, spaced,
      List.flatMap_nil, List.append_nil]
  | cons v ws ih =>
    have hcons : sourceOf (w :: v :: ws) = w.text ++ " " ++ sourceOf (v :: ws) :=
      String.intercalate_cons_cons
    rw [hcons, String.toList_append, String.toList_append, ih v, List.append_assoc]
    rfl

theorem blankNext_spaced (ws : List Word) : BlankNext (spaced ws) := by
  cases ws with
  | nil => exact .inl rfl
  | cons w ws => exact .inr ⟨_, rfl⟩

/-- No word starts with a blank. -/
theorem Word.IsRead.not_blank {w : Word} (hw : w.IsRead) :
    ∃ d ds, w.text.toList = d :: ds ∧ Lexeme.isBlank d = false := by
  obtain ⟨d, ds, htext, hscan⟩ := hw.scan
  refine ⟨d, ds, htext, ?_⟩
  rw [Bool.eq_false_iff]
  intro hblank
  have hspace := hscan [] (.inl rfl)
  unfold Lexeme.scan at hspace
  rw [if_pos hblank] at hspace
  have hkind : Kind.whitespace = w.kind := congrArg Lexeme.kind hspace
  have hsignificant := hw.significant
  rw [← hkind] at hsignificant
  cases hsignificant

/-- What is found before spaced text: the first word, or the end of the text. -/
structure Significant.Finds (f : Significant) (ws : List Word) : Prop where
  kind : f.token.kind = Word.kindAt ws
  value : ∀ w ∈ ws.head?, f.token.value = w.value
  rest : f.cursor.rest = spaced ws.tail
  newline : f.newline = false
  comments : f.comments = []

namespace Cursor

/-- A word that comes next is the next token. -/
theorem next_word {c : Cursor} {w : Word} (hw : w.IsReadBefore rest)
    (h : c.rest = w.text.toList ++ rest) :
    c.next.1.kind = w.kind ∧ c.next.1.value = w.value ∧ c.next.2.rest = rest := by
  obtain ⟨d, ds, htext, hscan⟩ := hw.scan
  rw [htext, List.cons_append] at h
  have hnext : c.next = (c.place w.kind w.value (ds.length + 1), c.skip (ds.length + 1)) := by
    unfold next
    rw [h]
    simp only [hscan]
  rw [hnext]
  refine ⟨rfl, rfl, ?_⟩
  show c.rest.drop (ds.length + 1) = rest
  rw [h, List.drop_succ_cons, List.drop_left]

/-- A significant token that comes next is found at once. -/
theorem significant_eq_next {c : Cursor} (h : c.rest = [] ∨ c.next.1.kind.isTrivia = false) :
    c.significant = ⟨c.next.1, c.next.2, false, []⟩ := by
  rw [significant, dif_neg]
  rintro ⟨hrest, htrivia⟩
  rcases h with h | h
  · exact hrest h
  · rw [h] at htrivia
    cases htrivia

theorem finds_nil {c : Cursor} (h : c.rest = []) : c.significant.Finds [] := by
  have hnext : c.next = (.eof c.position c.offset, c) := by
    unfold next
    rw [h]
  rw [significant_eq_next (.inl h), hnext]
  exact ⟨rfl, fun w hw => absurd hw (Option.not_mem_none w), h, rfl, rfl⟩

theorem finds_word {c : Cursor} {w : Word} {ws : List Word} (hw : w.IsRead)
    (h : c.rest = w.text.toList ++ spaced ws) : c.significant.Finds (w :: ws) := by
  obtain ⟨hkind, hvalue, hrest⟩ := next_word (hw.before (blankNext_spaced ws)) h
  rw [significant_eq_next (.inr (hkind ▸ hw.significant))]
  refine ⟨hkind, fun v hv => ?_, hrest, rfl, rfl⟩
  cases hv
  exact hvalue

/-- A single blank is passed over. -/
theorem significant_blank {c : Cursor} {d : Char} {ds : List Char} (hd : Lexeme.isBlank d = false)
    (h : c.rest = ' ' :: d :: ds) : c.significant = (c.skip 1).significant := by
  have hscan : Lexeme.scan ' ' (d :: ds) = .bare .whitespace 0 := by
    unfold Lexeme.scan
    rw [if_pos (by rfl), List.takeWhile_cons_of_neg (by simp [hd])]
    rfl
  have hnext : c.next = (c.place .whitespace .none 1, c.skip 1) := by
    unfold next
    rw [h]
    simp only [hscan]
    rfl
  have hne : c.rest ≠ [] := h ▸ List.cons_ne_nil _ _
  rw [significant, dif_pos ⟨hne, by rw [hnext]; rfl⟩, hnext]
  rfl

/-- A blank before a word is passed over. -/
theorem finds_spaced {c : Cursor} {ws : List Word} (hws : ∀ w ∈ ws, w.IsRead)
    (h : c.rest = spaced ws) : c.significant.Finds ws := by
  cases ws with
  | nil => exact finds_nil h
  | cons w ws =>
    have hw := hws w List.mem_cons_self
    obtain ⟨d, ds, htext, hd⟩ := hw.not_blank
    have hrest : c.rest = ' ' :: (w.text.toList ++ spaced ws) := h
    have hblank : c.rest = ' ' :: d :: (ds ++ spaced ws) := by rw [hrest, htext, List.cons_append]
    have hskip : (c.skip 1).rest = w.text.toList ++ spaced ws := by
      show c.rest.drop 1 = _
      rw [hrest]
      rfl
    rw [significant_blank hd hblank]
    exact finds_word hw hskip

end Cursor

end SableFront
