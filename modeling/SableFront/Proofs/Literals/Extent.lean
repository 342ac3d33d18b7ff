import SableFront.Proofs.Coverage.Line
import SableFront.Proofs.Literals.Escape
import SableFront.Proofs.Tiling.Found

/-!
# Literals: where strings end

A backslash and the character behind it make a pair, whatever that character is. The pairs of a string
literal, taken from its opening quote on, say where it ends: at the first quote that is not the second
character of a pair (`quote_contentText`), or else where the line does (`drop_contentSize`). The code
points that are escaped in it say only whether it is a string, and not where it ends.
-/

namespace SableFront

namespace Literal

/-- The character at the place is the second one of a pair: before it stands a backslash that is not
the second one itself. -/
def isSecond (text : List Char) : Nat → Bool
  | 0 => false
  | i + 1 => text[i]? == some '\\' && !isSecond text i

/-- The quote at the place closes the string that the text opens with its first character. -/
structure Closes (text : List Char) (i : Nat) : Prop where
  behind : 0 < i
  quote : text[i]? = some '"'
  first : isSecond text i = false

/-- The text starts with a run of hexadecimal digits, as long as it can be but no longer than that many
digits, and the run is not empty and denotes the code point of a character. -/
def StartsWithCodePoint (digits : Nat) (cs : List Char) : Prop :=
  ∃ run rest n, cs = run ++ rest ∧ run ≠ [] ∧ run.length ≤ digits ∧
    (run.length < digits → ∀ c ∈ rest.head?, ∀ d, ¬ Number.Writes d c) ∧
    Number.Denotes 16 run n ∧ n.isValidChar

/-- Wherever the text escapes a code point, that is the code point of a character. -/
def WellEscaped (text : List Char) : Prop :=
  ∀ i, isSecond text i →
    (text[i]? = some 'u' → StartsWithCodePoint 4 (text.drop (i + 1))) ∧
      (text[i]? = some 'U' → StartsWithCodePoint 8 (text.drop (i + 1)))

variable {c : Char} {cs text : List Char} {digits i : Nat}

/-! ### Pairs -/

/-- Only a backslash starts a pair. -/
theorem isSecond_cons (hc : c ≠ '\\') (cs : List Char) (i : Nat) :
    isSecond (c :: cs) (i + 1) = isSecond cs i := by
  induction i with
  | zero => simpa [isSecond] using hc
  | succ i ih => rw [isSecond, ih, isSecond, List.getElem?_cons_succ]

/-- Behind a pair the pairs are taken anew. -/
theorem isSecond_pair (c : Char) (cs : List Char) (i : Nat) :
    isSecond ('\\' :: c :: cs) (i + 2) = isSecond cs i := by
  induction i with
  | zero => simp [isSecond]
  | succ i ih => rw [isSecond, ih, isSecond, List.getElem?_cons_succ, List.getElem?_cons_succ]

/-! ### The closing quote -/

theorem closes_iff : Closes ('"' :: cs) (i + 1) ↔ cs[i]? = some '"' ∧ isSecond cs i = false := by
  have hsecond := isSecond_cons (c := '"') (by decide) cs i
  rw [← hsecond]
  exact ⟨fun h => ⟨h.quote, h.first⟩, fun h => ⟨Nat.succ_pos i, h.1, h.2⟩⟩

/-- What a string takes behind its opening quote. -/
def contentText (cs : List Char) : List Char := (content cs).1 ++ if (content cs).2 then ['"'] else []

theorem contentText_pair (hc : c ≠ '\n') (cs : List Char) :
    contentText ('\\' :: c :: cs) = '\\' :: c :: contentText cs := by
  rw [contentText, content_pair hc]
  rfl

theorem contentText_cons (hpair : c = '\\' → cs = []) (hquote : c ≠ '"') (hline : c ≠ '\n') :
    contentText (c :: cs) = c :: contentText cs := by
  rw [contentText, content_cons hpair hquote hline]
  rfl

theorem take_contentSize (cs : List Char) : cs.take (contentSize cs) = contentText cs := by
  -- on the content, pair by pair and character by character
  induction cs using content.induct with
  | case1 | case2 | case4 | case5 => rfl
  | case3 c cs hc body closed hcontent ih =>
    rw [contentSize_pair hc, contentText_pair hc, List.take_succ_cons, List.take_succ_cons, ih]
  | case6 c cs hne hquote hline body closed hcontent ih =>
    have hpair := eq_nil_of_unpaired hne
    rw [contentSize_cons hpair hquote hline, contentText_cons hpair hquote hline,
      List.take_succ_cons, ih]

/-- A string that is not closed goes on to the end of its line. -/
theorem drop_contentSize (cs : List Char) (hopen : (content cs).2 = false) :
    cs.drop (contentSize cs) = [] ∨ (cs.drop (contentSize cs)).head? = some '\n' := by
  induction cs using content.induct with
  | case1 => exact .inl rfl
  | case2 | case5 => exact .inr rfl
  | case3 c cs hc body closed hcontent ih =>
    rw [content_pair hc] at hopen
    rw [contentSize_pair hc]
    exact ih hopen
  | case4 => cases hopen
  | case6 c cs hne hquote hline body closed hcontent ih =>
    have hpair := eq_nil_of_unpaired hne
    rw [content_cons hpair hquote hline] at hopen
    rw [contentSize_cons hpair hquote hline]
    exact ih hopen

/-- **A string ends at its closing quote**: the only quote in it that is not the second character of a
pair is the one behind the content. -/
theorem quote_contentText (cs : List Char) (i : Nat) :
    (contentText cs)[i]? = some '"' ∧ isSecond (contentText cs) i = false ↔
      (content cs).2 = true ∧ i = (content cs).1.length := by
  induction cs using content.induct generalizing i with
  | case1 | case5 => simp [contentText, content]
  | case2 cs =>
    have hcontent : content ('\\' :: '\n' :: cs) = (['\\'], false) := rfl
    rw [contentText, hcontent]
    cases i <;> simp
  | case3 c cs hc body closed hcontent ih =>
    rw [content_pair hc, contentText_pair hc]
    rcases i with _ | _ | i
    · simp
    · simp [isSecond]
    · rw [isSecond_pair, List.getElem?_cons_succ, List.getElem?_cons_succ, ih i]
      simp
  | case4 cs hne =>
    have hcontent : content ('"' :: cs) = ([], true) := rfl
    rw [contentText, hcontent]
    cases i <;> simp [isSecond]
  | case6 c cs hne hquote hline body closed hcontent ih =>
    have hpair := eq_nil_of_unpaired hne
    rw [content_cons hpair hquote hline, contentText_cons hpair hquote hline]
    cases i with
    | zero =>
      rw [List.getElem?_cons_zero, Option.some.injEq]
      exact ⟨fun h => absurd h.1 hquote, fun h => absurd h.2 (Nat.succ_ne_zero _).symm⟩
    | succ i =>
      by_cases hslash : c = '\\'
      · -- a backslash at the end of the text
        rw [hpair hslash]
        simp [contentText, content]
      · rw [isSecond_cons hslash, List.getElem?_cons_succ, ih i]
        simp

theorem closes_contentText : Closes ('"' :: contentText cs) (i + 1) ↔
    (content cs).2 = true ∧ i = (content cs).1.length := by
  rw [closes_iff]
  exact quote_contentText cs i

/-- A closing quote is the last character. -/
theorem length_of_closes (h : Closes ('"' :: contentText cs) i) :
    i + 1 = ('"' :: contentText cs).length := by
  obtain ⟨i, rfl⟩ := Nat.exists_eq_add_one.mpr h.behind
  obtain ⟨hclosed, rfl⟩ := closes_contentText.mp h
  rw [contentText, if_pos hclosed, List.length_cons, List.length_append]
  rfl

theorem exists_closes : (∃ i, Closes ('"' :: contentText cs) i) ↔ (content cs).2 = true := by
  constructor
  · rintro ⟨i, hi⟩
    obtain ⟨i, rfl⟩ := Nat.exists_eq_add_one.mpr hi.behind
    exact (closes_contentText.mp hi).1
  · exact fun h => ⟨_, closes_contentText.mpr ⟨h, rfl⟩⟩

/-! ### Code points -/

/-- A code point is read from the longest run of digits that it may have. -/
theorem startsWithCodePoint_iff : StartsWithCodePoint digits cs ↔
    Number.digitRun 16 (cs.take digits) ≠ [] ∧
      (Number.valueOf 16 (Number.digitRun 16 (cs.take digits))).isValidChar := by
  have hdigit {c : Char} : Number.isDigit 16 c ↔ ∃ d, Number.Writes d c := by
    rw [Number.isDigit_iff_exists (Nat.le_refl 16)]
    exact exists_congr fun d => ⟨fun h => h.2, fun h => ⟨h.1, h⟩⟩
  constructor
  · rintro ⟨run, rest, n, rfl, hne, hlength, hrest, hn, hvalid⟩
    obtain ⟨hrun, rfl⟩ := (Number.denotes_iff (Nat.le_refl 16)).mp hn
    have htake : Number.digitRun 16 ((run ++ rest).take digits) = run := by
      rw [List.take_append, List.take_of_length_le hlength]
      refine Number.digitRun_append hrun fun c hc hwrites => ?_
      rw [List.head?_take] at hc
      split at hc
      · cases hc
      · obtain ⟨d, hd⟩ := hdigit.mp hwrites
        exact hrest (by omega) c hc d hd
    rw [htake]
    exact ⟨hne, hvalid⟩
  · rintro ⟨hne, hvalid⟩
    generalize hrun : Number.digitRun 16 (cs.take digits) = run at hne hvalid
    have hbehind := Number.not_isDigit_behind 16 (cs.take digits)
    have hprefix : run <+: cs :=
      hrun ▸ (List.takeWhile_prefix _).trans (List.take_prefix digits cs)
    obtain ⟨rest, rfl⟩ := hprefix
    have hlength : run.length ≤ digits := by
      have hle := (List.takeWhile_prefix (l := (run ++ rest).take digits) (Number.isDigit 16)).length_le
      rw [← Number.digitRun, hrun] at hle
      exact Nat.le_trans hle (List.length_take_le _ _)
    refine ⟨run, rest, _, rfl, hne, hlength, fun hlt c hc d hd => ?_,
      (Number.denotes_iff (Nat.le_refl 16)).mpr ⟨?_, rfl⟩, hvalid⟩
    · rw [hrun, List.drop_take, List.drop_left, List.head?_take, if_neg (by omega)] at hbehind
      exact hbehind c hc (hdigit.mpr ⟨d, hd⟩)
    · intro c hc
      exact Number.isDigit_of_mem_digitRun (hrun ▸ hc)

theorem codePoint_ne_malformed :
    (codePoint digits cs).1 ≠ .malformed ↔ StartsWithCodePoint digits cs := by
  rw [startsWithCodePoint_iff, codePoint_eq]
  dsimp only
  split
  · rename_i h
    exact ⟨fun _ => h, fun _ => by simp⟩
  · rename_i h
    exact ⟨fun hne => absurd rfl hne, fun hwell => absurd hwell h⟩

theorem escape_ne_malformed : (escape c cs).1 ≠ .malformed ↔
    (c = 'u' → StartsWithCodePoint 4 cs) ∧ (c = 'U' → StartsWithCodePoint 8 cs) := by
  unfold escape
  split_ifs with hshort hlong
  · rw [codePoint_ne_malformed, hshort]
    simp
  · rw [codePoint_ne_malformed, hlong]
    simp
  · refine ⟨fun _ => ⟨fun h => absurd h hshort, fun h => absurd h hlong⟩, fun _ => ?_⟩
    split <;> simp

/-- The quote behind a string belongs to no escape. -/
theorem escape_concat (c : Char) (cs : List Char) : escape c (cs ++ ['"']) = escape c cs :=
  escape_append (fun d hd => by cases hd; decide) c cs

/-! ### Escapes of a text -/

theorem wellEscaped_cons (hc : c ≠ '\\') : WellEscaped (c :: cs) ↔ WellEscaped cs := by
  constructor
  · intro h i hi
    exact h (i + 1) (by rwa [isSecond_cons hc])
  · intro h i hi
    cases i with
    | zero => cases hi
    | succ i =>
      rw [isSecond_cons hc] at hi
      exact h i hi

theorem wellEscaped_pair : WellEscaped ('\\' :: c :: cs) ↔
    (escape c cs).1 ≠ .malformed ∧ WellEscaped cs := by
  rw [escape_ne_malformed]
  constructor
  · intro h
    refine ⟨?_, fun i hi => h (i + 2) (by rwa [isSecond_pair])⟩
    have hsecond := h 1 rfl
    rw [List.getElem?_cons_succ, List.getElem?_cons_zero, Option.some.injEq, Option.some.injEq] at hsecond
    exact hsecond
  · rintro ⟨hc, h⟩ i hi
    rcases i with _ | _ | i
    · cases hi
    · rw [List.getElem?_cons_succ, List.getElem?_cons_zero, Option.some.injEq, Option.some.injEq]
      exact hc
    · rw [isSecond_pair] at hi
      exact h i hi

/-- Characters that start no pair are well. -/
theorem wellEscaped_append {ds : List Char} (h : ∀ c ∈ ds, c ≠ '\\') :
    WellEscaped (ds ++ cs) ↔ WellEscaped cs := by
  induction ds with
  | nil => rfl
  | cons d ds ih =>
    obtain ⟨hd, hds⟩ := List.forall_mem_cons.mp h
    rw [List.cons_append, wellEscaped_cons hd, ih hds]

/-- The digits of an escape start no pair. -/
theorem wellEscaped_drop (c : Char) (cs ds : List Char) :
    WellEscaped (cs.drop (escape c cs).2 ++ ds) ↔ WellEscaped (cs ++ ds) := by
  have hdigits : ∀ d ∈ cs.take (escape c cs).2, d ≠ '\\' :=
    fun d hd => (ne_of_isDigit (isDigit_of_mem_escape c cs d hd)).1
  rw [← wellEscaped_append hdigits, ← List.append_assoc, List.take_append_drop]

theorem decode?_pair (c : Char) (cs : List Char) : decode? ('\\' :: c :: cs) ≠ none ↔
    (escape c cs).1 ≠ .malformed ∧ decode? (cs.drop (escape c cs).2) ≠ none := by
  rw [decode?]
  split
  all_goals
    rename_i hescape
    simp [hescape]

/-- **A string is decoded if the code points in it are all well.** -/
theorem decode?_ne_none (cs : List Char) : decode? cs ≠ none ↔ WellEscaped (cs ++ ['"']) := by
  have hnil : WellEscaped [] := fun i _ => ⟨fun h => by simp at h, fun h => by simp at h⟩
  have hpair (c : Char) (cs : List Char) (ih : (escape c cs).1 ≠ .malformed →
      (decode? (cs.drop (escape c cs).2) ≠ none ↔ WellEscaped (cs.drop (escape c cs).2 ++ ['"']))) :
      decode? ('\\' :: c :: cs) ≠ none ↔ WellEscaped ('\\' :: c :: cs ++ ['"']) := by
    rw [decode?_pair, List.cons_append, List.cons_append, wellEscaped_pair, escape_concat,
      ← wellEscaped_drop c cs]
    exact and_congr_right ih
  -- on the characters as they are decoded
  induction cs using decode?.induct with
  | case1 =>
    rw [decode?, List.nil_append, wellEscaped_cons (by decide)]
    exact ⟨fun _ => hnil, fun _ => Option.some_ne_none _⟩
  | case2 c cs d taken hescape ih => exact hpair c cs fun _ => by rwa [hescape]
  | case3 c cs d taken hescape ih => exact hpair c cs fun _ => by rwa [hescape]
  | case4 c cs taken hescape => exact hpair c cs fun hne => absurd (by rw [hescape]) hne
  | case5 c cs hne ih =>
    rw [decode?_cons (eq_nil_of_unpaired hne), ne_eq, Option.map_eq_none_iff, List.cons_append]
    by_cases hslash : c = '\\'
    · cases cs with
      | nil =>
        -- a backslash at the end makes a pair with the quote
        have hquote : (escape '"' []).1 = .char '"' := rfl
        rw [hslash, List.nil_append, wellEscaped_pair, hquote, decode?]
        exact ⟨fun _ => ⟨by simp, hnil⟩, fun _ => Option.some_ne_none _⟩
      | cons d ds => exact (hne d ds hslash rfl).elim
    · rw [wellEscaped_cons hslash]
      exact ih

/-! ### Strings -/

theorem kind_scanString (c : Char) (cs : List Char) :
    ((scanString c cs).kind = .str ∧ (content cs).2 = true ∧ decode? (content cs).1 ≠ none) ∨
      ((scanString c cs).kind = .invalid ∧ ¬ ((content cs).2 = true ∧ decode? (content cs).1 ≠ none)) := by
  rw [scanString_eq]
  dsimp only
  split
  · rename_i hclosed
    cases decode? (content cs).1 with
    | none => exact .inr ⟨rfl, fun h => h.2 rfl⟩
    | some s => exact .inl ⟨rfl, hclosed, Option.some_ne_none s⟩
  · rename_i hopen
    exact .inr ⟨rfl, fun h => hopen h.1⟩

end Literal

/-- **Where a string literal ends, and when it is one.** A token whose text starts with a double quote
stands on one line. It ends with the first quote behind that which is not the second character of a
pair, or, if there is none on the line, where the line ends. It is a string exactly if it ends with such
a quote and the code points escaped in it are all code points of characters, and is invalid
otherwise. -/
theorem strings_end_at_closing_quote (source : String) {t : Token} (ht : t ∈ tokenize source) :
    let text := Text.between source.toList t.offset t.stop
    let after := Text.dropBytes source.toList t.stop
    text.head? = some '"' →
      '\n' ∉ text ∧
      (∀ i, Literal.Closes text i → i + 1 = text.length) ∧
      ((∃ i, Literal.Closes text i) ∨ after = [] ∨ after.head? = some '\n') ∧
      (t.kind = .str ↔ (∃ i, Literal.Closes text i) ∧ Literal.WellEscaped text) ∧
      (t.kind = .str ∨ t.kind = .invalid) := by
  intro text after hhead
  obtain ⟨cs, hfound⟩ := Token.exists_foundIn ht hhead
  have hscan : Lexeme.scan '"' cs = Literal.scanString '"' cs := rfl
  have hmore := Literal.more_scanString '"' cs
  have htake := Literal.take_contentSize cs
  have hend := Literal.drop_contentSize cs
  have htext : text = '"' :: Literal.contentText cs := by
    have := hfound.text
    rwa [hscan, hmore, htake] at this
  have hafter : after = cs.drop (Literal.contentSize cs) := by
    have := hfound.after
    rwa [hscan, hmore] at this
  have hdecoded : (Literal.content cs).2 = true →
      (Literal.decode? (Literal.content cs).1 ≠ none ↔ Literal.WellEscaped text) := by
    intro h
    rw [htext, Literal.wellEscaped_cons (by decide), Literal.decode?_ne_none, Literal.contentText, if_pos h]
  have hkind : t.kind = (Literal.scanString '"' cs).kind := hfound.kind
  rw [htext] at hdecoded ⊢
  rw [Literal.exists_closes, hafter, hkind]
  refine ⟨?_, fun i => Literal.length_of_closes, ?_, ?_, ?_⟩
  · rw [← htake, List.mem_cons, not_or]
    exact ⟨by decide, Literal.newline_not_mem_content cs⟩
  · cases h : (Literal.content cs).2 with
    | true => exact .inl rfl
    | false => exact .inr (hend h)
  · rw [← and_congr_right hdecoded]
    rcases Literal.kind_scanString '"' cs with ⟨hstr, h⟩ | ⟨hinvalid, h⟩
    · exact ⟨fun _ => h, fun _ => hstr⟩
    · exact ⟨fun hstr => absurd (hinvalid.symm.trans hstr) (by decide), fun hwell => absurd hwell h⟩
  · exact (Literal.kind_scanString '"' cs).imp (·.1) (·.1)

/-- A quote behind a backslash does not end the string, and an escape has no fifth digit. -/
theorem string_ends_at_closing_quote :
    let source := String.ofList ['"', '\\', '"', '\\', 'u', '0', '0', 'e', '9', '1', '"', 'x']
    let t : Token := ⟨.str, .str (String.ofList ['"', 'é', '1']), ⟨⟨0, 0⟩, ⟨0, 11⟩⟩, 0, 11, 11⟩
    let text := Text.between source.toList t.offset t.stop
    t ∈ tokenize source ∧ text.head? = some '"' ∧
      (∃ i, Literal.Closes text i) ∧ (∀ i, Literal.Closes text i → i + 1 = 11) ∧
      Literal.WellEscaped text := by
  intro source t text
  have ht : t ∈ tokenize source := by decide +kernel
  have hhead : text.head? = some '"' := by decide +kernel
  have hlength : text.length = 11 := by decide +kernel
  obtain ⟨-, hlast, -, hstr, -⟩ := strings_end_at_closing_quote source ht hhead
  exact ⟨ht, hhead, (hstr.mp rfl).1, fun i hi => hlength ▸ hlast i hi, (hstr.mp rfl).2⟩

end SableFront
