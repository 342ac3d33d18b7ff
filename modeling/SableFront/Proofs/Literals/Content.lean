import SableFront.Proofs.Literals.Digits
import SableFront.Proofs.Literals.Numeral
import SableFront.Token.Literal
import Mathlib.Data.List.TakeWhile
import Mathlib.Tactic.SplitIfs

/-!
# Literals: the content of a string

A string is read in one loop, which decodes an escape where it meets it and may take some digits for it
before it goes on to look for the closing quote. The same can be said in two steps: first where the
string ends, for which only a backslash and the character behind it count as a pair (`content`), then
what stands between the quotes denotes (`decode?`). The digits that an escape takes are neither quotes
nor backslashes nor line ends, and so the two agree (`readString_eq`): no escape, well formed or not,
moves the end of a string.
-/

namespace SableFront.Literal

/-- The content of a string whose opening quote is read, and whether a closing quote follows it. -/
def content : List Char → List Char × Bool
  | [] => ([], false)
  | '\\' :: c :: cs =>
    if c = '\n' then (['\\'], false)
    else
      let (body, closed) := content cs
      ('\\' :: c :: body, closed)
  | c :: cs =>
    if c = '"' then ([], true)
    else if c = '\n' then ([], false)
    else
      let (body, closed) := content cs
      (c :: body, closed)

/-- The string that the content of a literal denotes; nothing if an escape is malformed. -/
def decode? : List Char → Option (List Char)
  | [] => some []
  | '\\' :: c :: cs =>
    match escape c cs with
    | (.char d, taken) => (decode? (cs.drop taken)).map (d :: ·)
    | (.verbatim d, taken) => (decode? (cs.drop taken)).map ('\\' :: d :: ·)
    | (.malformed, _) => none
  | c :: cs => (decode? cs).map (c :: ·)
termination_by cs => cs.length
decreasing_by all_goals simp only [List.length_cons, List.length_drop]; omega

/-- How many characters the content of a string and its closing quote take. -/
def contentSize (cs : List Char) : Nat := (content cs).1.length + if (content cs).2 then 1 else 0

variable {c : Char} {cs text : List Char} {piece : Piece} {digits taken : Nat}

/-! ### Pairs and single characters -/

theorem content_pair (hc : c ≠ '\n') (cs : List Char) :
    content ('\\' :: c :: cs) = ('\\' :: c :: (content cs).1, (content cs).2) := by
  rw [content, if_neg hc]

/-- A backslash is a character of its own at the end of the text only. -/
theorem content_cons (hpair : c = '\\' → cs = []) (hquote : c ≠ '"') (hline : c ≠ '\n') :
    content (c :: cs) = (c :: (content cs).1, (content cs).2) := by
  rw [content, if_neg hquote, if_neg hline]
  intro d ds hc hcs
  rw [hpair hc] at hcs
  cases hcs

/-- So it is if it starts no pair. -/
theorem eq_nil_of_unpaired (hne : ∀ d ds, c = '\\' → cs = d :: ds → False) (hc : c = '\\') :
    cs = [] := by
  cases cs with
  | nil => rfl
  | cons d ds => exact (hne d ds hc rfl).elim

theorem contentSize_pair (hc : c ≠ '\n') (cs : List Char) :
    contentSize ('\\' :: c :: cs) = contentSize cs + 2 := by
  unfold contentSize
  rw [content_pair hc]
  exact Nat.add_right_comm _ 2 _

theorem contentSize_cons (hpair : c = '\\' → cs = []) (hquote : c ≠ '"') (hline : c ≠ '\n') :
    contentSize (c :: cs) = contentSize cs + 1 := by
  unfold contentSize
  rw [content_cons hpair hquote hline]
  exact Nat.add_right_comm _ 1 _

/-- Plain characters belong to the content of a string. -/
theorem content_append_plain (h : ∀ d ∈ text, d ≠ '\\' ∧ d ≠ '"' ∧ d ≠ '\n') (cs : List Char) :
    content (text ++ cs) = (text ++ (content cs).1, (content cs).2) := by
  induction text with
  | nil => rfl
  | cons d ds ih =>
    obtain ⟨⟨hslash, hquote, hline⟩, hds⟩ := List.forall_mem_cons.mp h
    rw [List.cons_append, content_cons (fun hd => absurd hd hslash) hquote hline, ih hds]
    rfl

/-- Behind the content there is a quote or the end of the line, or nothing. -/
theorem exists_behind_content (cs : List Char) :
    ∃ rest, cs = (content cs).1 ++ rest ∧ ∀ d ∈ rest.head?, d = '"' ∨ d = '\n' := by
  -- on the content, pair by pair and character by character
  induction cs using content.induct with
  | case1 => exact ⟨[], rfl, fun d hd => by cases hd⟩
  | case2 cs => exact ⟨'\n' :: cs, rfl, fun d hd => .inr (Option.some.inj hd).symm⟩
  | case3 c cs hc body closed hcontent ih =>
    obtain ⟨rest, hrest, hhead⟩ := ih
    refine ⟨rest, ?_, hhead⟩
    rw [content_pair hc, List.cons_append, List.cons_append, ← hrest]
  | case4 cs hne => exact ⟨'"' :: cs, rfl, fun d hd => .inl (Option.some.inj hd).symm⟩
  | case5 cs hne => exact ⟨'\n' :: cs, rfl, fun d hd => .inr (Option.some.inj hd).symm⟩
  | case6 c cs hne hquote hline body closed hcontent ih =>
    obtain ⟨rest, hrest, hhead⟩ := ih
    refine ⟨rest, ?_, hhead⟩
    rw [content_cons (eq_nil_of_unpaired hne) hquote hline, List.cons_append, ← hrest]

theorem decode?_cons (hpair : c = '\\' → cs = []) : decode? (c :: cs) = (decode? cs).map (c :: ·) := by
  rw [decode?]
  intro d ds hc hcs
  rw [hpair hc] at hcs
  cases hcs

/-! ### Escapes -/

/-- A code point is the exact value of its digits, which fits 64 bits if it is one of a character. -/
theorem codePoint_eq (digits : Nat) (cs : List Char) :
    codePoint digits cs =
      let run := Number.digitRun 16 (cs.take digits)
      (if run ≠ [] ∧ (Number.valueOf 16 run).isValidChar then .char (Char.ofNat (Number.valueOf 16 run))
        else .malformed, run.length) := by
  unfold codePoint
  rw [Number.readDigits_zero (by decide)]
  generalize Number.digitRun 16 (cs.take digits) = run
  dsimp only
  split
  · rename_i v hv
    obtain ⟨hvalue, -⟩ := Number.toNat_of_checked hv
    simp only [hvalue, ne_eq, List.length_eq_zero_iff]
  · rename_i hv
    have hinvalid : ¬ (Number.valueOf 16 run).isValidChar := by
      intro hvalid
      have hbound : 0x110000 < Number.limit := by decide
      have hlt : Number.valueOf 16 run < Number.limit := by
        rcases hvalid with hlow | ⟨-, hhigh⟩ <;> omega
      rw [Number.checked_of_lt hlt] at hv
      cases hv
    rw [if_neg fun h => hinvalid h.2]

/-- A code point takes its digits. -/
theorem take_codePoint (digits : Nat) (cs : List Char) :
    cs.take (codePoint digits cs).2 = Number.digitRun 16 (cs.take digits) := by
  have hrun : Number.digitRun 16 (cs.take digits) <+: cs :=
    (List.takeWhile_prefix _).trans (List.take_prefix digits cs)
  rw [codePoint_eq]
  exact (List.prefix_iff_eq_take.mp hrun).symm

/-- What an escape takes behind its letter are digits. -/
theorem isDigit_of_mem_escape (c : Char) (cs : List Char) :
    ∀ d ∈ cs.take (escape c cs).2, Number.isDigit 16 d := by
  have hcode (digits : Nat) : ∀ d ∈ cs.take (codePoint digits cs).2, Number.isDigit 16 d := by
    rw [take_codePoint]
    exact fun d => Number.isDigit_of_mem_digitRun
  unfold escape
  split_ifs
  · exact hcode 4
  · exact hcode 8
  · split <;> exact List.forall_mem_nil _

/-- A hexadecimal digit neither ends a literal nor starts an escape. -/
theorem ne_of_isDigit (h : Number.isDigit 16 c) : c ≠ '\\' ∧ c ≠ '"' ∧ c ≠ '\n' := by
  refine ⟨?_, ?_, ?_⟩ <;> rintro rfl <;> exact absurd h (by decide)

theorem digitRun_take_append {base : Nat} {rest : List Char}
    (h : ∀ d ∈ rest.head?, ¬ Number.isDigit base d) (cs : List Char) (n : Nat) :
    Number.digitRun base ((cs ++ rest).take n) = Number.digitRun base (cs.take n) := by
  have hnone : (rest.take (n - cs.length)).takeWhile (Number.isDigit base) = [] := by
    cases rest with
    | nil => rw [List.take_nil, List.takeWhile_nil]
    | cons d ds =>
      cases n - cs.length with
      | zero => rfl
      | succ k => exact List.takeWhile_cons_of_neg (h d rfl)
  rw [List.take_append, Number.digitRun, List.takeWhile_append, hnone, List.append_nil]
  split
  · rename_i hall
    exact (List.Sublist.eq_of_length (List.takeWhile_sublist _) hall).symm
  · rfl

/-- **An escape looks no further than to the first character that is no digit.** -/
theorem escape_append {rest : List Char} (h : ∀ d ∈ rest.head?, ¬ Number.isDigit 16 d) (c : Char)
    (cs : List Char) : escape c (cs ++ rest) = escape c cs := by
  have hcode (digits : Nat) : codePoint digits (cs ++ rest) = codePoint digits cs := by
    rw [codePoint_eq, codePoint_eq, digitRun_take_append h]
  unfold escape
  rw [hcode, hcode]

/-- An escape in a string looks no further than to the end of its content. -/
theorem escape_content (c : Char) (cs : List Char) : escape c (content cs).1 = escape c cs := by
  obtain ⟨rest, hrest, hhead⟩ := exists_behind_content cs
  have hdigit : ∀ d ∈ rest.head?, ¬ Number.isDigit 16 d := by
    intro d hd
    rcases hhead d hd with rfl | rfl <;> decide
  rw [← escape_append hdigit, ← hrest]

/-- Nor does it move the end of it. -/
theorem content_drop_escape (c : Char) (cs : List Char) :
    let taken := (escape c cs).2
    content cs = (cs.take taken ++ (content (cs.drop taken)).1, (content (cs.drop taken)).2) := by
  intro taken
  have hplain := fun d hd => ne_of_isDigit (isDigit_of_mem_escape c cs d hd)
  rw [← content_append_plain hplain, List.take_append_drop]

theorem taken_le_length (c : Char) (cs : List Char) : (escape c cs).2 ≤ cs.length := by
  have hdigits (digits : Nat) : (codePoint digits cs).2 ≤ cs.length := by
    rw [codePoint_eq]
    exact Nat.le_trans (List.takeWhile_prefix _).length_le (List.take_prefix digits cs).length_le
  unfold escape
  split_ifs
  · exact hdigits 4
  · exact hdigits 8
  · split <;> exact Nat.zero_le _

/-! ### Written characters -/

theorem written_pair (hc : c ≠ '\n') (cs : List Char) :
    written ('\\' :: c :: cs) = .ok ((escape c cs).1, (escape c cs).2 + 2) := by
  rw [written, if_neg hc]

theorem written_plain (hslash : c ≠ '\\') (hline : c ≠ '\n') (cs : List Char) :
    written (c :: cs) = .ok (.char c, 1) := by
  rw [written, if_neg hline]
  · exact fun hc _ => hslash hc
  · exact fun _ _ hc _ => hslash hc

/-- A character is written with a backslash before it, or alone. -/
theorem written_eq_ok (h : written cs = .ok (piece, taken)) :
    (∃ c ds, cs = '\\' :: c :: ds ∧ c ≠ '\n' ∧ piece = (escape c ds).1 ∧
      taken = (escape c ds).2 + 2) ∨
      ∃ c ds, cs = c :: ds ∧ c ≠ '\\' ∧ c ≠ '\n' ∧ piece = .char c ∧ taken = 1 := by
  cases cs with
  | nil => cases h
  | cons c cs =>
    by_cases hslash : c = '\\'
    · subst hslash
      cases cs with
      | nil => cases h
      | cons d ds =>
        by_cases hd : d = '\n'
        · rw [hd] at h
          cases h
        · rw [written_pair hd, Except.ok.injEq, Prod.mk.injEq] at h
          exact .inl ⟨d, ds, rfl, hd, h.1.symm, h.2.symm⟩
    · by_cases hline : c = '\n'
      · rw [hline] at h
        cases h
      · rw [written_plain hslash hline, Except.ok.injEq, Prod.mk.injEq] at h
        exact .inr ⟨c, cs, rfl, hslash, hline, h.1.symm, h.2.symm⟩

/-- No character is written where the text or the line ends, a backslash before that or not. -/
theorem written_eq_error (h : written cs = .error taken) :
    (cs = [] ∧ taken = 0) ∨ (cs = ['\\'] ∧ taken = 1) ∨ (∃ ds, cs = '\\' :: '\n' :: ds ∧ taken = 1) ∨
      ∃ ds, cs = '\n' :: ds ∧ taken = 0 := by
  unfold written at h
  split at h
  · cases h
    exact .inl ⟨rfl, rfl⟩
  · cases h
    exact .inr (.inl ⟨rfl, rfl⟩)
  · split at h
    · rename_i hc
      cases h
      exact .inr (.inr (.inl ⟨_, by rw [hc], rfl⟩))
    · cases h
  · split at h
    · rename_i hc
      cases h
      exact .inr (.inr (.inr ⟨_, by rw [hc], rfl⟩))
    · cases h

/-- A string breaks off where no character is written. -/
theorem content_of_error (h : written cs = .error taken) :
    (content cs).2 = false ∧ contentSize cs = taken := by
  obtain ⟨rfl, rfl⟩ | ⟨rfl, rfl⟩ | ⟨ds, rfl, rfl⟩ | ⟨ds, rfl, rfl⟩ := written_eq_error h
  all_goals exact ⟨rfl, rfl⟩

/-- Behind a written character the string goes on. -/
theorem content_of_written (h : written cs = .ok (piece, taken)) (hquote : ¬ startsWith '"' cs) :
    content cs = (cs.take taken ++ (content (cs.drop taken)).1, (content (cs.drop taken)).2) := by
  obtain ⟨c, ds, rfl, hc, -, rfl⟩ | ⟨c, ds, rfl, hslash, hline, -, rfl⟩ := written_eq_ok h
  · rw [content_pair hc, content_drop_escape c ds]
    rfl
  · have hne : c ≠ '"' := fun hc => hquote (by rw [hc]; rfl)
    rw [content_cons (fun hc => absurd hc hslash) hne hline]
    rfl

theorem contentSize_of_written (h : written cs = .ok (piece, taken)) (hquote : ¬ startsWith '"' cs) :
    contentSize cs = taken + contentSize (cs.drop taken) := by
  have hle : taken ≤ cs.length := by
    obtain ⟨c, ds, rfl, -, -, rfl⟩ | ⟨c, ds, rfl, -, -, -, rfl⟩ := written_eq_ok h
    · exact Nat.add_le_add_right (taken_le_length c ds) 2
    · exact Nat.le_add_left 1 _
  rw [contentSize, content_of_written h hquote, List.length_append, List.length_take_of_le hle,
    Nat.add_assoc, ← contentSize]

/-- What a written character denotes; nothing if it is malformed. -/
def Piece.denotes? : Piece → Option (List Char)
  | .char c => some [c]
  | .verbatim c => some ['\\', c]
  | .malformed => none

/-- A string denotes what its first written character does, and then what the others do. -/
theorem decode?_of_written (h : written cs = .ok (piece, taken)) (hquote : ¬ startsWith '"' cs) :
    decode? (content cs).1 =
      piece.denotes?.bind fun d => (decode? (content (cs.drop taken)).1).map (d ++ ·) := by
  obtain ⟨c, ds, rfl, hc, rfl, rfl⟩ | ⟨c, ds, rfl, hslash, hline, rfl, rfl⟩ := written_eq_ok h
  · have hdrop : (content ds).1.drop (escape c ds).2 = (content (ds.drop (escape c ds).2)).1 := by
      have hlength : (ds.take (escape c ds).2).length = (escape c ds).2 :=
        List.length_take_of_le (taken_le_length c ds)
      rw [content_drop_escape c ds]
      exact List.drop_left' hlength
    rw [content_pair hc, decode?, escape_content, List.drop_succ_cons, List.drop_succ_cons, ← hdrop]
    obtain ⟨piece, taken⟩ := escape c ds
    cases piece <;> rfl
  · have hne : c ≠ '"' := fun hc => hquote (by rw [hc]; rfl)
    have hpair (es : List Char) : c = '\\' → es = [] := fun hc => absurd hc hslash
    rw [content_cons (hpair _) hne hline, decode?_cons (hpair _)]
    rfl

/-! ### The loop -/

theorem append_ofList_cons (value : String) (d : Char) (ds : List Char) :
    value ++ String.ofList (d :: ds) = value.push d ++ String.ofList ds := by
  apply String.toList_inj.mp
  simp

/-- **The loop finds the end of the content, and denotes what the content does.** -/
theorem readString_eq (value : String) (valid : Bool) (taken : Nat) (cs : List Char) :
    readString value valid taken cs =
      (if valid ∧ (content cs).2 then (decode? (content cs).1).map (value ++ String.ofList ·) else none,
        taken + contentSize cs) := by
  -- on the characters as they are written
  fun_induction readString value valid taken cs with
  | case1 value valid taken cs hquote =>
    obtain ⟨ds, rfl⟩ := List.head?_eq_some_iff.mp (beq_iff_eq.mp hquote)
    have hcontent : content ('"' :: ds) = ([], true) := rfl
    rw [contentSize, hcontent, decode?]
    simp
  | case2 value valid taken cs hquote more hwritten =>
    obtain ⟨hopen, hsize⟩ := content_of_error hwritten
    rw [hopen, hsize]
    simp
  | case3 value valid taken cs hquote d more hwritten ih =>
    rw [ih, contentSize_of_written hwritten hquote, decode?_of_written hwritten hquote,
      content_of_written hwritten hquote, Nat.add_assoc]
    simp only [Piece.denotes?, Option.bind_some, Option.map_map, Function.comp_def, List.cons_append,
      List.nil_append, append_ofList_cons]
  | case4 value valid taken cs hquote d more hwritten ih =>
    rw [ih, contentSize_of_written hwritten hquote, decode?_of_written hwritten hquote,
      content_of_written hwritten hquote, Nat.add_assoc]
    simp only [Piece.denotes?, Option.bind_some, Option.map_map, Function.comp_def, List.cons_append,
      List.nil_append, append_ofList_cons]
  | case5 value valid taken cs hquote more hwritten ih =>
    rw [ih, contentSize_of_written hwritten hquote, decode?_of_written hwritten hquote, Nat.add_assoc]
    simp [Piece.denotes?]

/-- **A string takes its content and the closing quote**, and is one if it has both and its escapes are
well formed. -/
theorem scanString_eq (c : Char) (cs : List Char) :
    scanString c cs =
      let (body, closed) := content cs
      if closed then
        match decode? body with
        | some s => ⟨.str, .str (String.ofList s), body.length + 1⟩
        | none => .invalid c cs (body.length + 1)
      else .invalid c cs body.length := by
  unfold scanString
  rw [readString_eq, contentSize]
  obtain ⟨body, closed⟩ := content cs
  cases closed with
  | false => simp
  | true => cases hbody : decode? body <;> simp [hbody]

end SableFront.Literal
