import Mathlib.Tactic.FinCases
import SableFront.Proofs.Tiling.Prefix

/-!
# Literals: encodings of characters

Between the quotes of a literal a character may be written as it is, by a letter behind a backslash,
or by its code point in four or eight hexadecimal digits. Whichever is chosen, character by character,
the literal denotes the characters that were written (`written_literals_are_read`).

The encodings do not run into each other: none of them ends in an open pair, and an escape takes
exactly its own digits, although hexadecimal digits may follow.
-/

namespace SableFront

namespace Literal

/-- The letters that stand behind a backslash for a single character, and these characters. -/
def namedEscapes : List (Char × Char) :=
  [('\\', '\\'), ('b', '\x08'), ('r', '\r'), ('n', '\n'), ('t', '\t'), ('v', '\x0b'), ('f', '\x0c'),
   ('a', '\x07'), ('\'', '\''), ('"', '"'), ('0', '\x00')]

/-- The text is a way to write the character between two quotes. -/
inductive Encodes (quote c : Char) : List Char → Prop
  /-- As it is, unless it would end the literal or start an escape. -/
  | raw (hquote : c ≠ quote) (hslash : c ≠ '\\') (hline : c ≠ '\n') : Encodes quote c [c]
  | named {letter : Char} (h : (letter, c) ∈ namedEscapes) : Encodes quote c ['\\', letter]
  | short {digits : List Char} (hlength : digits.length = 4)
    (h : Number.Denotes 16 digits c.toNat) : Encodes quote c ('\\' :: 'u' :: digits)
  | long {digits : List Char} (hlength : digits.length = 8)
    (h : Number.Denotes 16 digits c.toNat) : Encodes quote c ('\\' :: 'U' :: digits)

variable {quote c : Char} {cs text : List Char}

/-! ### Escapes -/

/-- A code point that is written in all its digits is read from these. -/
theorem codePoint_append {digits : List Char} (h : Number.Denotes 16 digits c.toNat)
    (cs : List Char) (hne : digits ≠ []) :
    codePoint digits.length (digits ++ cs) = (.char c, digits.length) := by
  obtain ⟨hdigits, hvalue⟩ := (Number.denotes_iff (Nat.le_refl 16)).mp h
  have hrun : Number.digitRun 16 ((digits ++ cs).take digits.length) = digits := by
    rw [List.take_left, Number.digitRun, List.takeWhile_eq_self_iff]
    exact hdigits
  have hchar : (Number.valueOf 16 digits).isValidChar := hvalue ▸ c.valid
  rw [codePoint_eq, hrun]
  dsimp only
  rw [if_pos ⟨hne, hchar⟩, ← hvalue, Char.ofNat_toNat]

/-- **A character is written as it is, or as an escape** that takes just its own digits. -/
theorem Encodes.cases (h : Encodes quote c text) :
    (text = [c] ∧ c ≠ quote ∧ c ≠ '\\' ∧ c ≠ '\n') ∨
    ∃ letter digits, text = '\\' :: letter :: digits ∧ letter ≠ '\n' ∧
      (∀ d ∈ digits, Number.isDigit 16 d) ∧
      ∀ cs, escape letter (digits ++ cs) = (.char c, digits.length) := by
  cases h with
  | raw hquote hslash hline => exact .inl ⟨rfl, hquote, hslash, hline⟩
  | @named letter h =>
    refine .inr ⟨letter, [], rfl, ?_, List.forall_mem_nil _, fun cs => ?_⟩
    · rintro rfl
      exact absurd h (by simp [namedEscapes])
    · have hall : ∀ p ∈ namedEscapes, escape p.1 ([] ++ cs) = (.char p.2, 0) := by
        intro p hp
        fin_cases hp <;> rfl
      exact hall _ h
  | @short digits hlength h =>
    refine .inr ⟨'u', digits, rfl, by decide, ((Number.denotes_iff (Nat.le_refl 16)).mp h).1, fun cs => ?_⟩
    rw [escape, if_pos rfl, ← hlength]
    exact codePoint_append h cs (List.ne_nil_of_length_pos (by omega))
  | @long digits hlength h =>
    refine .inr ⟨'U', digits, rfl, by decide, ((Number.denotes_iff (Nat.le_refl 16)).mp h).1, fun cs => ?_⟩
    rw [escape, if_neg (by decide), if_pos rfl, ← hlength]
    exact codePoint_append h cs (List.ne_nil_of_length_pos (by omega))

/-! ### Strings -/

/-- The encoding of a character belongs to the content of a string. -/
theorem Encodes.content (h : Encodes '"' c text) (cs : List Char) :
    content (text ++ cs) = (text ++ (Literal.content cs).1, (Literal.content cs).2) := by
  rcases h.cases with ⟨rfl, hquote, hslash, hline⟩ | ⟨letter, digits, rfl, hline, hdigits, -⟩
  · exact content_append_plain (List.forall_mem_singleton.mpr ⟨hslash, hquote, hline⟩) cs
  · rw [List.cons_append, List.cons_append, content_pair hline,
      content_append_plain fun d hd => ne_of_isDigit (hdigits d hd)]
    rfl

/-- The encoding of a character denotes it. -/
theorem Encodes.decode? (h : Encodes quote c text) (cs : List Char) :
    decode? (text ++ cs) = (Literal.decode? cs).map (c :: ·) := by
  rcases h.cases with ⟨rfl, -, hslash, -⟩ | ⟨letter, digits, rfl, -, -, hescape⟩
  · rw [List.singleton_append, Literal.decode?]
    exact fun _ _ hc _ => hslash hc
  · rw [List.cons_append, List.cons_append, Literal.decode?, hescape]
    dsimp only
    rw [List.drop_left]

variable {texts : List (List Char)}

theorem content_encoded (h : List.Forall₂ (Encodes '"') cs texts) (rest : List Char) :
    content (texts.flatten ++ '"' :: rest) = (texts.flatten, true) := by
  induction h with
  | nil => rfl
  | cons hc _ ih => rw [List.flatten_cons, List.append_assoc, hc.content, ih]

theorem decode?_encoded (h : List.Forall₂ (Encodes quote) cs texts) :
    decode? texts.flatten = some cs := by
  induction h with
  | nil =>
    rw [List.flatten_nil, decode?]
  | cons hc _ ih => rw [List.flatten_cons, hc.decode?, ih, Option.map_some]

/-- A string literal denotes the characters that are written in it. -/
theorem scanString_encoded (h : List.Forall₂ (Encodes '"') cs texts) :
    scanString '"' (texts.flatten ++ ['"']) =
      ⟨.str, .str (String.ofList cs), (texts.flatten ++ ['"']).length⟩ := by
  rw [scanString_eq, content_encoded h]
  dsimp only
  rw [if_pos rfl, decode?_encoded h, List.length_append, List.length_singleton]

/-! ### Characters -/

theorem Encodes.written (h : Encodes quote c text) (cs : List Char) :
    written (text ++ cs) = .ok (.char c, text.length) := by
  rcases h.cases with ⟨rfl, -, hslash, hline⟩ | ⟨letter, digits, rfl, hline, -, hescape⟩
  · exact written_plain hslash hline cs
  · rw [List.cons_append, List.cons_append, written_pair hline, hescape]
    rfl

/-- A character literal denotes the character that is written in it. -/
theorem scanChar_encoded (h : Encodes '\'' c text) :
    scanChar '\'' (text ++ ['\'']) = ⟨.char, .char c, (text ++ ['\'']).length⟩ := by
  have hopen : ¬ startsWith '\'' (text ++ ['\'']) := by
    rcases h.cases with ⟨rfl, hquote, -, -⟩ | ⟨letter, digits, rfl, -, -, -⟩
    · simpa [startsWith] using hquote
    · exact Bool.false_ne_true
  have hclose : startsWith '\'' ((text ++ ['\'']).drop text.length) := by
    rw [List.drop_left]
    rfl
  unfold scanChar
  rw [if_neg hopen, h.written]
  dsimp only
  rw [if_pos hclose, List.length_append, List.length_singleton]

end Literal

/-! ### Whole texts -/

/-- The text is cut into one token, which covers all of it and has this kind and value, and the end of
the text. -/
def ReadsAs (source : String) (kind : Kind) (value : Value) : Prop :=
  ∃ t last, tokenize source = [t, last] ∧ t.kind = kind ∧ t.value = value ∧ t.offset = 0 ∧
    t.stop = source.utf8ByteSize ∧ last.isEof

/-- A text that is a lexeme is read as that. -/
theorem readsAs_of_scan {c : Char} {cs : List Char} {kind : Kind} {value : Value}
    (h : Lexeme.scan c cs = ⟨kind, value, cs.length⟩) : ReadsAs (String.ofList (c :: cs)) kind value := by
  have hsize : byteSize (c :: cs) = (String.ofList (c :: cs)).utf8ByteSize :=
    byteSize_eq_utf8ByteSize (c :: cs)
  rw [ReadsAs, tokenize, String.toList_ofList, ← hsize]
  have hnext := Cursor.next_eq_place (c := .start (c :: cs)) rfl h
  have hskip : (Cursor.start (c :: cs)).next.2.rest = [] := by
    rw [hnext]
    exact List.drop_length
  have hstop : (Cursor.start (c :: cs)).next.1.stop = byteSize (c :: cs) := by
    rw [hnext]
    have htake : (c :: cs).take (c :: cs).length = c :: cs := List.take_length
    exact (Nat.zero_add _).trans (congrArg byteSize htake)
  rw [Cursor.tokens_cons (List.cons_ne_nil c cs), Cursor.tokens_nil hskip]
  exact ⟨_, _, rfl, congrArg (·.1.kind) hnext, congrArg (·.1.value) hnext,
    congrArg (·.1.offset) hnext, hstop, beq_iff_eq.mpr ((Cursor.kind_next_eq_eof _).mpr hskip)⟩

/-- **Literals decode every encoding.** A string literal in which characters are written, each in one
of its encodings, is one token that denotes these characters, and a character literal is one that
denotes the one character that is written in it. -/
theorem written_literals_are_read :
    (∀ (cs : List Char) (texts : List (List Char)), List.Forall₂ (Literal.Encodes '"') cs texts →
      ReadsAs (String.ofList ('"' :: (texts.flatten ++ ['"']))) .str (.str (String.ofList cs))) ∧
    ∀ (c : Char) (text : List Char), Literal.Encodes '\'' c text →
      ReadsAs (String.ofList ('\'' :: (text ++ ['\'']))) .char (.char c) :=
  ⟨fun _ _ h => readsAs_of_scan (Literal.scanString_encoded h),
    fun _ _ h => readsAs_of_scan (Literal.scanChar_encoded h)⟩

/-- A code point before a digit that is written as it is, and a double quote between single ones. -/
theorem written_literals_are_read_apart :
    let texts := [['\\', 'u', '0', '0', '4', '1'], ['2'], ['\\', '"'],
      ['\\', 'U', '0', '0', '0', '1', 'f', '6', '0', '0']]
    List.Forall₂ (Literal.Encodes '"') ['A', '2', '"', '😀'] texts ∧
      ReadsAs (String.ofList ('"' :: (texts.flatten ++ ['"']))) .str
        (.str (String.ofList ['A', '2', '"', '😀'])) ∧
      Literal.Encodes '\'' '"' ['"'] ∧
      ReadsAs (String.ofList ('\'' :: (['"'] ++ ['\'']))) .char (.char '"') := by
  intro texts
  have hdenotes {digits : List Char} {c : Char} (hdigits : digits.all (Number.isDigit 16))
      (hvalue : c.toNat = Number.valueOf 16 digits) : Number.Denotes 16 digits c.toNat :=
    (Number.denotes_iff (Nat.le_refl 16)).mpr ⟨List.all_eq_true.mp hdigits, hvalue⟩
  have hstring : List.Forall₂ (Literal.Encodes '"') ['A', '2', '"', '😀'] texts :=
    .cons (.short rfl (hdenotes (by decide) (by decide))) <|
      .cons (.raw (by decide) (by decide) (by decide)) <| .cons (.named (by decide)) <|
      .cons (.long rfl (hdenotes (by decide) (by decide))) .nil
  have hchar : Literal.Encodes '\'' '"' ['"'] := .raw (by decide) (by decide) (by decide)
  exact ⟨hstring, written_literals_are_read.1 _ _ hstring, hchar, written_literals_are_read.2 _ _ hchar⟩

end SableFront
