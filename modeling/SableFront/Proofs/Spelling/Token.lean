import SableFront.Proofs.Spaced.Word
import SableFront.Proofs.Spelling.Symbol
import SableFront.Proofs.Tiling.Found
import Mathlib.Data.List.Chain

/-!
# Spelling: the tokens of a text

A token is written as its kind and its value say, and it ends where it should (`Token.IsWritten`):
symbols and words as the vocabulary spells them, a symbol as long as any that could stand there, a name
in no way that the vocabulary spells; comments between their marks, blanks up to the next character that
is none. Each scanner has one lemma that says so of the characters it takes and those it leaves.
-/

namespace SableFront

open Lexeme

variable {c : Char} {cs text after : List Char} {n : Nat}

/-- No symbol is longer that the text could start with, together with what follows it. -/
structure Token.IsLongest (text after : List Char) : Prop where
  operator : ∀ o : Operator, o.isWord = false → o.spelling.toList <+: text ++ after →
    o.spelling.toList.length ≤ text.length
  punctuation : ∀ p : Punctuation, p.spelling.toList <+: text ++ after →
    p.spelling.toList.length ≤ text.length

/-- A token of some kind and value is written so, and what follows it may follow it. -/
def Token.IsWritten (text after : List Char) (value : Value) : Kind → Prop
  | .operator o => text = o.spelling.toList ∧ (o.isWord = false → IsLongest text after) ∧
      (o = .slash → ∀ c ∈ after.head?, c ≠ '/' ∧ c ≠ '*')
  | .punctuation p => text = p.spelling.toList ∧ IsLongest text after
  | .keyword k => String.ofList text ∈ k.spellings
  | .bool => ∃ b, value = .bool b ∧
      String.ofList text ∈ (if b then Keyword.trueKw else .falseKw).spellings
  | .null => String.ofList text ∈ Keyword.nullptrKw.spellings
  | .ident => (∀ k : Keyword, String.ofList text ∉ k.spellings) ∧
      ∀ o : Operator, String.ofList text ≠ o.spelling
  | .lineComment => ['/', '/'] <+: text ∧ ∀ c ∈ after.head?, c = '\n'
  | .blockComment => ∃ body, text = '/' :: '*' :: body ∧ ['*', '/'] <:+ body ∧
      ∀ before rest, body = before ++ '*' :: '/' :: rest → rest = []
  | .whitespace => (∀ c ∈ text, isBlank c) ∧ ∀ c ∈ after.head?, isBlank c = false
  | _ => True

/-- The text is a word: a letter or an underscore, then letters, digits and underscores. -/
def Text.IsWord (text : List Char) : Prop :=
  ∃ c cs, text = c :: cs ∧ isWordStart c ∧ ∀ d ∈ cs, isWordChar d

namespace Lexeme

/-- The lexeme is written as its kind and value say. -/
def IsWritten (c : Char) (cs : List Char) (l : Lexeme) : Prop :=
  Token.IsWritten (c :: cs.take l.more) (cs.drop l.more) l.value l.kind

theorem IsWritten.of_eq {l : Lexeme} (htext : c :: cs.take l.more = text)
    (hafter : cs.drop l.more = after) (h : Token.IsWritten text after l.value l.kind) :
    IsWritten c cs l := by
  subst htext hafter
  exact h

theorem isWritten_blanks (hc : isBlank c) :
    IsWritten c cs (.bare .whitespace (cs.takeWhile isBlank).length) := by
  refine .of_eq (congrArg (c :: ·) (take_takeWhile isBlank cs)) (drop_takeWhile isBlank cs) ?_
  exact ⟨List.forall_mem_cons.mpr ⟨hc, List.all_eq_true.mp List.all_takeWhile⟩, head?_dropWhile⟩

/-! ### Symbols -/

theorem mem_symbols_operator {o : Operator} (ho : o.isWord = false) :
    (o.spelling.toList, .operator o) ∈ symbols := by
  refine List.mem_append_left _ (List.mem_map.mpr ⟨o, List.mem_filter.mpr ⟨o.mem_all, ?_⟩, rfl⟩)
  rw [ho, Bool.not_false]

theorem mem_symbols_punctuation (p : Punctuation) :
    (p.spelling.toList, .punctuation p) ∈ symbols :=
  List.mem_append_right _ (List.mem_map.mpr ⟨p, p.mem_all, rfl⟩)

/-- A symbol is written as the vocabulary spells it, and no longer one could stand there. A single slash
is a symbol where no comment starts. -/
theorem isWritten_scanSymbol (hslash : c = '/' → ∀ d ∈ cs.head?, d ≠ '/' ∧ d ≠ '*') :
    IsWritten c cs (scanSymbol c cs) := by
  unfold scanSymbol
  split
  case h_2 => trivial
  case h_1 spelling kind hfound =>
    obtain ⟨hmem, ⟨after, hafter⟩, hlongest⟩ := longestSymbol?_eq_some_iff.mp hfound
    obtain ⟨d, more, rfl⟩ := List.exists_cons_of_ne_nil (symbol_spelling _ hmem).1
    obtain ⟨rfl, rfl⟩ := List.cons.inj hafter
    refine .of_eq (congrArg (d :: ·) List.take_left) List.drop_left ?_
    have hmunch : Token.IsLongest (d :: more) after :=
      ⟨fun o ho => hlongest _ (mem_symbols_operator ho),
        fun p => hlongest _ (mem_symbols_punctuation p)⟩
    rcases symbol_cases hmem with ⟨o, ho, heq⟩ | ⟨p, heq⟩
    all_goals obtain ⟨hspelling, rfl⟩ := Prod.mk.inj heq
    · refine ⟨hspelling, fun _ => hmunch, ?_⟩
      rintro rfl
      obtain ⟨rfl, rfl⟩ := List.cons.inj hspelling
      exact hslash rfl
    · exact ⟨hspelling, hmunch⟩

/-! ### Comments -/

/-- A comment ends with its end. -/
theorem suffix_of_commentEnd? (h : commentEnd? cs = some n) : ['*', '/'] <:+ cs.take n := by
  induction cs using commentEnd?.induct generalizing n with
  | case1 => cases h
  | case2 cs =>
    cases h
    exact List.suffix_rfl
  | case3 c cs hne ih =>
    have hmore : commentEnd? (c :: cs) = (commentEnd? cs).map (· + 1) := by
      rw [commentEnd?]
      exact hne
    rw [hmore] at h
    obtain ⟨m, hm, rfl⟩ := Option.map_eq_some_iff.mp h
    rw [List.take_succ_cons]
    exact (ih hm).trans (List.suffix_cons c _)

/-- It reaches no further than any end that stands in it. -/
theorem commentEnd?_append_le (before rest : List Char) :
    ∃ n, commentEnd? (before ++ '*' :: '/' :: rest) = some n ∧ n ≤ before.length + 2 := by
  induction before with
  | nil => exact ⟨2, rfl, Nat.le_refl _⟩
  | cons c before ih =>
    by_cases hopen : c = '*' → (before ++ '*' :: '/' :: rest).head? ≠ some '/'
    · obtain ⟨n, hn, hle⟩ := ih
      rw [List.cons_append, commentEnd?_cons hopen, hn]
      exact ⟨n + 1, rfl, by rw [List.length_cons]; omega⟩
    · obtain ⟨rfl, hhead⟩ := Classical.not_imp.mp hopen
      obtain ⟨ds, hds⟩ := List.head?_eq_some_iff.mp (not_not.mp hhead)
      rw [List.cons_append, hds]
      exact ⟨2, rfl, Nat.le_add_left _ _⟩

/-- A comment is written between its marks; a slash is an operator where none starts. -/
theorem isWritten_scanSlash (cs : List Char) : IsWritten '/' cs (scanSlash '/' cs) := by
  unfold scanSlash
  split
  case h_1 ds =>
    refine .of_eq (congrArg ('/' :: ·) (take_takeWhile _ ('/' :: ds))) (drop_takeWhile _ ('/' :: ds)) ?_
    exact ⟨⟨ds.takeWhile (· ≠ '\n'), rfl⟩, fun d hd => by simpa using head?_dropWhile d hd⟩
  case h_2 body =>
    split
    case h_2 => trivial
    case h_1 n hend =>
      refine .of_eq (congrArg ('/' :: ·) List.take_succ_cons) List.drop_succ_cons ?_
      refine ⟨body.take n, rfl, suffix_of_commentEnd? hend, fun before rest hbody => ?_⟩
      have halone := commentEnd?_take hend
      obtain ⟨m, hm, hle⟩ := commentEnd?_append_le before rest
      rw [hbody, hm] at halone
      obtain rfl : m = n := Option.some.inj halone
      have hlength := List.length_take_le m body
      rw [hbody, List.length_append, List.length_cons, List.length_cons] at hlength
      exact List.eq_nil_of_length_eq_zero (by omega)
  case h_3 hline hblock =>
    refine isWritten_scanSymbol fun _ d hd => ⟨?_, ?_⟩
    all_goals
      rintro rfl
      obtain ⟨ds, hds⟩ := List.head?_eq_some_iff.mp hd
    · exact hline ds hds
    · exact hblock ds hds

/-! ### Words -/

/-- No symbol is written like a word. -/
theorem not_isWordStart_spelling {o : Operator} (ho : o.isWord = false) :
    ∀ c ∈ o.spelling.toList.head?, isWordStart c = false := by
  have h : Operator.all.all (fun o => o.isWord ||
      o.spelling.toList.head?.all fun c => !isWordStart c) = true := rfl
  have hall := List.all_eq_true.mp h o o.mem_all
  rw [ho, Bool.false_or, Option.all_eq_true] at hall
  exact fun c hc => Bool.not_eq_true' _ ▸ hall c hc

/-- A word is one that the vocabulary spells, or a name. -/
theorem isWritten_ofWord {word : String} (hword : word.toList = c :: cs) (hc : isWordStart c) :
    Token.IsWritten (c :: cs) after (ofWord word).2 (ofWord word).1 := by
  have htext : String.ofList (c :: cs) = word := by rw [← hword, String.ofList_toList]
  have hkeyword {k : Keyword} (hk : Keyword.ofSpelling? word = some k) :
      String.ofList (c :: cs) ∈ k.spellings := by
    have hfound := List.find?_some hk
    rw [htext]
    exact List.contains_iff_mem.mp hfound
  unfold ofWord
  split
  case h_1 hk => exact ⟨true, rfl, hkeyword hk⟩
  case h_2 hk => exact ⟨false, rfl, hkeyword hk⟩
  case h_3 hk => exact hkeyword hk
  case h_4 k _ _ _ hk => exact hkeyword hk
  case h_5 hnokeyword =>
    split
    case h_1 o ho =>
      have hfound := List.find?_some ho
      obtain ⟨hisWord, hspelling⟩ := Bool.and_eq_true_iff.mp hfound
      refine ⟨by rw [beq_iff_eq.mp hspelling, hword], fun hno => ?_, ?_⟩
      · rw [hisWord] at hno
        cases hno
      · rintro rfl
        cases hisWord
    case h_2 hnooperator =>
      rw [Token.IsWritten, htext]
      constructor
      · intro k hk
        exact absurd (List.contains_iff_mem.mpr hk) (List.find?_eq_none.mp hnokeyword k k.mem_all)
      · intro o ho
        cases hisWord : o.isWord with
        | true =>
          refine absurd ?_ (List.find?_eq_none.mp hnooperator o o.mem_all)
          rw [hisWord, ho, beq_self_eq_true]
          rfl
        | false =>
          have hstart := not_isWordStart_spelling hisWord c (by rw [← ho, hword]; rfl)
          rw [hc] at hstart
          cases hstart

theorem isWritten_scanWord (hc : isWordStart c) : IsWritten c cs (scanWord c cs) := by
  refine .of_eq (congrArg (c :: ·) (take_takeWhile isWordChar cs)) rfl ?_
  exact isWritten_ofWord String.toList_ofList hc

/-! ### Literals -/

/-- Of a literal nothing is said here. -/
theorem IsLiteral.isWritten {l : Lexeme} (h : IsLiteral c cs l) : IsWritten c cs l := by
  cases h <;> trivial

/-- **Every lexeme is written as its kind and value say.** -/
theorem isWritten_scan (c : Char) (cs : List Char) : IsWritten c cs (scan c cs) := by
  unfold scan
  split_ifs with hblank hnewline hslash hstring hchar hdigit hword
  · exact isWritten_blanks hblank
  · trivial
  · exact hslash ▸ isWritten_scanSlash cs
  · exact (isLiteral_scanString c cs).isWritten
  · exact (isLiteral_scanChar c cs).isWritten
  · exact (isLiteral_number c cs).isWritten
  · exact isWritten_scanWord hword
  · exact isWritten_scanSymbol fun hc => absurd hc hslash

/-- No character of a word follows a word. -/
theorem not_isWordChar_after (hc : isWordStart c) :
    ∀ d ∈ (cs.drop (scan c cs).more).head?, isWordChar d = false := by
  have htail : ∀ d ∈ cs.takeWhile isWordChar, isWordChar d := List.all_eq_true.mp List.all_takeWhile
  have hafter : ∀ d ∈ (cs.dropWhile isWordChar).head?, isWordChar d = false := head?_dropWhile
  have hscan := scan_word hc htail hafter
  rw [List.takeWhile_append_dropWhile] at hscan
  rw [hscan]
  change ∀ d ∈ (cs.drop (cs.takeWhile isWordChar).length).head?, isWordChar d = false
  rw [drop_takeWhile]
  exact head?_dropWhile

end Lexeme

/-! ### Tokens -/

/-- The text ahead of a token is its own and what follows it. -/
theorem Token.LiesIn.ahead_eq {t : Token} (h : t.LiesIn cs) :
    Text.dropBytes cs t.offset = Text.between cs t.offset t.stop ++ Text.dropBytes cs t.stop := by
  obtain ⟨before, after, hcs, hoffset, hstop⟩ :=
    h.boundary_offset.exists_between h.boundary_stop (Nat.le_add_right _ _)
  generalize Text.between cs t.offset t.stop = text at hcs hstop ⊢
  rw [← hstop, ← hoffset, hcs, Text.dropBytes_byteSize, ← List.append_assoc, Text.dropBytes_byteSize]

theorem Token.FoundIn.isWritten {t : Token} {d : Char} {ds : List Char} (h : t.FoundIn cs d ds) :
    IsWritten (Text.between cs t.offset t.stop) (Text.dropBytes cs t.stop) t.value t.kind := by
  rw [h.text, h.after, h.value, h.kind]
  exact isWritten_scan d ds

/-- Every token of a text is written as its kind and value say. -/
theorem Token.isWritten_of_mem {source : String} {t : Token} (ht : t ∈ tokenize source) :
    IsWritten (Text.between source.toList t.offset t.stop) (Text.dropBytes source.toList t.stop)
      t.value t.kind := by
  by_cases heof : t.kind = .eof
  · rw [heof]
    trivial
  · obtain ⟨d, ds, hfound⟩ := (Cursor.Behind.start source.toList).foundIn_tokens ht heof
    exact hfound.isWritten

/-- **Every token is written as its kind and value say.** Its text and what follows it are the text from
its offset on: a symbol is the longest of the vocabulary that starts there; a keyword, a literal word or
an operator in letters is spelled as the vocabulary says, a name in none of these ways; a word ends where
no character of a word follows, a comment at its first end, and blanks before a character that is none,
so that no two runs of blanks stand side by side. The symbols are those that a lexer finds by branching on
single characters. -/
theorem tokens_are_spelled (source : String) :
    (∀ t ∈ tokenize source,
      let text := Text.between source.toList t.offset t.stop
      let after := Text.dropBytes source.toList t.stop
      Text.dropBytes source.toList t.offset = text ++ after ∧
        Token.IsWritten text after t.value t.kind ∧
        (Text.IsWord text → ∀ c ∈ after.head?, isWordChar c = false)) ∧
    (tokenize source).IsChain (fun t u => t.kind = .whitespace → u.kind ≠ .whitespace) ∧
    ∀ c cs, scanSymbol c cs = symbolBranch c cs := by
  obtain ⟨-, hchain, -, hall⟩ := tokenize_tiles source
  refine ⟨fun t ht => ⟨(hall t ht).1.ahead_eq, Token.isWritten_of_mem ht, ?_⟩, ?_,
    scanSymbol_eq_symbolBranch⟩
  · rintro ⟨d, word, htext, hd, -⟩
    obtain ⟨ds, hfound⟩ := Token.exists_foundIn ht (congrArg List.head? htext)
    rw [hfound.after]
    exact not_isWordChar_after hd
  · refine hchain.imp_of_mem_imp fun t u ht hu hnext hblank hblank' => ?_
    have hstops := Token.isWritten_of_mem ht
    have hstarts := Token.isWritten_of_mem hu
    rw [hblank] at hstops
    rw [hblank'] at hstarts
    -- the second run would start with a blank, where the first one ends
    have heof : u.kind ≠ .eof := hblank'.trans_ne Kind.noConfusion
    obtain ⟨d, ds, hfound⟩ := (Cursor.Behind.start source.toList).foundIn_tokens hu heof
    have hd : isBlank d := hstarts.1 d (by rw [hfound.text]; exact List.mem_cons_self)
    rw [hstops.2 d (by rw [← hnext, hfound.ahead]; rfl)] at hd
    cases hd

end SableFront
