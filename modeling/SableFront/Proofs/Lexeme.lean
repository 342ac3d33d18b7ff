import SableFront.Token.Scan
import Mathlib.Tactic.SplitIfs

/-!
# Lexemes: what can stand at the start of a text

Each way to read gives one of a few lexemes: a literal has a value of its kind, a word is one of the
vocabulary or a name, a symbol is one of the vocabulary, and all but words may turn out to be invalid
text. Here the ways to read are gone through once (`canStand_scan`). What holds of every lexeme is
then shown by cases on what can stand there.
-/

namespace SableFront.Lexeme

variable {c : Char} {cs : List Char} {l : Lexeme} {word : String} {w : Kind × Value}

/-! ### Literals -/

/-- What is read as a literal: a value of its kind, or invalid text. -/
inductive IsLiteral (c : Char) (cs : List Char) : Lexeme → Prop
  | int (n more : Nat) : IsLiteral c cs ⟨.int, .int n, more⟩
  | float (bits : UInt64) (single : Bool) (more : Nat) :
    IsLiteral c cs ⟨.float, .float bits single, more⟩
  | str (s : String) (more : Nat) : IsLiteral c cs ⟨.str, .str s, more⟩
  | char (d : Char) (more : Nat) : IsLiteral c cs ⟨.char, .char d, more⟩
  | invalid (more : Nat) : IsLiteral c cs (.invalid c cs more)

theorem isLiteral_integer (value : Option UInt64) (more : Nat) :
    IsLiteral c cs (Number.integer value c cs more) := by
  unfold Number.integer
  split
  · exact .int _ _
  · exact .invalid _

theorem isLiteral_number (c : Char) (cs : List Char) : IsLiteral c cs (Number.scan c cs) := by
  unfold Number.scan
  split
  · exact isLiteral_integer _ _
  · dsimp only
    split
    · exact .float _ _ _
    · exact isLiteral_integer _ _

theorem isLiteral_scanString (c : Char) (cs : List Char) :
    IsLiteral c cs (Literal.scanString c cs) := by
  unfold Literal.scanString
  split
  · exact .str _ _
  · exact .invalid _

theorem isLiteral_scanChar (c : Char) (cs : List Char) :
    IsLiteral c cs (Literal.scanChar c cs) := by
  unfold Literal.scanChar
  split
  · exact .invalid _
  · split
    · exact .invalid _
    · split
      · split
        · exact .char _ _
        · exact .invalid _
      · exact .invalid _

theorem IsLiteral.isComment (h : IsLiteral c cs l) : l.kind.isComment = false := by
  cases h <;> rfl

/-! ### Words -/

/-- What a word is read as: one of the vocabulary, or a name. -/
inductive IsWord (word : String) : Kind × Value → Prop
  | bool (b : Bool) : IsWord word (.bool, .bool b)
  | null : IsWord word (.null, .none)
  | keyword (k : Keyword) : IsWord word (.keyword k, .none)
  | operator {o : Operator} (ho : o.isWord) : IsWord word (.operator o, .none)
  | name : IsWord word (.ident, .text word)

theorem isWord_ofWord (word : String) : IsWord word (ofWord word) := by
  unfold ofWord
  split
  · exact .bool true
  · exact .bool false
  · exact .null
  · exact .keyword _
  · split
    · rename_i o ho
      have hfound := List.find?_some ho
      exact .operator (Bool.and_eq_true_iff.mp hfound).1
    · exact .name

theorem IsWord.isComment (h : IsWord word w) : w.1.isComment = false := by
  cases h <;> rfl

/-! ### Symbols -/

theorem symbol_cases {e : List Char × Kind} (he : e ∈ symbols) :
    (∃ o : Operator, o.isWord = false ∧ e = (o.spelling.toList, .operator o)) ∨
      ∃ p : Punctuation, e = (p.spelling.toList, .punctuation p) := by
  rcases List.mem_append.mp he with he | he
  · obtain ⟨o, ho, rfl⟩ := List.mem_map.mp he
    exact .inl ⟨o, Bool.not_eq_true' _ ▸ (List.mem_filter.mp ho).2, rfl⟩
  · obtain ⟨p, -, rfl⟩ := List.mem_map.mp he
    exact .inr ⟨p, rfl⟩

theorem kind_cases_of_symbol {spelling : List Char} {kind : Kind}
    (h : (spelling, kind) ∈ symbols) :
    (∃ o : Operator, o.isWord = false ∧ kind = .operator o) ∨
      ∃ p : Punctuation, kind = .punctuation p :=
  (symbol_cases h).imp (fun ⟨o, ho, heq⟩ => ⟨o, ho, (Prod.mk.inj heq).2⟩)
    fun ⟨p, heq⟩ => ⟨p, (Prod.mk.inj heq).2⟩

theorem mem_of_foldl_longer {es : List (List Char × Kind)} {best : Option (List Char × Kind)}
    {e : List Char × Kind} (h : es.foldl longer best = some e) : best = some e ∨ e ∈ es := by
  induction es generalizing best with
  | nil => exact Or.inl h
  | cons d ds ih =>
    rcases ih h with hb | hd
    · unfold longer at hb
      split at hb
      · cases hb
        exact Or.inr List.mem_cons_self
      · split at hb
        · cases hb
          exact Or.inr List.mem_cons_self
        · exact Or.inl hb
    · exact Or.inr (List.mem_cons_of_mem _ hd)

/-- The longest symbol at the start of a text is a symbol, and the text starts with it. -/
theorem longestSymbol?_eq_some {e : List Char × Kind} (h : longestSymbol? cs = some e) :
    e ∈ symbols ∧ e.1 <+: cs := by
  rcases mem_of_foldl_longer h with hn | hm
  · cases hn
  · rw [List.mem_filter] at hm
    exact ⟨hm.1, List.isPrefixOf_iff_prefix.mp hm.2⟩

/-- What is read as a symbol: one that the text starts with, or invalid text. -/
inductive IsSymbol (c : Char) (cs : List Char) : Lexeme → Prop
  | symbol {spelling : List Char} {kind : Kind} (hmem : (spelling, kind) ∈ symbols)
    (hpre : spelling <+: c :: cs) : IsSymbol c cs (.bare kind (spelling.length - 1))
  | invalid : IsSymbol c cs (.invalid c cs 0)

theorem isSymbol_scanSymbol (c : Char) (cs : List Char) : IsSymbol c cs (scanSymbol c cs) := by
  unfold scanSymbol
  split
  · rename_i spelling kind hlongest
    obtain ⟨hmem, hpre⟩ := longestSymbol?_eq_some hlongest
    exact .symbol hmem hpre
  · exact .invalid

theorem IsSymbol.isComment (h : IsSymbol c cs l) : l.kind.isComment = false := by
  cases h with
  | symbol hmem =>
    rcases kind_cases_of_symbol hmem with ⟨o, -, rfl⟩ | ⟨p, rfl⟩
    all_goals rfl
  | invalid => rfl

/-! ### All lexemes -/

/-- What can stand at the start of a text. -/
inductive CanStand (c : Char) (cs : List Char) : Lexeme → Prop
  | blanks (more : Nat) : CanStand c cs (.bare .whitespace more)
  | newline : CanStand c cs (.bare .newline 0)
  | lineComment (hc : c = '/') :
    CanStand c cs (.ofText .lineComment c cs (cs.takeWhile (· ≠ '\n')).length)
  | blockComment (hc : c = '/') (more : Nat) : CanStand c cs (.ofText .blockComment c cs more)
  | openComment : CanStand c cs (.invalid c cs cs.length)
  | literal {l : Lexeme} (h : IsLiteral c cs l) : CanStand c cs l
  | word (hc : c ≠ '\n') : CanStand c cs (scanWord c cs)
  | symbol {l : Lexeme} (h : IsSymbol c cs l) : CanStand c cs l

theorem canStand_scanSlash (cs : List Char) : CanStand '/' cs (scanSlash '/' cs) := by
  unfold scanSlash
  split
  · exact .lineComment rfl
  · split
    · exact .blockComment rfl _
    · exact .openComment
  · exact .symbol (isSymbol_scanSymbol '/' cs)

theorem canStand_scan (c : Char) (cs : List Char) : CanStand c cs (scan c cs) := by
  unfold scan
  split_ifs with hblank hline hslash
  · exact .blanks _
  · exact .newline
  · exact hslash ▸ canStand_scanSlash cs
  · exact .literal (isLiteral_scanString c cs)
  · exact .literal (isLiteral_scanChar c cs)
  · exact .literal (isLiteral_number c cs)
  · exact .word hline
  · exact .symbol (isSymbol_scanSymbol c cs)

end SableFront.Lexeme
