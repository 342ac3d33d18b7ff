import SableFront.Proofs.Coverage.Line
import SableFront.Proofs.Literals.Numeral
import SableFront.Proofs.Spaced.Word
import SableFront.Proofs.Tiling.Found

/-!
# Literals: integers

The first two characters of an integer literal give its base, and then it takes all the digits of that
base that follow, however many. It denotes their exact value, or is invalid if that does not fit 64
bits (`integers_are_exact`). The base is not reconsidered: a digit that is too large for it is left for
the next token.
-/

namespace SableFront

namespace Number

/-- The ways to write an integer of a base: what stands before its digits, the digits, and the text
behind them. -/
inductive Form (digits after : List Char) : Nat → List Char → Prop
  | binary {mark : Char} (hmark : mark = 'b' ∨ mark = 'B') : Form digits after 2 ['0', mark]
  | hexadecimal {mark : Char} (hmark : mark = 'x' ∨ mark = 'X') : Form digits after 16 ['0', mark]
  | octal (hne : digits ≠ []) : Form digits after 8 ['0']
  /-- No other base is announced, and no fraction follows. -/
  | decimal (hne : digits ≠ [])
    (hmark : ∀ mark, (digits ++ after).take 2 = ['0', mark] →
      mark ∉ ['b', 'B', 'x', 'X'] ∧ ∀ d < 8, ¬ Writes d mark)
    (hpoint : after.head? = some '.' → after[1]? = some '.') : Form digits after 10 []

variable {base lead : Nat} {c : Char} {cs digits : List Char}

theorem radix?_eq_none {d : Char} {ds : List Char} (h : radix? '0' (d :: ds) = none) :
    d ∉ ['b', 'B', 'x', 'X'] ∧ ¬ isDigit 8 d := by
  unfold radix? at h
  dsimp only at h
  split_ifs at h with hzero hbinary hhexadecimal hoctal
  · exact absurd rfl hzero
  · obtain ⟨hb, hb'⟩ := not_or.mp hbinary
    obtain ⟨hx, hx'⟩ := not_or.mp hhexadecimal
    exact ⟨by simp [hb, hb', hx, hx'], hoctal⟩

/-- An integer is the exact value of its digits, provided that fits 64 bits. -/
theorem integer_exact (c : Char) (cs : List Char) (more : Nat) (hbase : base ≤ 16)
    (hdigits : ∀ d ∈ digits, isDigit base d) :
    let found := integer (value? base digits) c cs more
    (∀ v, found.kind = .int ∧ found.value = .int v ↔
      digits ≠ [] ∧ Denotes base digits v ∧ v < Nat.pow 2 64) ∧
    (found.kind = .invalid ↔ ¬ (digits ≠ [] ∧ ∃ v < Nat.pow 2 64, Denotes base digits v)) := by
  intro found
  have hdenotes (v : Nat) : Denotes base digits v ↔ v = valueOf base digits := by
    rw [denotes_iff hbase]
    exact and_iff_right hdigits
  simp only [hdenotes]
  cases hvalue : value? base digits with
  | some word =>
    obtain ⟨hne, hword, hlt⟩ := value?_eq_some hvalue
    have hfound : found = ⟨.int, .int (valueOf base digits), more⟩ := by
      change integer (value? base digits) c cs more = _
      rw [hvalue, integer, hword]
    rw [hfound]
    refine ⟨fun v => ⟨fun hint => ?_, fun hv => ⟨rfl, congrArg Value.int hv.2.1.symm⟩⟩,
      fun hinvalid => ?_, fun hno => ?_⟩
    · obtain rfl := Value.int.inj hint.2
      exact ⟨hne, rfl, hlt⟩
    · cases hinvalid
    · exact absurd ⟨hne, _, hlt, rfl⟩ hno
  | none =>
    have hfits := value?_eq_none hvalue
    have hfound : found = .invalid c cs more := congrArg (integer · c cs more) hvalue
    rw [hfound]
    refine ⟨fun v => ⟨fun hint => ?_, fun hv => ?_⟩, fun _ hdenoted => ?_, fun _ => rfl⟩
    · cases hint.1
    · obtain ⟨hne, rfl, hlt⟩ := hv
      exact absurd ⟨hne, hlt⟩ hfits
    · obtain ⟨hne, v, hlt, rfl⟩ := hdenoted
      exact hfits ⟨hne, hlt⟩

/-- What is scanned is an integer of this base: its digits are all that follow what announces it. -/
structure IsScanned (c : Char) (cs : List Char) (base : Nat) (lead digits : List Char) : Prop where
  base_le : base ≤ 16
  found : ∃ more, scan c cs = integer (value? base digits) c cs more
  text : c :: cs.take (scan c cs).more = lead ++ digits
  form : Form digits (cs.drop (scan c cs).more) base lead
  digits : ∀ d ∈ digits, isDigit base d
  behind : ∀ d ∈ (cs.drop (scan c cs).more).head?, ¬ isDigit base d

/-- Where a base is announced, the digits are those of this base behind the announcement. -/
theorem isScanned_of_radix {skip : Nat} (hradix : radix? c cs = some (base, skip)) :
    IsScanned c cs base ('0' :: cs.take skip) (digitRun base (cs.drop skip)) := by
  have hscan := scan_of_radix hradix
  have hmore : (scan c cs).more = skip + (digitRun base (cs.drop skip)).length := by
    rw [hscan, more_integer]
  have hdrop : cs.drop (scan c cs).more =
      (cs.drop skip).drop (digitRun base (cs.drop skip)).length := by
    rw [hmore, List.drop_drop]
  have htake : cs.take (scan c cs).more = cs.take skip ++ digitRun base (cs.drop skip) := by
    rw [hmore, List.take_add, digitRun, take_takeWhile]
  obtain ⟨rfl, d, ds, rfl, hform⟩ := radix?_eq_some hradix
  refine ⟨by omega, ⟨_, hscan⟩, by rw [htake, List.cons_append], ?_,
    fun _ => isDigit_of_mem_digitRun, ?_⟩
  · rcases hform with ⟨hd, rfl, rfl⟩ | ⟨hd, rfl, rfl⟩ | ⟨hd, rfl, rfl⟩
    · exact .binary hd
    · exact .hexadecimal hd
    · refine .octal ?_
      rw [List.drop_zero, digitRun, List.takeWhile_cons_of_pos hd]
      exact List.cons_ne_nil _ _
  · rw [hdrop]
    exact not_isDigit_behind _ _

/-- Where no base is announced and no fraction follows, the digits are those of base ten. -/
theorem isScanned_of_whole (hradix : radix? c cs = none) (hc : isDigit 10 c)
    (hwhole : ¬ startsFraction (cs.drop (digitRun 10 cs).length)) :
    IsScanned c cs 10 [] (c :: digitRun 10 cs) := by
  have hscan := scan_of_whole hradix hwhole
  have hmore : (scan c cs).more = (digitRun 10 cs).length := by rw [hscan, more_integer]
  have htake : cs.take (digitRun 10 cs).length = digitRun 10 cs := take_takeWhile _ cs
  refine ⟨by decide, ⟨_, hscan⟩, by rw [hmore, htake, List.nil_append], ?_,
    List.forall_mem_cons.mpr ⟨hc, fun _ => isDigit_of_mem_digitRun⟩, ?_⟩
  all_goals rw [hmore]
  · refine .decimal (List.cons_ne_nil _ _) (fun mark hmark => ?_) fun hpoint => ?_
    · have hcs := List.take_append_drop (digitRun 10 cs).length cs
      rw [htake] at hcs
      rw [List.cons_append, hcs] at hmark
      cases cs with
      | nil => cases hmark
      | cons d ds =>
        rw [List.take_succ_cons, List.take_succ_cons, List.take_zero] at hmark
        cases hmark
        obtain ⟨hlead, hoctal⟩ := radix?_eq_none hradix
        exact ⟨hlead, fun n hn hwrites =>
          hoctal ((isDigit_iff_exists (by decide)).mpr ⟨n, hn, hwrites⟩)⟩
    · by_contra hnext
      obtain ⟨tail, htail⟩ := List.head?_eq_some_iff.mp hpoint
      rw [htail, List.getElem?_cons_succ, ← List.head?_eq_getElem?] at hnext
      exact hwhole (startsFraction_iff.mpr ⟨tail, htail, hnext⟩)
  · exact not_isDigit_behind _ _

/-- **The digits of an integer are all that follow**, in the base that is announced. -/
theorem scan_integer (hc : isDigit 10 c) (hkind : (scan c cs).kind ≠ .float) :
    ∃ base lead digits, IsScanned c cs base lead digits := by
  cases hradix : radix? c cs with
  | some found => exact ⟨_, _, _, isScanned_of_radix hradix⟩
  | none =>
    refine ⟨_, _, _, isScanned_of_whole hradix hc fun hfraction => ?_⟩
    obtain ⟨tail, htail, hpoint⟩ := startsFraction_iff.mp hfraction
    exact hkind (congrArg Lexeme.kind (scan_of_fraction hradix htail hpoint))

end Number

/-- **Integer literals are exact at every length.** A token that starts with a digit and is no float
announces its base in one of the forms and goes on as long as digits of that base follow. It is an
integer exactly if there are digits and their value fits 64 bits, and denotes that value; otherwise it
is invalid. A base-ten one is not followed by a single point. -/
theorem integers_are_exact (source : String) {t : Token} (ht : t ∈ tokenize source) {c : Char} :
    let text := Text.between source.toList t.offset t.stop
    let after := Text.dropBytes source.toList t.stop
    text.head? = some c → c.isDigit → t.kind ≠ .float →
      ∃ base lead digits, text = lead ++ digits ∧ Number.Form digits after base lead ∧
        (∀ d ∈ digits, ∃ n < base, Number.Writes n d) ∧
        (∀ d ∈ after.head?, ∀ n < base, ¬ Number.Writes n d) ∧
        (∀ v, t.kind = .int ∧ t.value = .int v ↔
          digits ≠ [] ∧ Number.Denotes base digits v ∧ v < Nat.pow 2 64) ∧
        (t.kind = .invalid ↔ ¬ (digits ≠ [] ∧ ∃ v < Nat.pow 2 64, Number.Denotes base digits v)) := by
  intro text after hhead hdigit hkind
  obtain ⟨cs, hfound⟩ := Token.exists_foundIn ht hhead
  have hten : Number.isDigit 10 c := Number.isDigit_ten.mpr (Number.isDigit_iff.mp hdigit)
  have hscan : Lexeme.scan c cs = Number.scan c cs := scan_digit hten
  obtain ⟨hk, hv, -, htext, hafter⟩ := hfound
  rw [hscan] at hk hv htext hafter
  obtain ⟨base, lead, digits, hbase, ⟨more, hinteger⟩, hall, hform, hdigits, hbehind⟩ :=
    Number.scan_integer hten (hk ▸ hkind)
  have hexact := Number.integer_exact c cs more hbase hdigits
  dsimp only at hexact
  rw [← hinteger, ← hk, ← hv] at hexact
  rw [← hafter] at hform hbehind
  refine ⟨base, lead, digits, htext.trans hall, hform, fun d hd => ?_, fun d hd n hn hwrites => ?_, hexact⟩
  · exact (Number.isDigit_iff_exists hbase).mp (hdigits d hd)
  · exact hbehind d hd ((Number.isDigit_iff_exists hbase).mpr ⟨n, hn, hwrites⟩)

/-- The largest number of 64 bits, before two points. -/
theorem integer_is_exact :
    let source := String.ofList ['0', 'X', 'F', 'f', 'f', 'f', 'f', 'f', 'f', 'f', 'f', 'f', 'f', 'f',
      'f', 'f', 'f', 'f', '.', '.']
    let t : Token := ⟨.int, .int 18446744073709551615, ⟨⟨0, 0⟩, ⟨0, 18⟩⟩, 0, 18, 18⟩
    let text := Text.between source.toList t.offset t.stop
    t ∈ tokenize source ∧ text.head? = some '0' ∧ Char.isDigit '0' ∧ t.kind ≠ .float ∧
      ∃ base lead digits, text = lead ++ digits ∧ digits ≠ [] ∧
        Number.Denotes base digits 18446744073709551615 := by
  intro source t text
  have ht : t ∈ tokenize source := by decide +kernel
  have hhead : text.head? = some '0' := by decide +kernel
  have hdigit : Char.isDigit '0' := by decide
  have hkind : t.kind ≠ .float := by decide
  obtain ⟨base, lead, digits, htext, -, -, -, hint, -⟩ :=
    integers_are_exact source ht hhead hdigit hkind
  obtain ⟨hne, hdenotes, -⟩ := (hint _).mp ⟨rfl, rfl⟩
  exact ⟨ht, hhead, hdigit, hkind, base, lead, digits, htext, hne, hdenotes⟩

end SableFront
