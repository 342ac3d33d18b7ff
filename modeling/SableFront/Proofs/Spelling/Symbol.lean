import SableFront.Proofs.Tiling.Prefix

/-!
# Spelling: symbols

The symbol that a text starts with is the longest one of the vocabulary (`longestSymbol?_eq_some_iff`).
A lexer that is written by hand has no such search: it branches on the first character, and looks at
one or two more where a longer symbol may stand (`symbolBranch`). Both find the same for every text
(`scanSymbol_eq_symbolBranch`), so that no symbol of the vocabulary lacks its branch and no branch gives
anything that is not in the vocabulary.
-/

namespace SableFront.Lexeme

variable {c : Char} {cs : List Char} {d e : List Char × Kind}

/-! ### The longest symbol -/

theorem longer_eq (best : Option (List Char × Kind)) (d : List Char × Kind) :
    ∃ e, longer best d = some e ∧ d.1.length ≤ e.1.length ∧
      ∀ b, best = some b → b.1.length ≤ e.1.length := by
  cases best with
  | none => exact ⟨d, rfl, Nat.le_refl _, fun b hb => nomatch hb⟩
  | some b =>
    unfold longer
    dsimp only
    split
    case isTrue hlt =>
      exact ⟨d, rfl, Nat.le_refl _, fun b' hb => Option.some.inj hb ▸ Nat.le_of_lt hlt⟩
    case isFalse hle =>
      exact ⟨b, rfl, Nat.le_of_not_lt hle, fun b' hb => Option.some.inj hb ▸ Nat.le_refl _⟩

theorem length_le_of_foldl_longer {es : List (List Char × Kind)} {best : Option (List Char × Kind)}
    (h : es.foldl longer best = some e) :
    (∀ b, best = some b → b.1.length ≤ e.1.length) ∧ ∀ d ∈ es, d.1.length ≤ e.1.length := by
  induction es generalizing best with
  | nil =>
    rw [List.foldl_nil] at h
    exact ⟨fun b hb => Option.some.inj (h.symm.trans hb) ▸ Nat.le_refl _, List.forall_mem_nil _⟩
  | cons d ds ih =>
    obtain ⟨b, hlonger, hd, hbest⟩ := longer_eq best d
    obtain ⟨hb, hds⟩ := ih h
    have hle := hb b hlonger
    exact ⟨fun b' hb' => Nat.le_trans (hbest b' hb') hle,
      List.forall_mem_cons.mpr ⟨Nat.le_trans hd hle, hds⟩⟩

/-- **What is found is the longest symbol that the text starts with.** -/
theorem longestSymbol?_eq_some_iff : longestSymbol? cs = some e ↔
    e ∈ symbols ∧ e.1 <+: cs ∧ ∀ d ∈ symbols, d.1 <+: cs → d.1.length ≤ e.1.length := by
  constructor
  · intro h
    obtain ⟨hmem, hstarts⟩ := longestSymbol?_eq_some h
    refine ⟨hmem, hstarts, fun d hd hprefix => (length_le_of_foldl_longer h).2 d ?_⟩
    exact List.mem_filter.mpr ⟨hd, List.isPrefixOf_iff_prefix.mpr hprefix⟩
  · rintro ⟨hmem, hstarts, hlongest⟩
    have hsome := isSome_longestSymbol? hmem (List.isPrefixOf_iff_prefix.mpr hstarts)
    obtain ⟨d, hfound⟩ := Option.isSome_iff_exists.mp hsome
    obtain ⟨hd, hprefix⟩ := longestSymbol?_eq_some hfound
    -- no symbol is written like another one, so it is enough that both are equally long
    have hle : e.1.length ≤ d.1.length :=
      (length_le_of_foldl_longer hfound).2 e
        (List.mem_filter.mpr ⟨hmem, List.isPrefixOf_iff_prefix.mpr hstarts⟩)
    have hsame : e.1 = d.1 := (List.prefix_of_prefix_length_le hstarts hprefix hle).eq_of_length
      (Nat.le_antisymm hle (hlongest d hd hprefix))
    have hspelling := longestSymbol?_spelling hmem
    rw [hsame, longestSymbol?_spelling hd] at hspelling
    rw [hfound, hspelling]

/-! ### Branches -/

/-- A symbol that one more character makes another one: the first of a list that fits. -/
def compound (simple : Kind) (compounds : List (Char × Kind)) (cs : List Char) : Lexeme :=
  match compounds.find? fun e => cs.head? == some e.1 with
  | some e => .bare e.2 1
  | none => .bare simple 0

/-- The comparisons and shifts that start with an angle: alone, before `=`, doubled, and doubled before
`=`. -/
def angles (first : Char) (plain orEq shift shiftEq : Operator) (cs : List Char) : Lexeme :=
  if cs.head? = some '=' then .bare (.operator orEq) 1
  else if cs.head? = some first then
    if (cs.drop 1).head? = some '=' then .bare (.operator shiftEq) 2 else .bare (.operator shift) 1
  else .bare (.operator plain) 0

/-- A point, or three of them. -/
def points (cs : List Char) : Lexeme :=
  if cs.head? = some '.' ∧ (cs.drop 1).head? = some '.' then .bare (.punctuation .ellipsis) 2
  else .bare (.punctuation .dot) 0

/-- The symbol at `c` before `cs`, by the branch for `c`. -/
def symbolBranch (c : Char) (cs : List Char) : Lexeme :=
  match c with
  | '/' => compound (.operator .slash) [('=', .operator .slashEq)] cs
  | '+' => compound (.operator .plus) [('=', .operator .plusEq), ('+', .operator .plusPlus)] cs
  | '-' =>
    compound (.operator .minus)
      [('=', .operator .minusEq), ('>', .punctuation .arrow), ('-', .operator .minusMinus)] cs
  | '*' => compound (.operator .star) [('=', .operator .starEq)] cs
  | '%' => compound (.operator .percent) [('=', .operator .percentEq)] cs
  | '^' => compound (.operator .caret) [('=', .operator .caretEq)] cs
  | '&' => compound (.operator .amp) [('=', .operator .ampEq), ('&', .operator .ampAmp)] cs
  | '|' => compound (.operator .pipe) [('=', .operator .pipeEq), ('|', .operator .pipePipe)] cs
  | '<' => angles '<' .lt .ltEq .shl .shlEq cs
  | '>' => angles '>' .gt .gtEq .shr .shrEq cs
  | '=' => compound (.operator .eq) [('=', .operator .eqEq)] cs
  | '!' => compound (.operator .bang) [('=', .operator .notEq)] cs
  | '~' => .bare (.operator .tilde) 0
  | '.' => points cs
  | ',' => .bare (.punctuation .comma) 0
  | ':' => .bare (.punctuation .colon) 0
  | ';' => .bare (.punctuation .semicolon) 0
  | '(' => .bare (.punctuation .lParen) 0
  | ')' => .bare (.punctuation .rParen) 0
  | '[' => .bare (.punctuation .lBracket) 0
  | ']' => .bare (.punctuation .rBracket) 0
  | '\x7b' => .bare (.punctuation .lBrace) 0
  | '\x7d' => .bare (.punctuation .rBrace) 0
  | _ => .invalid c cs 0

/-- The characters that have a branch. -/
def branches : List Char :=
  ['/', '+', '-', '*', '%', '^', '&', '|', '<', '>', '=', '!', '~', '.', ',', ':', ';',
    '(', ')', '[', ']', '\x7b', '\x7d']

/-- Every symbol that starts with `c` is written in one of some ways. -/
def writtenIn (c : Char) (spellings : List (List Char)) : Bool :=
  symbols.all fun d => d.1.head? != some c || spellings.contains d.1

theorem head?_symbol (hd : d ∈ symbols) (hstarts : d.1 <+: c :: cs) : d.1.head? = some c := by
  obtain ⟨x, xs, hcons⟩ := List.exists_cons_of_ne_nil (symbol_spelling d hd).1
  rw [hcons] at hstarts ⊢
  rw [(List.cons_prefix_cons.mp hstarts).1, List.head?_cons]

/-- The longest of these ways is what is found. -/
theorem scanSymbol_of_writtenIn {spellings : List (List Char)} (h : writtenIn c spellings)
    (hmem : e ∈ symbols) (hstarts : e.1 <+: c :: cs)
    (hlongest : ∀ s ∈ spellings, s <+: c :: cs → s.length ≤ e.1.length) :
    scanSymbol c cs = .bare e.2 (e.1.length - 1) := by
  have hfound : longestSymbol? (c :: cs) = some e := by
    refine longestSymbol?_eq_some_iff.mpr ⟨hmem, hstarts, fun d hd hprefix => ?_⟩
    have hin := List.all_eq_true.mp h d hd
    rw [bne, beq_iff_eq.mpr (head?_symbol hd hprefix), Bool.not_true, Bool.false_or] at hin
    exact hlongest d.1 (List.contains_iff_mem.mp hin) hprefix
  rw [scanSymbol, hfound]

theorem head?_of_starts {x : Char} {xs : List Char} (h : c :: x :: xs <+: c :: cs) :
    cs.head? = some x := by
  obtain ⟨rest, rfl⟩ := (List.cons_prefix_cons.mp h).2
  rfl

theorem scanSymbol_eq_compound (c : Char) (simple : Kind) (compounds : List (Char × Kind))
    (cs : List Char) (hsimple : ([c], simple) ∈ symbols)
    (hcompounds : ∀ e ∈ compounds, ([c, e.1], e.2) ∈ symbols)
    (h : writtenIn c ([c] :: compounds.map fun e => [c, e.1])) :
    scanSymbol c cs = compound simple compounds cs := by
  unfold compound
  split
  case h_1 e hfound =>
    have hhead := List.find?_some hfound
    obtain ⟨ds, rfl⟩ := List.head?_eq_some_iff.mp (beq_iff_eq.mp hhead)
    refine scanSymbol_of_writtenIn h (hcompounds e (List.mem_of_find?_eq_some hfound)) ⟨ds, rfl⟩ ?_
    rw [List.forall_mem_cons, List.forall_mem_map]
    exact ⟨fun _ => Nat.le_succ _, fun _ _ _ => Nat.le_refl _⟩
  case h_2 hnone =>
    refine scanSymbol_of_writtenIn h hsimple ⟨cs, rfl⟩ ?_
    rw [List.forall_mem_cons, List.forall_mem_map]
    refine ⟨fun _ => Nat.le_refl _, fun e he hstarts => ?_⟩
    exact absurd (beq_iff_eq.mpr (head?_of_starts hstarts)) (List.find?_eq_none.mp hnone e he)

theorem scanSymbol_eq_bare (c : Char) (kind : Kind) (cs : List Char) (hkind : ([c], kind) ∈ symbols)
    (h : writtenIn c [[c]]) : scanSymbol c cs = .bare kind 0 :=
  scanSymbol_eq_compound c kind [] cs hkind (List.forall_mem_nil _) h

theorem scanSymbol_eq_angles (first : Char) (plain orEq shift shiftEq : Operator) (cs : List Char)
    (hplain : ([first], .operator plain) ∈ symbols)
    (horEq : ([first, '='], .operator orEq) ∈ symbols)
    (hshift : ([first, first], .operator shift) ∈ symbols)
    (hshiftEq : ([first, first, '='], .operator shiftEq) ∈ symbols)
    (h : writtenIn first [[first], [first, '='], [first, first], [first, first, '=']])
    (hfirst : first ≠ '=') : scanSymbol first cs = angles first plain orEq shift shiftEq cs := by
  unfold angles
  split_ifs with heq hdouble hdoubleEq
  · obtain ⟨ds, rfl⟩ := List.head?_eq_some_iff.mp heq
    refine scanSymbol_of_writtenIn h horEq ⟨ds, rfl⟩ ?_
    rw [List.forall_mem_cons, List.forall_mem_cons, List.forall_mem_cons, List.forall_mem_singleton]
    refine ⟨fun _ => Nat.le_succ _, fun _ => Nat.le_refl _, fun _ => Nat.le_refl _, fun hstarts => ?_⟩
    exact absurd (Option.some.inj (head?_of_starts hstarts)).symm hfirst
  · obtain ⟨ds, rfl⟩ := List.head?_eq_some_iff.mp hdouble
    obtain ⟨es, rfl⟩ := List.head?_eq_some_iff.mp hdoubleEq
    refine scanSymbol_of_writtenIn h hshiftEq ⟨es, rfl⟩ ?_
    rw [List.forall_mem_cons, List.forall_mem_cons, List.forall_mem_cons, List.forall_mem_singleton]
    exact ⟨fun _ => Nat.le_add_left 1 2, fun _ => Nat.le_succ _, fun _ => Nat.le_succ _,
      fun _ => Nat.le_refl _⟩
  · obtain ⟨ds, rfl⟩ := List.head?_eq_some_iff.mp hdouble
    refine scanSymbol_of_writtenIn h hshift ⟨ds, rfl⟩ ?_
    rw [List.forall_mem_cons, List.forall_mem_cons, List.forall_mem_cons, List.forall_mem_singleton]
    refine ⟨fun _ => Nat.le_succ _, fun _ => Nat.le_refl _, fun _ => Nat.le_refl _, fun hstarts => ?_⟩
    exact absurd (head?_of_starts (List.cons_prefix_cons.mp hstarts).2) hdoubleEq
  · refine scanSymbol_of_writtenIn h hplain ⟨cs, rfl⟩ ?_
    rw [List.forall_mem_cons, List.forall_mem_cons, List.forall_mem_cons, List.forall_mem_singleton]
    exact ⟨fun _ => Nat.le_refl _, fun hstarts => absurd (head?_of_starts hstarts) heq,
      fun hstarts => absurd (head?_of_starts hstarts) hdouble,
      fun hstarts => absurd (head?_of_starts hstarts) hdouble⟩

theorem scanSymbol_eq_points (cs : List Char) : scanSymbol '.' cs = points cs := by
  have h : writtenIn '.' [['.'], ['.', '.', '.']] = true := rfl
  unfold points
  split_ifs with hmore
  · obtain ⟨ds, rfl⟩ := List.head?_eq_some_iff.mp hmore.1
    obtain ⟨es, rfl⟩ := List.head?_eq_some_iff.mp hmore.2
    refine scanSymbol_of_writtenIn (e := (['.', '.', '.'], .punctuation .ellipsis)) h (by decide)
      ⟨es, rfl⟩ ?_
    rw [List.forall_mem_cons, List.forall_mem_singleton]
    exact ⟨fun _ => Nat.le_add_left 1 2, fun _ => Nat.le_refl _⟩
  · refine scanSymbol_of_writtenIn (e := (['.'], .punctuation .dot)) h (by decide) ⟨cs, rfl⟩ ?_
    rw [List.forall_mem_cons, List.forall_mem_singleton]
    refine ⟨fun _ => Nat.le_refl _, fun hstarts => absurd ⟨head?_of_starts hstarts, ?_⟩ hmore⟩
    obtain ⟨rest, rfl⟩ := (List.cons_prefix_cons.mp hstarts).2
    rfl

/-- Where no branch is, no symbol starts. -/
theorem longestSymbol?_of_not_mem (hc : c ∉ branches) : longestSymbol? (c :: cs) = none := by
  have hstart : symbols.all (fun d => d.1.head?.all branches.contains) = true := rfl
  cases hfound : longestSymbol? (c :: cs) with
  | none => rfl
  | some d =>
    obtain ⟨hd, hstarts⟩ := longestSymbol?_eq_some hfound
    have hin := List.all_eq_true.mp hstart d hd
    rw [head?_symbol hd hstarts] at hin
    exact absurd (List.contains_iff_mem.mp hin) hc

/-- **The branches find the longest symbol.** -/
theorem scanSymbol_eq_symbolBranch (c : Char) (cs : List Char) :
    scanSymbol c cs = symbolBranch c cs := by
  unfold symbolBranch
  split
  case h_9 =>
    exact scanSymbol_eq_angles '<' .lt .ltEq .shl .shlEq cs (by decide) (by decide) (by decide)
      (by decide) rfl (by decide)
  case h_10 =>
    exact scanSymbol_eq_angles '>' .gt .gtEq .shr .shrEq cs (by decide) (by decide) (by decide)
      (by decide) rfl (by decide)
  case h_14 => exact scanSymbol_eq_points cs
  case h_24 =>
    rw [scanSymbol, longestSymbol?_of_not_mem]
    simp_all [branches]
  -- all others are symbols by themselves, or with one more character
  all_goals
    first
    | exact scanSymbol_eq_compound _ _ _ cs (by decide) (by decide) rfl
    | exact scanSymbol_eq_bare _ _ cs (by decide) rfl

/-- Two points are not the start of three. -/
example : scanSymbol '.' ['.', 'x'] = .bare (.punctuation .dot) 0 := by decide

end SableFront.Lexeme
