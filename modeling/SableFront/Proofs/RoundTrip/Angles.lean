import SableFront.Proofs.Comments.Splitting
import SableFront.Proofs.Spaced.State

/-!
# Round trip: closing angles

What lies ahead of a state is told here as a text and not as tokens. A run of `>` is cut into tokens
of two or three, and a list in angles is closed by one `>` of such a token, the rest of which is read
again. So what the next token is depends on what has been closed before; what text lies ahead does
not: closing an angle takes a `>` off the text, however the text is cut (`leads_closeAngle`).
-/

namespace SableFront

open Lexeme

variable {c : Char} {cs rest : List Char}

/-! ### Comments and blanks -/

/-- Only a slash starts a comment. -/
theorem Lexeme.isComment_scan (hc : c ≠ '/') (cs : List Char) :
    (scan c cs).kind.isComment = false := by
  have h (l : Lexeme) (hl : CanStand c cs l) : l.kind.isComment = false := by
    cases hl with
    | blanks | newline | openComment => rfl
    | lineComment heq | blockComment heq => exact absurd heq hc
    | literal hl => exact hl.isComment
    | word => exact (isWord_ofWord _).isComment
    | symbol hl => exact hl.isComment
  exact h _ (canStand_scan c cs)

namespace Cursor

variable {cur : Cursor}

theorem rest_skip (cur : Cursor) (n : Nat) : (cur.skip n).rest = cur.rest.drop n := rfl

/-- In a text without slashes there are no comments. -/
theorem comments_significant (h : '/' ∉ cur.rest) : cur.significant.comments = [] := by
  -- on the trivia before the token
  induction cur using significant.induct with
  | case1 cur hcur ih =>
    obtain ⟨d, ds, hrest⟩ := List.exists_cons_of_ne_nil hcur.1
    have hnext := next_eq_place hrest rfl
    have hd : d ≠ '/' := fun hd => h (hrest ▸ hd ▸ List.mem_cons_self)
    have hcomment : cur.next.1.kind.isComment = false := by
      rw [hnext]
      exact isComment_scan hd ds
    have hmore : cur.next.2.significant.comments = [] := by
      refine ih fun hmem => h ?_
      rw [hnext] at hmem
      exact List.mem_of_mem_drop hmem
    rw [significant, dif_pos hcur]
    dsimp only
    rw [hcomment, if_neg Bool.false_ne_true, hmore]
  | case2 cur hcur => rw [significant, dif_neg hcur]

/-- A run of blanks is passed over at once. -/
theorem significant_blanks (hc : isBlank c) (hrest : cur.rest = c :: cs) :
    let behind := cur.skip ((cs.takeWhile isBlank).length + 1)
    cur.significant.token = behind.significant.token ∧
      cur.significant.cursor = behind.significant.cursor := by
  have hscan : scan c cs = .bare .whitespace (cs.takeWhile isBlank).length := if_pos hc
  have hnext := next_eq_place hrest hscan
  have htrivia : cur.rest ≠ [] ∧ cur.next.1.kind.isTrivia :=
    ⟨hrest ▸ List.cons_ne_nil c cs, by rw [hnext]; rfl⟩
  rw [significant, dif_pos htrivia, hnext]
  exact ⟨rfl, rfl⟩

theorem significant_blank_cons (hrest : cur.rest = ' ' :: cs) :
    cur.significant.token = (cur.skip 1).significant.token ∧
      cur.significant.cursor = (cur.skip 1).significant.cursor := by
  have hall := significant_blanks rfl hrest
  have hbehind : (cur.skip 1).rest = cs := by rw [rest_skip, hrest, List.drop_one, List.tail_cons]
  cases cs with
  | nil => exact hall
  | cons d ds =>
    by_cases hd : isBlank d
    · have hmore := significant_blanks hd hbehind
      rw [List.takeWhile_cons_of_pos hd, List.length_cons] at hall
      rw [skip_skip, Nat.add_comm 1] at hmore
      exact ⟨hall.1.trans hmore.1.symm, hall.2.trans hmore.2.symm⟩
    · rw [List.takeWhile_cons_of_neg hd] at hall
      exact hall

end Cursor

namespace Grammar

variable {α β : Type} {P : SymbolTable → Prop} {s : State} {w : Word} {k : Kind}

/-! ### The text ahead -/

/-- The text lies ahead, from the current token on, and it has no comments. So far no error was
found and no comment either, and no name waits in the lookaside. `P` is what is known of the
symbols. -/
structure Faces (P : SymbolTable → Prop) (cs : List Char) (s : State) : Prop where
  text : ∃ cur : Cursor, cur.rest = cs ∧ cur.significant.token = s.current ∧
    cur.significant.cursor = s.lexer.cursor
  noComment : '/' ∉ cs
  errors : s.errors = []
  comments : s.comments = []
  lookaside : s.lookaside = none
  symbols : P s.symbols

namespace Faces

theorem withSymbols (h : Faces P cs s) (t : SymbolTable) :
    Faces (fun _ => True) cs { s with symbols := t } :=
  ⟨h.text, h.noComment, h.errors, h.comments, h.lookaside, trivial⟩

/-- A blank is passed over. -/
theorem pastBlank (h : Faces P (' ' :: cs) s) : Faces P cs s := by
  obtain ⟨cur, hrest, htoken, hcursor⟩ := h.text
  obtain ⟨htoken', hcursor'⟩ := Cursor.significant_blank_cons hrest
  have hskip : (cur.skip 1).rest = cs := by
    rw [Cursor.rest_skip, hrest, List.drop_one, List.tail_cons]
  exact ⟨⟨cur.skip 1, hskip, htoken'.symm.trans htoken, hcursor'.symm.trans hcursor⟩,
    fun hmem => h.noComment (List.mem_cons_of_mem _ hmem), h.errors, h.comments, h.lookaside,
    h.symbols⟩

theorem pastBlanks {n : Nat} (h : Faces P (List.replicate n ' ' ++ cs) s) : Faces P cs s := by
  induction n with
  | zero => exact h
  | succ n ih => exact ih h.pastBlank

/-- Behind the token of a lexer the text goes on. -/
theorem goOn (h : Faces P cs s) {l : Lexer} (hkind : l.token.kind ≠ .eof)
    (hl : l.cursor.rest = rest) (hrest : '/' ∉ rest) :
    Faces P rest { s with lexer := l }.advance := by
  have hadvance : { s with lexer := l }.advance = { s with lexer := l }.bump :=
    if_neg (fun heof => hkind (beq_iff_eq.mp heof))
  rw [hadvance]
  refine ⟨⟨l.cursor, hl, rfl, rfl⟩, hrest, h.errors, ?_, h.lookaside, h.symbols⟩
  show s.comments ++ l.cursor.significant.comments = []
  rw [h.comments, Cursor.comments_significant (hl ▸ hrest), List.append_nil]

theorem isAt_eof (h : Faces P [] s) : s.isAt .eof := by
  obtain ⟨cur, hrest, htoken, -⟩ := h.text
  rw [State.isAt, ← htoken, (Cursor.finds_nil hrest).kind]
  rfl

/-- A word that comes next is the current token. -/
theorem word (h : Faces P (w.text.toList ++ rest) s) (hw : w.IsReadBefore rest) :
    s.current.kind = w.kind ∧ s.current.value = w.value ∧ s.lexer.cursor.rest = rest := by
  obtain ⟨cur, hrest, htoken, hcursor⟩ := h.text
  obtain ⟨hkind, hvalue, hbehind⟩ := Cursor.next_word hw hrest
  have hnext := Cursor.significant_eq_next (.inr (hkind ▸ hw.significant) :
    cur.rest = [] ∨ cur.next.1.kind.isTrivia = false)
  rw [hnext] at htoken hcursor
  rw [← htoken, ← hcursor]
  exact ⟨hkind, hvalue, hbehind⟩

theorem isAt (h : Faces P (w.text.toList ++ rest) s) (hw : w.IsReadBefore rest) (k : Kind) :
    s.isAt k = (w.kind == k) := by
  rw [State.isAt, (h.word hw).1]

theorem advance (h : Faces P (w.text.toList ++ rest) s) (hw : w.IsReadBefore rest) :
    Faces P rest s.advance := by
  obtain ⟨hkind, -, hcursor⟩ := h.word hw
  have heof : s.lexer.token.kind ≠ .eof := fun heof => hw.not_eof (hkind.symm.trans heof)
  exact h.goOn heof hcursor fun hmem => h.noComment (List.mem_append_right _ hmem)

end Faces

/-- A text without slashes lies ahead of its start. -/
theorem faces_start {source : String} (h : '/' ∉ source.toList) (hP : P .initial)
    (config : ParseConfig) : Faces P source.toList (State.start source config) := by
  have hsymbols : (State.start source config).symbols = .initial := by
    simp only [State.start, State.bump, State.unread]
  exact ⟨⟨.start source.toList, rfl, rfl, rfl⟩, h, rfl, Cursor.comments_significant h, rfl,
    hsymbols ▸ hP⟩

/-! ### Steps -/

theorem leads_current :
    Leads (Faces P cs) current (Faces P cs) fun t => ∃ s, Faces P cs s ∧ t = s.current :=
  fun s hs => .result s.current s rfl rfl ⟨⟨s, hs, rfl⟩, hs⟩

theorem leads_isAt {b : Bool} (h : ∀ s, Faces P cs s → s.isAt k = b) :
    Leads (Faces P cs) (isAt k) (Faces P cs) (· = b) :=
  fun s hs => .result (s.isAt k) s rfl rfl ⟨h s hs, hs⟩

theorem leads_advance (hw : w.IsReadBefore rest) :
    Leads (Faces P (w.text.toList ++ rest)) advance (Faces P rest) (IsToken w) := by
  intro s hs
  obtain ⟨hkind, hvalue, -⟩ := hs.word hw
  exact .result s.current s.advance rfl rfl ⟨⟨hkind, hvalue⟩, hs.advance hw⟩

theorem leads_eat (hw : w.IsReadBefore rest) (hk : w.kind = k) :
    Leads (Faces P (w.text.toList ++ rest)) (eat k) (Faces P rest) fun r => ∃ t, r = some t := by
  intro s hs
  have heat := outcome_eat s k
  rw [hs.isAt hw, beq_iff_eq.mpr hk, if_pos rfl] at heat
  exact .result _ _ heat heat ⟨⟨_, rfl⟩, hs.advance hw⟩

theorem leads_eat_none (h : ∀ s, Faces P cs s → s.isAt k = false) :
    Leads (Faces P cs) (eat k) (Faces P cs) (· = none) := by
  intro s hs
  have heat := outcome_eat s k
  rw [h s hs, if_neg Bool.false_ne_true] at heat
  exact .result _ _ heat heat ⟨rfl, hs⟩

end Grammar

/-! ### Splitting -/

/-- A symbol that starts with `>` closes a list, and splitting knows what comes after its `>`. -/
theorem Lexeme.symbol_angle : ∀ e ∈ symbols, e.1.head? = some '>' →
    Grammar.isClosingAngle e.2 ∧ e.1 = '>' :: (Lexer.afterAngle? e.2).getD [] := by
  have h : symbols.all (fun e => e.1.head? != some '>' || (Grammar.isClosingAngle e.2 &&
      e.1 == '>' :: (Lexer.afterAngle? e.2).getD [])) = true := rfl
  intro e he hhead
  have hall := List.all_eq_true.mp h e he
  rwa [hhead, bne_self_eq_false, Bool.false_or, Bool.and_eq_true, beq_iff_eq] at hall

/-- Where `>` comes next, the token starts with it and closes a list. -/
theorem Lexeme.scan_angle (cs : List Char) :
    ∃ kind, scan '>' cs = .bare kind ((Lexer.afterAngle? kind).getD []).length ∧
      Grammar.isClosingAngle kind ∧ (Lexer.afterAngle? kind).getD [] <+: cs := by
  have hsome : (longestSymbol? ('>' :: cs)).isSome :=
    isSome_longestSymbol? (e := (['>'], .operator .gt)) (by decide) rfl
  obtain ⟨⟨spelling, kind⟩, hlongest⟩ := Option.isSome_iff_exists.mp hsome
  obtain ⟨hmem, hstarts⟩ := longestSymbol?_eq_some hlongest
  obtain ⟨d, ds, hcons⟩ := List.exists_cons_of_ne_nil (symbol_spelling _ hmem).1
  change spelling = d :: ds at hcons
  subst hcons
  obtain ⟨rfl, hprefix⟩ := List.cons_prefix_cons.mp hstarts
  obtain ⟨hcloses, hspelling⟩ := symbol_angle _ hmem rfl
  have htail : ds = (Lexer.afterAngle? kind).getD [] := List.tail_eq_of_cons_eq hspelling
  have hscan : scan '>' cs = scanSymbol '>' cs := rfl
  refine ⟨kind, ?_, hcloses, htail ▸ hprefix⟩
  rw [hscan, scanSymbol, hlongest, ← htail]
  rfl

theorem Grammar.isTrivia_of_isClosingAngle {k : Kind} (h : isClosingAngle k) :
    k.isTrivia = false := by
  revert h
  cases k <;> first | exact fun _ => rfl | exact fun h => absurd h Bool.false_ne_true

namespace Grammar

/-- Where `>` comes next, the token closes a list; and behind its `>` the text goes on. -/
theorem Faces.splitAngle (h : Faces P ('>' :: cs) s) :
    isClosingAngle s.current.kind ∧
      isClosingAngle (s.lexer.splitAngle?.getD s.lexer).token.kind ∧
      (s.lexer.splitAngle?.getD s.lexer).cursor.rest = cs := by
  obtain ⟨cur, hrest, htoken, hcursor⟩ := h.text
  obtain ⟨kind, hscan, hcloses, ⟨behind, hbehind⟩⟩ := scan_angle cs
  have hnext := Cursor.next_eq_place hrest hscan
  have hkind : cur.next.1.kind = kind := by rw [hnext]; rfl
  have htrivia : cur.next.1.kind.isTrivia = false := hkind ▸ isTrivia_of_isClosingAngle hcloses
  have hsignificant := Cursor.significant_eq_next (.inr htrivia)
  rw [hsignificant] at htoken hcursor
  have hcurrent : s.lexer.token.kind = kind := (congrArg Token.kind htoken).symm.trans hkind
  have hrest' : s.lexer.cursor.rest = behind := by
    rw [← hcursor, hnext]
    change cur.rest.drop (_ + 1) = _
    rw [hrest, List.drop_succ_cons, ← hbehind]
    exact List.drop_left
  refine ⟨hcurrent ▸ hcloses, ?_⟩
  unfold Lexer.splitAngle?
  rw [hcurrent]
  cases htail : Lexer.afterAngle? kind with
  | none =>
    rw [htail] at hbehind
    exact ⟨hcurrent ▸ hcloses, hrest'.trans hbehind⟩
  | some tail =>
    rw [htail] at hbehind
    refine ⟨rfl, ?_⟩
    change ('>' :: tail ++ s.lexer.cursor.rest).drop 1 = cs
    rw [hrest', List.cons_append, List.drop_one, List.tail_cons]
    exact hbehind

/-- **Closing an angle** takes a `>` off the text ahead, also where the token there is longer. -/
theorem leads_closeAngle :
    Leads (Faces P ('>' :: cs)) closeAngle (Faces P cs) fun found => found.isSome := by
  intro s hs
  obtain ⟨hcloses, hsplit, hrest⟩ := hs.splitAngle
  unfold closeAngle
  rw [meets_current, if_pos hcloses, meets_modify, meets_advance]
  have heof : (s.lexer.splitAngle?.getD s.lexer).token.kind ≠ .eof := fun heof => by
    rw [heof] at hsplit
    cases hsplit
  exact .pure ⟨rfl, hs.goOn heof hrest fun hmem => hs.noComment (List.mem_cons_of_mem _ hmem)⟩

theorem leads_closeAngle_none (hcs : ∀ s, Faces P cs s → isClosingAngle s.current.kind = false) :
    Leads (Faces P cs) closeAngle (Faces P cs) (· = none) := by
  intro s hs
  unfold closeAngle
  rw [meets_current, hcs s hs, if_neg Bool.false_ne_true]
  exact .pure ⟨rfl, hs⟩

end Grammar

end SableFront
