import Mathlib.Data.List.Chain
import SableFront.Proofs.Comments.Splitting
import SableFront.Proofs.Simulation.Contract

/-!
# Simulation: one text in two layouts

What counts of a text besides its layout are its signs: of each significant token the kind and the
value, and whether a newline lies between it and the one before. If two texts have the same signs,
and trivia between all their significant tokens, then lexers in both find the same from token to
token. That holds after a split as well: behind the token that is split there is trivia, so what
remains of the token is read again by itself, in both texts alike.
-/

namespace SableFront

/-- What counts of a significant token wherever it stands. -/
structure Sign where
  kind : Kind
  value : Value
  /-- A newline lies between the token and the significant one before it, if there is one before. -/
  newline : Option Bool
  deriving DecidableEq

/-- The signs of tokens; `newline` tells of what lies before them, behind a significant token. -/
def signsFrom (newline : Option Bool) : List Token → List Sign
  | [] => []
  | t :: ts =>
    if t.kind.isTrivia then signsFrom (newline.map (· || t.kind == .newline)) ts
    else ⟨t.kind, t.value, newline⟩ :: signsFrom (some false) ts

/-- The signs of a text, that of its end last. -/
def signs (source : String) : List Sign := signsFrom none (tokenize source)

/-- Neighbours of these kinds are trivia, at least one of them, or the second one is the end. -/
def Apart (k k' : Kind) : Prop := k.isTrivia ∨ k'.isTrivia ∨ k' = .eof

instance : DecidableRel Apart := fun _ _ => inferInstanceAs (Decidable (_ ∨ _ ∨ _))

/-- There is trivia between significant tokens. -/
def Separated (source : String) : Prop := ((tokenize source).map Token.kind).IsChain Apart

instance (source : String) : Decidable (Separated source) :=
  inferInstanceAs (Decidable (List.IsChain _ _))

/-! ### Runs that are read by themselves -/

namespace Lexeme

/-- Symbols do not reach behind the run that they start in. -/
theorem isPrefixOf_run {e : List Char × Kind} (he : e ∈ symbols) {cs rest : List Char}
    (hcs : cs.all isRunChar) (hne : cs ≠ []) (hrest : rest.head?.all (!isRunChar ·)) :
    e.1.isPrefixOf (cs ++ rest) = e.1.isPrefixOf cs := by
  rw [Bool.eq_iff_iff, List.isPrefixOf_iff_prefix, List.isPrefixOf_iff_prefix]
  refine ⟨fun hpre => ?_, fun hpre => hpre.trans (List.prefix_append cs rest)⟩
  rcases List.prefix_or_prefix_of_prefix hpre (List.prefix_append cs rest) with h | ⟨more, hmore⟩
  · exact h
  obtain ⟨c, cs', rfl⟩ := List.exists_cons_of_ne_nil hne
  have hhead : e.1.head?.any isRunChar := by
    rw [← hmore, List.cons_append, List.head?_cons]
    exact (Bool.and_eq_true_iff.mp hcs).1
  have hall := (symbol_run e he hhead).1
  rw [← hmore] at hpre hall ⊢
  cases more with
  | nil => exact ⟨[], by rw [List.append_nil, List.append_nil]⟩
  | cons d ds =>
    -- the first character of `rest` would be one of the run
    obtain ⟨tail, rfl⟩ := (List.prefix_append_right_inj _).mp hpre
    have hd : isRunChar d = false := Bool.not_eq_true' _ ▸ hrest
    have hds : (d :: ds).all isRunChar := (Bool.and_eq_true_iff.mp (List.all_append ▸ hall)).2
    rw [List.all_cons, hd] at hds
    cases hds

/-- A run is read as it is alone, whatever follows it. -/
theorem scan_run_append {c : Char} {cs rest : List Char} (hcs : (c :: cs).all isRunChar)
    (hrest : rest.head?.all (!isRunChar ·)) : scan c (cs ++ rest) = scan c cs := by
  have hscan (ds : List Char) : scan c ds = scanSymbol c ds := by
    rcases Bool.or_eq_true _ _ ▸ (Bool.and_eq_true_iff.mp hcs).1 with h | h
    all_goals
      rw [beq_iff_eq.mp h]
      rfl
  have hlongest : longestSymbol? (c :: cs ++ rest) = longestSymbol? (c :: cs) := by
    unfold longestSymbol?
    rw [List.filter_congr fun e he => isPrefixOf_run he hcs (List.cons_ne_nil c cs) hrest]
  rw [hscan, hscan, scanSymbol, ← List.cons_append, hlongest]
  rfl

end Lexeme

open Lexeme

/-! ### Tokens of the same text -/

variable {ts us : List Token}

theorem alike_bare {t t' : Token} (hkind : t.kind = t'.kind) (hvalue : t.value = t'.value) :
    View.bare.Alike t t' := by
  obtain ⟨kind, value, _, _, _, _⟩ := t
  obtain ⟨kind', value', _, _, _, _⟩ := t'
  obtain rfl : kind = kind' := hkind
  obtain rfl : value = value' := hvalue
  rfl

theorem map_kind_alike {v : View} (h : v.Alike ts us) : ts.map Token.kind = us.map Token.kind := by
  induction h with
  | nil => rfl
  | cons ht _ ih => rw [List.map_cons, List.map_cons, ih, kind_alike ht]

theorem value_bare {t t' : Token} (h : View.bare.Alike t t') : t.value = t'.value := by
  have hseen := congrArg Token.value (show View.bare.token t = View.bare.token t' from h)
  exact hseen

theorem signsFrom_alike (h : View.bare.Alike ts us) (newline : Option Bool) :
    signsFrom newline ts = signsFrom newline us := by
  induction h generalizing newline with
  | nil => rfl
  | cons ht _ ih => rw [signsFrom, signsFrom, kind_alike ht, value_bare ht, ih, ih]

namespace Cursor

variable {c d : Cursor}

/-- What is read depends on the text ahead only, and so does what lies ahead then. -/
theorem next_alike (h : c.rest = d.rest) :
    View.bare.Alike c.next.1 d.next.1 ∧ c.next.2.rest = d.next.2.rest := by
  obtain ⟨rest, offset, position⟩ := c
  obtain ⟨rest', offset', position'⟩ := d
  obtain rfl : rest = rest' := h
  cases rest with
  | nil => exact ⟨rfl, rfl⟩
  | cons d ds => exact ⟨rfl, rfl⟩

theorem tokens_alike (h : c.rest = d.rest) : View.bare.Alike c.tokens d.tokens := by
  induction c using tokens.induct generalizing d with
  | case1 c hc =>
    rw [tokens_nil hc, tokens_nil (h ▸ hc)]
    exact .cons (next_alike h).1 .nil
  | case2 c hc ih =>
    have hd : d.rest ≠ [] := h ▸ hc
    rw [tokens_cons hc, tokens_cons hd]
    exact .cons (next_alike h).1 (ih (next_alike h).2)

/-- The next significant token has the first of the signs ahead. -/
theorem signsFrom_significant (c : Cursor) (newline : Option Bool) :
    signsFrom newline c.tokens =
      ⟨c.significant.token.kind, c.significant.token.value, newline.map (· || c.significant.newline)⟩ ::
        signsFrom (some false) c.significant.lexer.ahead := by
  -- on the trivia before the token
  induction c using significant.induct generalizing newline with
  | case1 c hc ih =>
    have hstep : c.significant = { c.next.2.significant with
        newline := c.next.1.kind == .newline || c.next.2.significant.newline
        comments := if c.next.1.kind.isComment then c.next.1 :: c.next.2.significant.comments
          else c.next.2.significant.comments } := by
      rw [significant, dif_pos hc]
    have hnewline (b b' : Bool) (o : Option Bool) :
        (o.map (· || b)).map (· || b') = o.map (· || (b || b')) := by
      cases o with
      | none => rfl
      | some a => rw [Option.map_some, Option.map_some, Option.map_some, Bool.or_assoc]
    rw [tokens_cons hc.1, signsFrom, if_pos hc.2, ih, hstep, hnewline]
    rfl
  | case2 c hc =>
    have hstop : c.significant = ⟨c.next.1, c.next.2, false, []⟩ := by
      rw [significant, dif_neg hc]
    have hnewline : newline.map (· || false) = newline := by cases newline <;> simp
    rw [c.tokens_next, signsFrom, isTrivia_next hc, hstop, hnewline]
    rfl

/-- Where trivia or the end comes next, no run goes on. -/
theorem head_of_loose (h : c.next.1.kind.isTrivia ∨ c.next.1.kind = .eof) :
    c.rest.head?.all (!isRunChar ·) := by
  cases hrest : c.rest with
  | nil => rfl
  | cons d ds =>
    rw [List.head?_cons, Option.all_some, Bool.not_eq_true']
    refine Bool.eq_false_iff.mpr fun hd => ?_
    obtain ⟨spelling, kind, hscan, -, -, -, hkind⟩ := scan_run hd ds
    have hnext : c.next.1.kind = kind := by
      rw [next, hrest]
      exact congrArg Lexeme.kind hscan
    rw [hnext] at h
    cases kind
    case operator o => rcases h with h | h <;> cases h
    all_goals cases hkind

/-- What is left of a run is read alone if the run does not go on behind it. -/
theorem next_run {r : Char} (rs : List Char) {kind : Kind} (hrun : (r :: rs).all isRunChar)
    (hscan : scan r rs = .bare kind rs.length) (h : d.rest = r :: (rs ++ c.rest))
    (hc : c.rest.head?.all (!isRunChar ·)) :
    d.next.1.kind = kind ∧ d.next.1.value = .none ∧ d.next.2.rest = c.rest := by
  have hnext : d.next = (d.place kind .none (rs.length + 1), d.skip (rs.length + 1)) := by
    rw [next, h]
    dsimp only
    rw [scan_run_append hrun hc, hscan]
    rfl
  rw [hnext]
  refine ⟨rfl, rfl, ?_⟩
  show d.rest.drop (rs.length + 1) = c.rest
  rw [h, List.drop_succ_cons, List.drop_left]

/-- At the end of the text nothing lies ahead. -/
theorem rest_of_isEof (h : c.significant.token.isEof) : c.significant.cursor.rest = [] := by
  obtain ⟨d, htoken, hcursor⟩ := c.exists_significant
  rw [htoken] at h
  have hrest := d.kind_next_eq_eof.mp (beq_iff_eq.mp h)
  rw [hcursor, next_nil hrest, hrest]

end Cursor

/-! ### Lexers at the same sign -/

/-- Behind a kind that can be split there is trivia or the end. -/
def Loose (k k' : Kind) : Prop := Lexer.afterAngle? k = none ∨ k'.isTrivia ∨ k' = .eof

theorem Apart.loose {k k' : Kind} (h : Apart k k') : Loose k k' := by
  rcases h with h | h
  · left
    cases k
    case operator => cases h
    all_goals rfl
  · exact .inr h

namespace Lexer

/-- The token, and what lies ahead, can be split without touching what is behind. -/
def IsLoose (l : Lexer) : Prop := ((l.token :: l.cursor.tokens).map Token.kind).IsChain Loose

/-- The same signs lie ahead of two lexers at tokens that say the same. -/
structure SameSigns (l l' : Lexer) : Prop where
  token : View.bare.Alike l.token l'.token
  signs : signsFrom (some false) l.cursor.tokens = signsFrom (some false) l'.cursor.tokens
  loose : l.IsLoose
  loose' : l'.IsLoose

variable {l l' : Lexer}

/-- Behind a token that ends the text the end is found again. -/
theorem cursor_of_isEof {c : Cursor} (h : c.significant.token.isEof) :
    ∃ t : Token, c.significant.cursor.tokens = [t] ∧ t.kind = .eof ∧ t.value = .none := by
  have hrest := Cursor.rest_of_isEof h
  exact ⟨_, Cursor.tokens_nil hrest, by rw [Cursor.next_nil hrest]; exact ⟨rfl, rfl⟩⟩

theorem isLoose_significant {c : Cursor} (h : (c.tokens.map Token.kind).IsChain Loose) :
    c.significant.lexer.IsLoose := by
  obtain ⟨passed, -, -, -, htokens⟩ := c.tokens_significant
  rw [htokens, List.map_append] at h
  have hahead := h.right_of_append
  cases heof : c.significant.token.isEof
  case false =>
    rw [ahead, if_neg (Bool.eq_false_iff.mp heof)] at hahead
    exact hahead
  case true =>
    obtain ⟨t, htokens, hkind, -⟩ := cursor_of_isEof heof
    show ((c.significant.token :: c.significant.cursor.tokens).map Token.kind).IsChain Loose
    rw [htokens]
    exact .cons_cons (.inr (.inr hkind)) (.singleton _)

/-- **From the same signs ahead the same comes next.** -/
theorem sameSigns_significant {c c' : Cursor} {newline newline' : Option Bool}
    (h : signsFrom newline c.tokens = signsFrom newline' c'.tokens)
    (hc : (c.tokens.map Token.kind).IsChain Loose) (hc' : (c'.tokens.map Token.kind).IsChain Loose) :
    c.significant.lexer.SameSigns c'.significant.lexer ∧
      newline.map (· || c.significant.newline) = newline'.map (· || c'.significant.newline) := by
  rw [c.signsFrom_significant, c'.signsFrom_significant, List.cons.injEq, Sign.mk.injEq] at h
  obtain ⟨⟨hkind, hvalue, hnewline⟩, hahead⟩ := h
  refine ⟨⟨alike_bare hkind hvalue, ?_, isLoose_significant hc, isLoose_significant hc'⟩, hnewline⟩
  have hsame : c.significant.token.isEof = c'.significant.token.isEof := by
    rw [Token.isEof, Token.isEof, hkind]
  show signsFrom _ c.significant.cursor.tokens = signsFrom _ c'.significant.cursor.tokens
  cases heof : c.significant.token.isEof
  case false =>
    have hcursor {c : Cursor} (h : c.significant.token.isEof = false) :
        c.significant.lexer.ahead = c.significant.cursor.tokens :=
      if_neg (Bool.eq_false_iff.mp h)
    rw [← hcursor heof, ← hcursor (hsame ▸ heof)]
    exact hahead
  case true =>
    obtain ⟨t, htokens, ht, hvalue⟩ := cursor_of_isEof heof
    obtain ⟨t', htokens', ht', hvalue'⟩ := cursor_of_isEof (hsame ▸ heof)
    rw [htokens, htokens']
    exact signsFrom_alike
      (.cons (alike_bare (ht.trans ht'.symm) (hvalue.trans hvalue'.symm)) .nil) _

/-- What is left of a token behind its first `>` is a token of its own. -/
theorem next_afterAngle? {k : Kind} {tail : List Char} (h : afterAngle? k = some tail) :
    ∃ kind : Kind, kind.isTrivia = false ∧ kind ≠ .eof ∧ ∀ c d : Cursor, d.rest = tail ++ c.rest →
      c.rest.head?.all (!isRunChar ·) →
      d.next.1.kind = kind ∧ d.next.1.value = .none ∧ d.next.2.rest = c.rest := by
  unfold afterAngle? at h
  split at h
  all_goals cases h
  · exact ⟨.operator .gt, rfl, nofun, fun _ _ => Cursor.next_run [] rfl rfl⟩
  · exact ⟨.operator .gtEq, rfl, nofun, fun _ _ => Cursor.next_run ['='] rfl rfl⟩
  · exact ⟨.operator .eq, rfl, nofun, fun _ _ => Cursor.next_run [] rfl rfl⟩

/-- A split puts one more sign ahead, which only depends on the kind of the token. -/
theorem exists_split {k : Kind} {tail : List Char} (h : afterAngle? k = some tail) :
    ∃ kind : Kind, ∀ l : Lexer, l.token.kind = k → l.IsLoose →
      ∃ m : Lexer, l.splitAngle? = some m ∧ m.token.kind = .operator .gt ∧ m.token.value = .none ∧
        m.IsLoose ∧ signsFrom (some false) m.cursor.tokens =
          ⟨kind, .none, some false⟩ :: signsFrom (some false) l.cursor.tokens := by
  obtain ⟨kind, htrivia, heof, hnext⟩ := next_afterAngle? h
  refine ⟨kind, fun l hl hloose => ?_⟩
  let start : Cursor := ⟨'>' :: tail ++ l.cursor.rest, l.token.offset, l.token.span.start⟩
  have hsplit : l.splitAngle? = some ⟨start.skip 1, start.place (.operator .gt) .none 1⟩ := by
    rw [splitAngle?, hl, h]
    rfl
  have hchain : (l.token.kind :: l.cursor.next.1.kind ::
      (ahead ⟨l.cursor.next.2, l.cursor.next.1⟩).map Token.kind).IsChain Loose := by
    rw [IsLoose, Cursor.tokens_next] at hloose
    exact hloose
  have hbehind : l.cursor.next.1.kind.isTrivia ∨ l.cursor.next.1.kind = .eof := by
    have hangle : afterAngle? l.token.kind ≠ none := by
      rw [hl, h]
      exact Option.some_ne_none tail
    exact (List.isChain_cons_cons.mp hchain).1.resolve_left hangle
  obtain ⟨hkind, hvalue, hrest⟩ :=
    hnext l.cursor (start.skip 1) rfl (Cursor.head_of_loose hbehind)
  have hne : (start.skip 1).rest ≠ [] := fun hnil =>
    heof (hkind ▸ ((start.skip 1).kind_next_eq_eof.mpr hnil))
  have halike := Cursor.tokens_alike hrest
  refine ⟨_, hsplit, rfl, rfl, ?_, ?_⟩
  · show ((_ :: (start.skip 1).tokens).map Token.kind).IsChain Loose
    rw [Cursor.tokens_cons hne, List.map_cons, List.map_cons, map_kind_alike halike, hkind,
      Cursor.tokens_next]
    exact .cons_cons (.inl rfl) (.cons_cons (.inr hbehind) (List.isChain_cons_cons.mp hchain).2)
  · show signsFrom _ (start.skip 1).tokens = _
    rw [Cursor.tokens_cons hne, signsFrom, hkind, htrivia, if_neg Bool.false_ne_true, hvalue,
      signsFrom_alike halike]

/-- **After a split the same signs lie ahead.** -/
theorem SameSigns.split (h : SameSigns l l') :
    SameSigns (l.splitAngle?.getD l) (l'.splitAngle?.getD l') := by
  have hkind : l.token.kind = l'.token.kind := kind_alike h.token
  cases hangle : afterAngle? l.token.kind with
  | none =>
    have hnone {l : Lexer} (h : afterAngle? l.token.kind = none) : l.splitAngle? = none := by
      rw [splitAngle?, h]
      rfl
    rw [hnone hangle, hnone (hkind ▸ hangle)]
    exact h
  | some tail =>
    obtain ⟨kind, hsplit⟩ := exists_split hangle
    obtain ⟨m, hm, htoken, hvalue, hloose, hsigns⟩ := hsplit l rfl h.loose
    obtain ⟨m', hm', htoken', hvalue', hloose', hsigns'⟩ := hsplit l' hkind.symm h.loose'
    rw [hm, hm']
    exact ⟨alike_bare (htoken.trans htoken'.symm) (hvalue.trans hvalue'.symm),
      by rw [Option.getD_some, Option.getD_some, hsigns, hsigns', h.signs], hloose, hloose'⟩

end Lexer

end SableFront
