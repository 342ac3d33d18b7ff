import SableFront.Proofs.Comments.Splitting
import SableFront.Proofs.Contract

/-!
# Comments: calm and tame texts

An attempt at generic arguments starts at a `<` and reads no statement but those in the body of a
lambda. What lies ahead is *calm* if no lambda starts before the next semicolon, and *tame* if it is
calm behind every `<`. Only the words of a text matter for this, that is, the kinds of its
significant tokens; and both properties hold on while reading, also where tokens of several `>` are
split.
-/

namespace SableFront

open Lexeme

/-- No lambda starts before the next semicolon. -/
def calm : List Kind → Bool
  | .keyword .functionKw :: .punctuation .lParen :: _ => false
  | .punctuation .semicolon :: _ => true
  | _ :: ks => calm ks
  | [] => true

/-- Behind no `<` does a lambda start before the next semicolon. -/
def tame : List Kind → Bool
  | .operator .lt :: ks => calm ks && tame ks
  | _ :: ks => tame ks
  | [] => true

/-- The kinds of the significant tokens. -/
def words (ts : List Token) : List Kind := (ts.filter fun t => !t.kind.isTrivia).map Token.kind

/-- The comments among some tokens. -/
def commentsIn (ts : List Token) : List Token := ts.filter (·.kind.isComment)

variable {k : Kind} {ks js js' : List Kind}

/-! ### Words -/

theorem calm_tail (h : calm (k :: ks)) (hk : k ≠ .punctuation .semicolon) : calm ks := by
  unfold calm at h
  split at h
  · cases h
  · rename_i heq
    cases heq
    exact absurd rfl hk
  · rename_i heq
    cases heq
    exact h
  · rename_i heq
    cases heq

theorem tame_tail (h : tame (k :: ks)) : tame ks := by
  unfold tame at h
  split at h
  · rename_i heq
    cases heq
    exact (Bool.and_eq_true_iff.mp h).2
  · rename_i heq
    cases heq
    exact h
  · rename_i heq
    cases heq

theorem calm_of_tame (h : tame (.operator .lt :: ks)) : calm ks := (Bool.and_eq_true_iff.mp h).1

/-- A `function` in a calm text is no lambda. -/
theorem ne_lParen_of_calm (h : calm (.keyword .functionKw :: k :: ks)) :
    k ≠ .punctuation .lParen := by
  rintro rfl
  cases h

theorem calm_run (hk : isRunKind k) (ks : List Kind) : calm (k :: ks) = calm ks := by
  cases k with
  | operator o => rfl
  | _ => cases hk

theorem tame_run (hk : isRunKind k) (ks : List Kind) : tame (k :: ks) = tame ks := by
  cases k with
  | operator o => cases o <;> first | rfl | cases hk
  | _ => cases hk

/-- What passes over each character of a run passes over the run. -/
theorem behind_run {f : List Kind → Bool}
    (hf : ∀ {k : Kind}, isRunKind k → ∀ ks, f (k :: ks) = f ks) (h : ∀ k ∈ js, isRunKind k) :
    f (js ++ ks) = f ks := by
  induction js with
  | nil => rfl
  | cons k js ih =>
    obtain ⟨hk, hjs⟩ := List.forall_mem_cons.mp h
    rw [List.cons_append, hf hk, ih hjs]

/-! ### Tokens -/

variable {ts us : List Token}

theorem words_append : words (ts ++ us) = words ts ++ words us := by
  unfold words
  rw [List.filter_append, List.map_append]

theorem commentsIn_append : commentsIn (ts ++ us) = commentsIn ts ++ commentsIn us :=
  List.filter_append _ _

theorem words_of_trivia (h : ∀ t ∈ ts, t.kind.isTrivia) : words ts = [] := by
  unfold words
  rw [List.filter_eq_nil_iff.mpr fun t ht => by rw [h t ht]; exact Bool.false_ne_true]
  rfl

theorem isRunKind_of_mem_words (h : ∀ t ∈ ts, isRunKind t.kind) (hk : k ∈ words ts) :
    isRunKind k := by
  obtain ⟨t, ht, rfl⟩ := List.mem_map.mp hk
  exact h t (List.mem_filter.mp ht).1

theorem commentsIn_of_run (h : ∀ t ∈ ts, isRunKind t.kind) : commentsIn ts = [] := by
  refine List.filter_eq_nil_iff.mpr fun t ht hcomment => ?_
  have hrun := h t ht
  cases hkind : t.kind
  all_goals
    rw [hkind] at hrun hcomment
    first | cases hrun | cases hcomment

namespace Cursor

theorem words_significant (c : Cursor) :
    words c.tokens = c.significant.token.kind ::
      words (Lexer.ahead ⟨c.significant.cursor, c.significant.token⟩) := by
  obtain ⟨passed, htrivia, -, htoken, htokens⟩ := c.tokens_significant
  rw [htokens, words_append, words_of_trivia htrivia, List.nil_append, words, List.filter_cons,
    htoken]
  rfl

theorem commentsIn_significant (c : Cursor) :
    commentsIn c.tokens = c.significant.comments ++
      commentsIn (Lexer.ahead ⟨c.significant.cursor, c.significant.token⟩) := by
  obtain ⟨passed, -, hcomments, htoken, htokens⟩ := c.tokens_significant
  have hnone : c.significant.token.kind.isComment = false := by
    cases hkind : c.significant.token.kind
    all_goals
      rw [hkind] at htoken
      first | rfl | cases htoken
  rw [htokens, commentsIn_append, hcomments, commentsIn, commentsIn, List.filter_cons, hnone]
  rfl

end Cursor

/-! ### States -/

namespace Grammar

/-- A property of the words ahead that holds on within an expression. -/
structure Persistent (P : List Kind → Prop) : Prop where
  tail {k : Kind} {ks : List Kind} : P (k :: ks) → k ≠ .punctuation .semicolon → P ks
  run {js js' ks : List Kind} : (∀ k ∈ js, isRunKind k) → (∀ k ∈ js', isRunKind k) → P (js ++ ks) →
    P (js' ++ ks)

/-- A check of the words holds on if it does in each tail, and passes over what a split rereads. -/
theorem Persistent.of_check {f : List Kind → Bool}
    (htail : ∀ {k : Kind} {ks : List Kind}, f (k :: ks) → k ≠ .punctuation .semicolon → f ks)
    (hf : ∀ {k : Kind}, isRunKind k → ∀ ks, f (k :: ks) = f ks) : Persistent fun ks => f ks where
  tail := htail
  run hjs hjs' h := by
    rw [behind_run hf hjs] at h
    rwa [behind_run hf hjs']

theorem persistent_calm : Persistent fun ks => calm ks := .of_check calm_tail calm_run

theorem persistent_tame : Persistent fun ks => tame ks :=
  .of_check (fun h _ => tame_tail h) tame_run

/-- Two properties that hold on do so together. -/
theorem Persistent.and {P Q : List Kind → Prop} (hP : Persistent P) (hQ : Persistent Q) :
    Persistent fun ks => P ks ∧ Q ks where
  tail h hk := ⟨hP.tail h.1 hk, hQ.tail h.2 hk⟩
  run hjs hjs' h := ⟨hP.run hjs hjs' h.1, hQ.run hjs hjs' h.2⟩

variable {P : List Kind → Prop} {s : State}

/-- The words from the current one on. -/
def State.words (s : State) : List Kind := s.current.kind :: SableFront.words s.lexer.ahead

/-- The comments that lie ahead. -/
def State.remaining (s : State) : List Token := commentsIn s.lexer.ahead

theorem words_advance (hs : s.current.isEof = false) :
    s.words = s.current.kind :: s.advance.words := by
  have heof : ¬ s.current.isEof := Bool.eq_false_iff.mp hs
  have hahead : s.lexer.ahead = s.lexer.cursor.tokens := if_neg heof
  rw [State.advance, if_neg heof, State.words, hahead, Cursor.words_significant]
  rfl

theorem words_advance_of_isAt {k : Kind} (hs : s.isAt k) (hk : k ≠ .eof) :
    s.words = k :: s.advance.words := by
  have hkind : s.current.kind = k := beq_iff_eq.mp hs
  rw [← hkind] at hk ⊢
  exact words_advance (beq_eq_false_iff_ne.mpr hk)

/-- What holds of the words ahead holds on behind the current one, if it does in the tail. -/
theorem words_advance_of_tail (htail : ∀ {ks : List Kind}, P (s.current.kind :: ks) → P ks)
    (h : P s.words) : P s.advance.words := by
  cases heof : s.current.isEof with
  | true => rwa [State.advance, if_pos heof]
  | false =>
    rw [words_advance heof] at h
    exact htail h

theorem Persistent.advance (hP : Persistent P) (h : P s.words)
    (hs : s.current.kind ≠ .punctuation .semicolon) : P s.advance.words :=
  words_advance_of_tail (fun h => hP.tail h hs) h

/-- The comments ahead that are passed over wait. -/
theorem comments_advance (s : State) :
    s.advance.comments ++ s.advance.remaining = s.comments ++ s.remaining := by
  by_cases heof : s.current.isEof
  · rw [State.advance, if_pos heof]
  · have hahead : s.lexer.ahead = s.lexer.cursor.tokens := if_neg heof
    rw [State.advance, if_neg heof, State.remaining, State.remaining, hahead,
      Cursor.commentsIn_significant, ← List.append_assoc]
    rfl

theorem isRunKind_of_isClosingAngle {k : Kind} (h : isClosingAngle k) : isRunKind k := by
  unfold isClosingAngle at h
  split at h
  all_goals first | rfl | cases h

/-- **A split leaves the comments ahead, and what holds on of the words.** -/
theorem ahead_splitAngle (hplaced : s.lexer.Placed) (hs : isClosingAngle s.current.kind) :
    let t := { s with lexer := s.lexer.splitAngle?.getD s.lexer }
    t.lexer.Placed ∧ t.remaining = s.remaining ∧ (Persistent P → P s.words → P t.words) := by
  intro t
  cases hsplit : s.lexer.splitAngle? with
  | none =>
    have hlexer : t.lexer = s.lexer := by
      change s.lexer.splitAngle?.getD s.lexer = s.lexer
      rw [hsplit]
      rfl
    have hsame : t = s := by
      change { s with lexer := t.lexer } = s
      rw [hlexer]
    rw [hsame]
    exact ⟨hplaced, rfl, fun _ h => h⟩
  | some l =>
    have hlexer : t.lexer = l := by
      change s.lexer.splitAngle?.getD s.lexer = l
      rw [hsplit]
      rfl
    have htoken : l.token.kind = .operator .gt := by
      unfold Lexer.splitAngle? at hsplit
      obtain ⟨tail, -, rfl⟩ := Option.map_eq_some_iff.mp hsplit
      rfl
    obtain ⟨angles, angles', common, hangles, hangles', hahead, hahead'⟩ :=
      hplaced.ahead_split hsplit
    refine ⟨?_, ?_, fun hP h => ?_⟩
    · rw [hlexer]
      refine Lexer.placed_of_afterAngle? ?_
      rw [htoken]
      rfl
    · rw [State.remaining, State.remaining, hlexer, hahead, hahead', commentsIn_append,
        commentsIn_append, commentsIn_of_run hangles, commentsIn_of_run hangles']
    · rw [State.words, hahead, words_append, ← List.cons_append] at h
      rw [State.words, State.current, hlexer, hahead', words_append, ← List.cons_append]
      refine hP.run (List.forall_mem_cons.mpr ⟨isRunKind_of_isClosingAngle hs, fun k hk => ?_⟩)
        (List.forall_mem_cons.mpr ⟨htoken ▸ rfl, fun k hk => ?_⟩) h
      · exact isRunKind_of_mem_words hangles hk
      · exact isRunKind_of_mem_words hangles' hk

end Grammar

end SableFront
