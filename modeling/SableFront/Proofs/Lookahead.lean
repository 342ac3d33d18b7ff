import SableFront.Proofs.Progress.Token

/-!
# The tokens ahead of a lexer

Reading the next significant token passes over trivia. What is passed over, the token that is found
and what then lies ahead are together what lay ahead before (`tokens_significant`): so a fact about
the tokens of a text is one about reading it.
-/

namespace SableFront

/-- The tokens that follow the token of a lexer. -/
def Lexer.ahead (l : Lexer) : List Token := if l.token.isEof then [] else l.cursor.tokens

namespace Cursor

theorem next_nil {c : Cursor} (h : c.rest = []) : c.next = (.eof c.position c.offset, c) := by
  unfold next
  split
  · rfl
  · rename_i d ds hrest
    rw [h] at hrest
    cases hrest

theorem next_eq_place {c : Cursor} {d : Char} {ds : List Char} (hrest : c.rest = d :: ds)
    {found : Lexeme} (hfound : Lexeme.scan d ds = found) :
    c.next = (c.place found.kind found.value (found.more + 1), c.skip (found.more + 1)) := by
  rw [next, hrest, ← hfound]

theorem tokens_nil {c : Cursor} (h : c.rest = []) : c.tokens = [c.next.1] := by
  rw [tokens, dif_pos h, next_nil h]

theorem tokens_cons {c : Cursor} (h : c.rest ≠ []) : c.tokens = c.next.1 :: c.next.2.tokens := by
  rw [tokens, dif_neg h]

/-- The end-of-file token is only found at the end of the text. -/
theorem kind_next_eq_eof (c : Cursor) : c.next.1.kind = .eof ↔ c.rest = [] := by
  by_cases hrest : c.rest = []
  · rw [next_nil hrest]
    exact ⟨fun _ => hrest, fun _ => rfl⟩
  · obtain ⟨d, ds, hcons⟩ := List.exists_cons_of_ne_nil hrest
    have hscan : c.next.1.kind = (Lexeme.scan d ds).kind := by
      rw [next, hcons]
      rfl
    have hkind : c.next.1.kind ≠ .eof := hscan ▸ (Lexeme.solid_scan d ds).1
    exact ⟨fun h => absurd h hkind, fun h => absurd h hrest⟩

/-- The next token, trivia or not, and what lies ahead of it. -/
theorem tokens_next (c : Cursor) : c.tokens = c.next.1 :: Lexer.ahead ⟨c.next.2, c.next.1⟩ := by
  by_cases hrest : c.rest = []
  · have heof : c.next.1.isEof := beq_iff_eq.mpr (c.kind_next_eq_eof.mpr hrest)
    rw [tokens_nil hrest, Lexer.ahead, if_pos heof]
  · have heof : ¬ c.next.1.isEof := fun h => hrest (c.kind_next_eq_eof.mp (beq_iff_eq.mp h))
    rw [tokens_cons hrest, Lexer.ahead, if_neg heof]

/-- Where no trivia come next, a significant token does. -/
theorem isTrivia_next {c : Cursor} (h : ¬ (c.rest ≠ [] ∧ c.next.1.kind.isTrivia)) :
    c.next.1.kind.isTrivia = false := by
  by_cases hrest : c.rest = []
  · rw [next_nil hrest]
    rfl
  · exact Bool.eq_false_iff.mpr fun htrivia => h ⟨hrest, htrivia⟩

/-- **The next significant token splits what lies ahead.** Before it there is only trivia, the
comments of which are kept. -/
theorem tokens_significant (c : Cursor) :
    ∃ passed : List Token, (∀ t ∈ passed, t.kind.isTrivia) ∧
      c.significant.comments = passed.filter (·.kind.isComment) ∧
      c.significant.token.kind.isTrivia = false ∧
      c.tokens = passed ++ c.significant.token ::
        Lexer.ahead ⟨c.significant.cursor, c.significant.token⟩ := by
  -- on the trivia before the token
  induction c using significant.induct with
  | case1 c hc ih =>
    obtain ⟨passed, htrivia, hcomments, htoken, htokens⟩ := ih
    have hstep : c.significant = { c.next.2.significant with
        newline := c.next.1.kind == .newline || c.next.2.significant.newline
        comments := if c.next.1.kind.isComment then c.next.1 :: c.next.2.significant.comments
          else c.next.2.significant.comments } := by
      rw [significant, dif_pos hc]
    rw [hstep]
    refine ⟨c.next.1 :: passed, ?_, ?_, htoken, ?_⟩
    · exact List.forall_mem_cons.mpr ⟨hc.2, htrivia⟩
    · dsimp only
      rw [List.filter_cons, hcomments]
    · rw [tokens_cons hc.1, htokens]
      rfl
  | case2 c hc =>
    have hstop : c.significant = ⟨c.next.1, c.next.2, false, []⟩ := by
      rw [significant, dif_neg hc]
    rw [hstop]
    exact ⟨[], List.forall_mem_nil _, rfl, isTrivia_next hc, c.tokens_next⟩

theorem isComment_of_mem_comments {c : Cursor} {t : Token} (h : t ∈ c.significant.comments) :
    t.kind.isComment := by
  obtain ⟨passed, -, hcomments, -, -⟩ := c.tokens_significant
  rw [hcomments] at h
  exact (List.mem_filter.mp h).2

/-- The next significant token is what is found at some place. -/
theorem exists_significant (c : Cursor) :
    ∃ d : Cursor, c.significant.token = d.next.1 ∧ c.significant.cursor = d.next.2 := by
  induction c using significant.induct with
  | case1 c hc ih =>
    rw [significant, dif_pos hc]
    exact ih
  | case2 c hc =>
    rw [significant, dif_neg hc]
    exact ⟨c, rfl, rfl⟩

/-- Each token ahead is what comes next at some place, which is as all places on the way are. -/
theorem exists_next_of_mem_tokens {P : Cursor → Prop} (hP : ∀ c, P c → P c.next.2) {c : Cursor}
    (h : P c) {t : Token} (ht : t ∈ c.tokens) : ∃ d, P d ∧ d.next.1 = t := by
  induction c using tokens.induct with
  | case1 c hrest =>
    rw [tokens_nil hrest] at ht
    exact ⟨c, h, (List.mem_singleton.mp ht).symm⟩
  | case2 c hrest ih =>
    rw [tokens_cons hrest] at ht
    rcases List.mem_cons.mp ht with rfl | ht
    · exact ⟨c, h, rfl⟩
    · exact ih (hP c h) ht

/-- The tokens ahead lie behind each other. -/
theorem pairwise_tokens (c : Cursor) :
    c.tokens.Pairwise (fun t u => t.offset < u.offset) ∧ ∀ t ∈ c.tokens, c.offset ≤ t.offset := by
  induction c using tokens.induct with
  | case1 c hrest =>
    rw [tokens_nil hrest]
    refine ⟨List.pairwise_singleton _ _, fun t ht => ?_⟩
    rw [List.mem_singleton.mp ht]
    exact Nat.le_of_eq c.next_offset.1.symm
  | case2 c hrest ih =>
    obtain ⟨hoffset, hstop, -⟩ := c.next_offset
    have hsize : c.next.1.size ≠ 0 := fun h0 =>
      hrest (c.kind_next_eq_eof.mp ((next_sound (c := c) rfl).size_eq_zero.mp h0))
    rw [tokens_cons hrest]
    refine ⟨List.pairwise_cons.mpr ⟨fun t ht => ?_, ih.1⟩, fun t ht => ?_⟩
    · have hle := ih.2 t ht
      omega
    · rcases List.mem_cons.mp ht with rfl | ht
      · exact Nat.le_of_eq hoffset.symm
      · have hle := ih.2 t ht
        omega

end Cursor

end SableFront
