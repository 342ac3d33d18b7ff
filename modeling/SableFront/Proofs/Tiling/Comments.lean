import SableFront.Proofs.Tiling.Tree

/-!
# Tiling: the comments of a program

Comments are passed over while a text is read, and wait until a node takes them. So no token that is
read as a part of the program is a comment, and the comments that a program keeps, with its nodes or
as nodes of their own, are comments of its text (`Grammar.mem_comments_of_mem_walkAll`).
-/

namespace SableFront

open Grammar

/-- What is read is no comment. -/
theorem Kind.isComment_of_isTrivia {k : Kind} (h : k.isTrivia = false) : k.isComment = false := by
  cases k <;> first | rfl | cases h

namespace Grammar

open Node

/-- Reading stands in the text before a token that is no comment, and the comments that are kept are
comments of the text. -/
structure Remarking (cs : List Char) (ps : List Piece) (s : State) : Prop where
  stands : s.StandsIn cs
  current : s.current.kind.isComment = false
  kept : ∀ t, Piece.Kept ps t → t.kind.isComment → t ∈ Text.comments cs

namespace Remarking

variable {cs : List Char} {ps qs rs : List Piece} {s t : State} {n : Node}

theorem congr (h : Remarking cs ps s) (hlexer : t.lexer = s.lexer) (hcomments : t.comments ⊆ s.comments) :
    Remarking cs ps t := by
  refine ⟨h.stands.congr hlexer hcomments, ?_, h.kept⟩
  unfold State.current
  rw [hlexer]
  exact h.current

theorem isComment_bump (s : State) : s.bump.current.kind.isComment = false :=
  Kind.isComment_of_isTrivia s.lexer.cursor.tokens_significant.choose_spec.2.2.1

theorem advance (h : Remarking cs ps s) (use : Use) :
    Remarking cs (ps ++ [.token use s.current]) s.advance := by
  refine ⟨h.stands.advance.1, ?_, fun t ht hcomment => ?_⟩
  · unfold State.advance
    split
    · exact h.current
    · exact isComment_bump s
  · rcases Piece.kept_push ht with ht | rfl
    · exact h.kept t ht hcomment
    · rw [h.current] at hcomment
      cases hcomment

theorem split (h : Remarking cs ps s) (hs : isClosingAngle s.current.kind) :
    Remarking cs ps { s with lexer := s.lexer.splitAngle?.getD s.lexer } := by
  refine ⟨h.stands.split, ?_, h.kept⟩
  change (s.lexer.splitAngle?.getD s.lexer).token.kind.isComment = false
  rw [Survey.kind_splitAngle hs]
  rfl

theorem missing (h : Remarking cs ps s) : Remarking cs (ps ++ [.node s.placeholder]) s := by
  refine ⟨h.stands, h.current, fun t ht hcomment => ?_⟩
  rcases Piece.kept_leaf ht with ht | rfl
  · exact h.kept t ht hcomment
  · cases hcomment

theorem make (h : Remarking cs (ps ++ (qs ++ rs)) s) (hn : Makes s.symbols qs n) :
    Remarking cs (ps ++ .node n :: rs) s :=
  ⟨h.stands, h.current, fun t ht => h.kept t (hn.kept_among ht)⟩

theorem collect (h : Remarking cs ps s) {taken waiting : List Token} (htaken : taken ⊆ s.comments)
    (hwaiting : waiting ⊆ s.comments) :
    Remarking cs (ps ++ taken.map .comment) { s with comments := waiting } :=
  ⟨h.stands.congr rfl hwaiting, h.current, fun t ht hcomment => (Piece.kept_comments ht).elim
    (fun ht => h.kept t ht hcomment) fun ht => h.stands.comments (htaken ht)⟩

theorem rewind (h : Remarking cs ps s) (ht : Remarking cs ps t) : Remarking cs ps (t.rewind s) :=
  ⟨h.stands.rewind ht.stands, h.current, h.kept⟩

end Remarking

theorem loose_remarking (cs : List Char) : Survey.Loose (fun _ => True) (Remarking cs) where
  fit_current _ := trivial
  fit _ _ := trivial
  congr h hlexer _ hcomments _ _ := Remarking.congr h hlexer (hcomments ▸ List.Subset.refl _)
  sublist h hqs := ⟨h.stands, h.current, fun t ht => h.kept t (ht.mono hqs.subset)⟩
  mind h hp := ⟨h.stands, h.current, fun t ht => h.kept t (Piece.kept_mind hp ht)⟩
  advance h _ := Remarking.advance h _
  split h hs := Remarking.split h hs
  record h _ := Remarking.congr h (State.lexer_record _ _) fun _ hc => State.comments_record _ _ ▸ hc
  missing h := Remarking.missing h
  make h hn := Remarking.make h hn
  collect h htaken hwaiting := Remarking.collect h htaken hwaiting
  operate h _ _ := Remarking.congr h rfl (List.Subset.refl _)
  rewind h ht := Remarking.rewind h ht

/-- **The comments that a program keeps are comments of its text.** -/
theorem mem_comments_of_mem_walkAll {source : String} {config : ParseConfig} {n : Node}
    (hn : n ∈ walkAll (Program.parse source config).nodes) {t : Token} (ht : t ∈ n.ownTokens)
    (hcomment : t.kind.isComment) : t ∈ Text.comments source.toList := by
  have hstart : Remarking source.toList [] (State.start source config) :=
    ⟨.start source config, Remarking.isComment_bump (.unread source config),
      fun t ⟨p, hp, _⟩ => by cases hp⟩
  obtain ⟨s, hholds, -⟩ := Survey.reading_keeps ((loose_remarking source.toList).whole _) hstart
  exact hholds.kept t (Piece.kept_of_mem_walkAll hn ht) hcomment

end Grammar

end SableFront
