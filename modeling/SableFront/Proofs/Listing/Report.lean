import SableFront.Proofs.Listing.Tree

/-!
# Listings: a line for each item

Listings show tokens, trees and highlight records line by line. The listing of records has exactly one
line for each of them. The other two have, too, but for comments and invalid text that go on over the end
of a line: these are shown as they stand, and so their item takes as many lines as they do
(`listings_have_a_line_each`, `comment_takes_two_lines`).
-/

namespace SableFront

open Text

namespace Report

/-- The line of a token is broken if the token is shown so. -/
theorem isBroken_tokenLine (t : Token) :
    isBroken (tokenLine t) = isBroken t.describe := by
  rw [tokenLine, isBroken_intercalate rfl, List.any_cons, List.any_cons, List.any_cons,
    isBroken_position, isBroken_kind, List.any_nil, Bool.false_or, Bool.false_or,
    Bool.or_false]

/-- **The listing of tokens** has a line for each of them if no block comment and no invalid text among
them goes on over the end of a line, and only then. -/
theorem hasLines_tokens (source : String) (trivia : Bool) :
    HasLines (tokens trivia (tokenize source))
        ((keptTokens trivia (tokenize source)).map tokenLine) ↔
      ∀ t ∈ keptTokens trivia (tokenize source), t.kind = .blockComment ∨ t.kind = .invalid →
        t.span.stop.line = t.span.start.line := by
  rw [tokens, hasLines_ofLines, List.forall_mem_map]
  refine forall₂_congr fun t ht => ?_
  have hmem : t ∈ tokenize source := (List.mem_filter.mp ht).1
  rw [isBroken_tokenLine, Token.isBroken_describe_of_mem hmem]

/-- **The listing of trees** has a line for each of them if no comment that stands alone goes on over the
end of a line, and only then. -/
theorem hasLines_trees (source : String) (config : ParseConfig) :
    HasLines (trees (Program.parse source config).nodes)
        ((Program.parse source config).nodes.map Node.render) ↔
      ∀ n ∈ Node.walkAll (Program.parse source config).nodes, n.form = .comment →
        n.token.span.stop.line = n.token.span.start.line := by
  have hbroken (top : Node) (htop : top ∈ (Program.parse source config).nodes) :
      isBroken top.render = top.walk.any Node.isBrokenComment :=
    top.isBroken_render (Grammar.legible_of_mem_walkAll
      (Node.mem_walkAll_iff.mpr ⟨top, htop, top.mem_walk_self⟩))
  rw [trees, hasLines_ofLines, List.forall_mem_map]
  constructor
  · intro h n hn
    obtain ⟨top, htop, hbelow⟩ := Node.mem_walkAll_iff.mp hn
    have hline := h top htop
    rw [hbroken top htop, List.any_eq_false] at hline
    exact (Grammar.isBrokenComment_of_mem_walkAll hn).mp (Bool.eq_false_iff.mpr (hline n hbelow))
  · intro h top htop
    rw [hbroken top htop, List.any_eq_false]
    intro n hbelow
    have hn := Node.mem_walkAll_iff.mpr ⟨top, htop, hbelow⟩
    exact Bool.eq_false_iff.mp ((Grammar.isBrokenComment_of_mem_walkAll hn).mpr (h n hn))

/-- The line of a record is one line. -/
theorem isBroken_highlightLine (r : Highlight.Record) :
    isBroken (highlightLine r) = false := by
  have hcategory : isBroken r.category.label = false := by cases r.category <;> rfl
  have hparts : isBroken (" ".intercalate [r.start.render, toString r.length, r.category.label])
      = false := by
    rw [isBroken_intercalate rfl, List.any_cons, List.any_cons, List.any_cons,
      isBroken_position, isBroken_toString, hcategory]
    rfl
  have hmodifiers : isBroken (", ".intercalate (r.modifiers.map Highlight.Modifier.label))
      = false := by
    rw [isBroken_intercalate rfl, List.any_map, List.any_eq_false]
    intro m _
    cases m <;> exact Bool.false_ne_true
  rw [highlightLine, isBroken_append, hparts, Bool.false_or]
  split
  · rfl
  · rw [isBroken_append, isBroken_append, hmodifiers]
    rfl

/-- **The listing of highlight records** has a line for each of them. -/
theorem hasLines_highlights (records : List Highlight.Record) :
    HasLines (highlights records) (records.map highlightLine) := by
  rw [highlights, hasLines_ofLines, List.forall_mem_map]
  exact fun r _ => isBroken_highlightLine r

end Report

/-- **Listings have a line for each item**, in order and each ended by a line break: the listing of
highlight records always; the listing of tokens if no block comment and no invalid text among the tokens
goes on over the end of a line, and only then; the listing of trees if no comment goes on so that stands
as a node of its own, at the top or anywhere below, and only then. -/
theorem listings_have_a_line_each (source : String) (config : ParseConfig) (shown : HighlightConfig)
    (trivia : Bool) :
    let nodes := (Program.parse source config).nodes
    let kept := Report.keptTokens trivia (tokenize source)
    let records := highlight shown nodes
    (Report.HasLines (Report.tokens trivia (tokenize source)) (kept.map Report.tokenLine) ↔
      ∀ t ∈ kept, t.kind = .blockComment ∨ t.kind = .invalid →
        t.span.stop.line = t.span.start.line) ∧
    (Report.HasLines (Report.trees nodes) (nodes.map Node.render) ↔
      ∀ n ∈ Node.walkAll nodes, n.form = .comment →
        n.token.span.stop.line = n.token.span.start.line) ∧
    Report.HasLines (Report.highlights records) (records.map Report.highlightLine) :=
  ⟨Report.hasLines_tokens source trivia, Report.hasLines_trees source config,
    Report.hasLines_highlights _⟩

/-- A comment on two lines makes two lines of one tree and of one token; a comment without an end does so
even where blanks and comments are left out. -/
theorem comment_takes_two_lines :
    let commented := "/* a\nb */"
    let nodes := (Program.parse commented .standard).nodes
    let unclosed := tokenize "/*\n"
    (nodes.length = 1 ∧ Report.trees nodes = "(comment /* a\nb */)\n" ∧
      ¬ Report.HasLines (Report.trees nodes) (nodes.map Node.render)) ∧
    ¬ Report.HasLines (Report.tokens true (tokenize commented))
      ((Report.keptTokens true (tokenize commented)).map Report.tokenLine) ∧
    Report.tokens false unclosed = "1:1 Invalid /*\n\n2:1 Eof end of file\n" ∧
    ¬ Report.HasLines (Report.tokens false unclosed)
      ((Report.keptTokens false unclosed).map Report.tokenLine) := by
  decide +kernel

end SableFront
