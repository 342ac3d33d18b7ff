import SableFront.Program
import SableFront.Highlight
import SableFront.Tree.Render

/-!
# Reports: listings

Listings give one line to each token, tree or highlight record. Positions in them are counted from
one.
-/

namespace SableFront.Report

/-- A text of lines, each ended by a line break. -/
def ofLines (lines : List String) : String := String.join (lines.map (· ++ "\n"))

theorem toList_ofLines (lines : List String) :
    (ofLines lines).toList = lines.flatMap fun line => line.toList ++ ['\n'] := by
  simp [ofLines, String.toList_join, List.flatMap_map]

/-- The tokens that a listing keeps: all of them, or those that are not trivia. -/
def keptTokens (trivia : Bool) (ts : List Token) : List Token :=
  ts.filter fun t => trivia || !t.kind.isTrivia

/-- The line of a token: its position, kind and spelling. -/
def tokenLine (t : Token) : String :=
  " ".intercalate [t.span.start.render, t.kind.label, t.describe]

/-- The listing of tokens. -/
def tokens (trivia : Bool) (ts : List Token) : String :=
  ofLines ((keptTokens trivia ts).map tokenLine)

/-- The listing of trees. -/
def trees (nodes : List Node) : String := ofLines (nodes.map Node.render)

/-- The line of a highlight record: its position, length and category, and its modifiers if there
are any. -/
def highlightLine (r : Highlight.Record) : String :=
  " ".intercalate [r.start.render, toString r.length, r.category.label] ++
    if r.modifiers.isEmpty then ""
    else " [" ++ ", ".intercalate (r.modifiers.map Highlight.Modifier.label) ++ "]"

/-- The listing of highlight records. -/
def highlights (rs : List Highlight.Record) : String := ofLines (rs.map highlightLine)

end SableFront.Report
