import SableFront.Report.Json
import SableFront.Diagnostic
import SableFront.Highlight

/-!
# Reports: documents

Syntax errors and highlight records as JSON. The members of each object are in alphabetical order.
Positions of errors are counted from one, those of highlight records from zero, as editors do.
-/

namespace SableFront.Report

/-- A syntax error of a file. -/
def diagnostic (file : String) (e : SyntaxError) : Json :=
  .object [("code", .string e.kind.code), ("column", .number e.column), ("file", .string file),
    ("line", .number e.line), ("message", .string e.message)]

/-- The syntax errors of a file. -/
def diagnostics (file : String) (errors : List SyntaxError) : Json :=
  .array (errors.map (diagnostic file))

/-- A highlight record. -/
def highlightRecord (r : Highlight.Record) : Json :=
  .object [("character", .number r.start.character), ("kind", .string r.category.label),
    ("length", .number r.length), ("line", .number r.start.line),
    ("modifiers", .array (r.modifiers.map fun m => .string m.label))]

/-- Highlight records. -/
def highlightRecords (rs : List Highlight.Record) : Json := .array (rs.map highlightRecord)

end SableFront.Report
