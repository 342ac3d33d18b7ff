import SableFront.Main
import SableFront.Source.Text
import SableFront.SymbolType.Text
import SableFront.Tree.ValueType
import SableFront.Proofs.Progress.Reading
import SableFront.Proofs.Rollback.Attempt
import SableFront.Proofs.Precedence.Chain
import SableFront.Proofs.RoundTrip.Expression
import SableFront.Proofs.Tiling.Token
import SableFront.Proofs.Symbols.Consistent
import SableFront.Proofs.Survey.Reading
import SableFront.Proofs.Defects.Token
import SableFront.Proofs.Defects.Reading
import SableFront.Proofs.Comments.Splitting
import SableFront.Proofs.Comments.Calm
import SableFront.Proofs.Comments.Attempt
import SableFront.Proofs.Comments.Reading
import SableFront.Proofs.Scoping.Statement
import SableFront.Proofs.Simulation.Layout
import SableFront.Proofs.Symbols.Names
import SableFront.Proofs.Symbols.Redeclaration
import SableFront.Proofs.Tiling.Tree
import SableFront.Proofs.Tiling.Highlight
import SableFront.Proofs.Tiling.Filtering
import SableFront.Proofs.Tiling.Nesting
import SableFront.Proofs.Coverage.Records
import SableFront.Proofs.Progress.Alternative
import SableFront.Proofs.Tiling.Session
import SableFront.Proofs.Tiling.Alone
import SableFront.Proofs.Templates.Statement
import SableFront.Proofs.Generics
import SableFront.Proofs.Symbols.Shadowing
import SableFront.Proofs.Typing.Agreement
import SableFront.Proofs.RoundTrip.TypeDeclaration
import SableFront.Proofs.Literals.Escape
import SableFront.Proofs.Literals.Extent
import SableFront.Proofs.Literals.Integer
import SableFront.Proofs.LineEndings.Highlight
import SableFront.Proofs.Tiling.Places
import SableFront.Proofs.Spelling.Token
import SableFront.Proofs.Typing.Arithmetic
import SableFront.Proofs.Typing.Text
import SableFront.Proofs.Listing.Report
