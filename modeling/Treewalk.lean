import Treewalk.Interner
import Treewalk.Main
import Treewalk.Proofs.Closures
import Treewalk.Proofs.Discipline
import Treewalk.Proofs.Shape
import Treewalk.Proofs.Confinement
import Treewalk.Proofs.Journal
import Treewalk.Proofs.Lexical
import Treewalk.Proofs.Nesting
import Treewalk.Proofs.Redeclaration
import Treewalk.Proofs.RoundTrip
import Treewalk.Proofs.Plan
import Treewalk.Proofs.Termination
import Treewalk.Proofs.Outlasting
import Treewalk.Proofs.CallLimit
import Treewalk.Proofs.LaxRedeclaration
import Treewalk.Proofs.Searching
import Treewalk.Proofs.Numbering
import Treewalk.Proofs.Grounding
import Treewalk.Proofs.InBounds
import Treewalk.Proofs.TokenOrder
import Treewalk.Proofs.Cover
import Treewalk.Proofs.Prediction
import Treewalk.Proofs.Prediction.Expressions
import Treewalk.Proofs.Prediction.Statements
import Treewalk.Proofs.Rejection
import Treewalk.Proofs.TokenFlow
import Treewalk.Proofs.SpanTree
import Treewalk.Proofs.WellShaped
import Treewalk.Proofs.Blame
import Treewalk.Proofs.Lexemes
import Treewalk.Proofs.MaximalMunch
import Treewalk.Proofs.Tiling
import Treewalk.Proofs.Respacing
import Treewalk.Proofs.Leaves
import Treewalk.Proofs.Spanless
import Treewalk.Proofs.Rewriting
import Treewalk.Proofs.Rewriting.Stores
import Treewalk.Proofs.Rewriting.Evaluation
import Treewalk.Proofs.Quoting
import Treewalk.Proofs.Straightening
import Treewalk.Proofs.LayoutFree
import Treewalk.Proofs.Brackets
import Treewalk.Proofs.Brackets.Laws
import Treewalk.Proofs.Brackets.Parsers
import Treewalk.Proofs.Bracketing
import Treewalk.Proofs.SpanBrackets
import Treewalk.Proofs.Progress.Laws
import Treewalk.Proofs.Progress.Parsers
import Treewalk.Proofs.Progress
import Treewalk.Proofs.Escapes
import Treewalk.Proofs.Unquoting
import Treewalk.Proofs.Locating
import Treewalk.Proofs.Rounding
import Treewalk.Proofs.Rounding.Arithmetic
import Treewalk.Proofs.Numerals
import Treewalk.Proofs.Literals
import Treewalk.Proofs.Hexadecimal
import Treewalk.Proofs.ShortestDigits
import Treewalk.Proofs.NumberText
import Treewalk.Proofs.NumberKinds
import Treewalk.Proofs.NumericStrings
import Treewalk.Proofs.WholeNumbers
import Treewalk.Proofs.Indexing
import Treewalk.Proofs.ArrayNumbers
import Treewalk.Proofs.Inspection
import Treewalk.Proofs.Shadowing
import Treewalk.Proofs.Arguments
import Treewalk.Proofs.StringBytes
import Treewalk.Proofs.Recognised
import Treewalk.Proofs.OutlineTexts
import Treewalk.Proofs.OutlineReading
import Treewalk.Proofs.Interning
