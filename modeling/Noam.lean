import Noam.Attempt
import Noam.Intrinsics
import Noam.Abstraction
import Noam.Texts
import Noam.Coroutine
import Noam.Relation
import Noam.Refinement
import Noam.Progress
import Noam.Expr
import Noam.Language
import Noam.Representation
import Noam.Choice
import Noam.Sequencing
import Noam.StdMap
import Noam.Repetition
import Noam.Recursion
import Noam.Json
import Noam.Rendering
import Noam.Framing
import Noam.Lookahead
import Noam.Views
import Noam.Strings
import Noam.Quoting
import Noam.Recognition
import Noam.Brackets
import Noam.JsonGrammar
import Noam.JsonAccepts
import Noam.JsonFormat
import Noam.JsonRoundTrip
import Noam.Ordering
import Noam.Subviews
import Noam.Scanning
import Noam.Lines
import Noam.Matching
import Noam.Steps
import Noam.Termination
import Noam.Folding
import Noam.Bench
import Noam.Limit
import Noam.Continuity
import Noam.Consumption
import Noam.Endings
import Noam.LeftRecursion
import Noam.Locality
import Noam.JsonDepth
import Noam.Frames
import Noam.Calls
import Noam.Counted
import Noam.JsonCalls
import Noam.Adequacy
import Noam.ExprGrammar
import Noam.Separated
import Noam.JsonExample
import Noam.Construction
import Noam.JsonSize
import Noam.MutualRecursion
