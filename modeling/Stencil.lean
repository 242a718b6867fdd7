import Stencil.Builtin
import Stencil.Command.Compile
import Stencil.Command.Prompt
import Stencil.Json.Equality
import Stencil.Main
import Stencil.Proofs.Merge.Settling
import Stencil.Proofs.Success
import Stencil.Proofs.Value.Induction
import Stencil.Value.Compare
import Stencil.Proofs.Merge.Presence
import Stencil.Proofs.Template.OwnMembers
import Stencil.Proofs.Value.Places
import Stencil.Proofs.Template.Documents
import Stencil.Proofs.Template.Nulls
import Stencil.Proofs.Json.Distinct
import Stencil.Proofs.Template.Inheritance
import Stencil.Proofs.Comment.Removal
import Stencil.Proofs.Agreement
import Stencil.Proofs.Comment.Merging
import Stencil.Proofs.Comment.Resolving
import Stencil.Proofs.Comment.Runs
import Stencil.Proofs.Calls
import Stencil.Proofs.Eval.Calls
import Stencil.Proofs.Eval.Levels
import Stencil.Proofs.Eval.Limit
import Stencil.Proofs.Template.Calls
import Stencil.Proofs.Template.Limit
import Stencil.Proofs.Recursion
import Stencil.Proofs.Template.Bindings
import Stencil.Proofs.Value.Callables
import Stencil.Proofs.Template.Callables
import Stencil.Proofs.Expr.Soundness
import Stencil.Proofs.Expr.RoundTrip
import Stencil.Proofs.Command.Confinement
import Stencil.Proofs.Merge.Members
import Stencil.Proofs.Merge.Conflicts
import Stencil.Proofs.Command.Collection
import Stencil.Proofs.Merge.Repetition
import Stencil.Proofs.Command.Accounting
import Stencil.Proofs.Merge.Sharing
import Stencil.Proofs.Template.Directives
import Stencil.Proofs.Template.Literals
import Stencil.Proofs.Merge.Marks
import Stencil.Proofs.Template.Marks
import Stencil.Proofs.Template.Sessions
import Stencil.Proofs.Template.FanOut
import Stencil.Proofs.Template.History
import Stencil.Proofs.Value.Keys
import Stencil.Proofs.Template.Lookups
import Stencil.Proofs.Template.LoadOrder
import Stencil.Proofs.Template.Evaluations
import Stencil.Proofs.Template.FailurePaths
import Stencil.Proofs.Expr.Lexing
import Stencil.Proofs.Expr.Spelling
import Stencil.Proofs.Value.Display
import Stencil.Proofs.Depth.Counting
import Stencil.Proofs.Depth.Documents
import Stencil.Proofs.Eval.Reading
import Stencil.Proofs.Eval.Unused
import Stencil.Proofs.Value.Comparison
import Stencil.Proofs.Eval.Arithmetic
import Stencil.Proofs.Eval.WellFormed
import Stencil.Proofs.Template.Relocation
import Stencil.Proofs.Template.WellFormed
import Stencil.Proofs.Template.Iteration
import Stencil.Proofs.Builtin.Numbers
import Stencil.Proofs.Builtin.Extremes
import Stencil.Proofs.Builtin.Membership
import Stencil.Proofs.Eval.References
import Stencil.Proofs.Eval.Resolution
import Stencil.Proofs.Builtin.Callables
import Stencil.Proofs.Builtin.Encoding
import Stencil.Proofs.Eval.Ranges
import Stencil.Proofs.Value.Stripping
import Stencil.Proofs.Value.Texts
import Stencil.Proofs.Value.Retraction
import Stencil.Proofs.Template.Keys
import Stencil.Proofs.Expr.Spacing
import Stencil.Proofs.Expr.Positions
import Stencil.Proofs.Expr.Threshold
import Stencil.Proofs.Expr.Height
import Stencil.Proofs.Expr.LiteralRanges
import Stencil.Proofs.Pointers
import Stencil.Proofs.Expr.Offsets
import Stencil.Proofs.Expr.Expectations
import Stencil.Proofs.Expr.Commitment
import Stencil.Proofs.Builtin.Checks
import Stencil.Proofs.Builtin.Faultless
import Stencil.Proofs.Eval.Misfits
