import TensorTyping.Attrs
import TensorTyping.Cond
import TensorTyping.Config.Basic
import TensorTyping.Config.Text
import TensorTyping.DataType
import TensorTyping.Diagnostic.Basic
import TensorTyping.Diagnostic.Span
import TensorTyping.Dim.Basic
import TensorTyping.Dim.Fold
import TensorTyping.Dim.Order
import TensorTyping.Globals
import TensorTyping.Interval
import TensorTyping.Json.Basic
import TensorTyping.Json.Dim
import TensorTyping.Json.Session
import TensorTyping.Json.Text
import TensorTyping.Json.Token
import TensorTyping.Json.Ty
import TensorTyping.NormalForm
import TensorTyping.Proofs.Broadcast.Rejection
import TensorTyping.Proofs.Broadcast.Shapes
import TensorTyping.Proofs.Broadcast.Static
import TensorTyping.Proofs.Broadcast.Unknown
import TensorTyping.Proofs.DataType
import TensorTyping.Proofs.Dim.Fold
import TensorTyping.Proofs.Dim.Literals
import TensorTyping.Proofs.Dim.Product
import TensorTyping.Proofs.Dim.Substitution
import TensorTyping.Proofs.Exchange.Classes
import TensorTyping.Proofs.Exchange.Compare
import TensorTyping.Proofs.Exchange.Opposite
import TensorTyping.Proofs.Exchange.Symmetric
import TensorTyping.Proofs.Exchange.Unify
import TensorTyping.Proofs.Forest.Basic
import TensorTyping.Proofs.Forest.Find
import TensorTyping.Proofs.Forest.Leaders
import TensorTyping.Proofs.Forest.Operations
import TensorTyping.Proofs.Forest.Partition
import TensorTyping.Proofs.Forest.Union
import TensorTyping.Proofs.Independence.Arrangement
import TensorTyping.Proofs.Independence.Classes
import TensorTyping.Proofs.Independence.Interleaves
import TensorTyping.Proofs.Independence.Run
import TensorTyping.Proofs.Independence.Solve
import TensorTyping.Proofs.Independence.Unify
import TensorTyping.Proofs.Interval
import TensorTyping.Proofs.Interval.Ends
import TensorTyping.Proofs.Json.Basic
import TensorTyping.Proofs.Json.Values
import TensorTyping.Proofs.NormalForm.Canonical
import TensorTyping.Proofs.NormalForm.Derived
import TensorTyping.Proofs.NormalForm.Difference
import TensorTyping.Proofs.NormalForm.Eval
import TensorTyping.Proofs.NormalForm.Polynomial
import TensorTyping.Proofs.NormalForm.Rebuild
import TensorTyping.Proofs.NormalForm.Split
import TensorTyping.Proofs.NormalForm.Stable
import TensorTyping.Proofs.NormalForm.Total
import TensorTyping.Proofs.NormalForm.Value
import TensorTyping.Proofs.NormalForm.Weight
import TensorTyping.Proofs.NormalForm.Within
import TensorTyping.Proofs.Order
import TensorTyping.Proofs.Ranges
import TensorTyping.Proofs.Ranges.Coherence
import TensorTyping.Proofs.Ranges.Deduction
import TensorTyping.Proofs.Ranges.Idempotence
import TensorTyping.Proofs.Ranges.Narrowing
import TensorTyping.Proofs.Ranges.Reflexivity
import TensorTyping.Proofs.Ranges.Tightness
import TensorTyping.Proofs.Reshape
import TensorTyping.Proofs.Rule.Bounds
import TensorTyping.Proofs.Rule.Builtin
import TensorTyping.Proofs.Rule.Filling
import TensorTyping.Proofs.Rule.Meaning
import TensorTyping.Proofs.Rule.Requests
import TensorTyping.Proofs.Session.Acyclic
import TensorTyping.Proofs.Session.Agreement
import TensorTyping.Proofs.Session.Budget
import TensorTyping.Proofs.Session.Calls
import TensorTyping.Proofs.Session.Checking
import TensorTyping.Proofs.Session.Classes
import TensorTyping.Proofs.Session.Classes.Absorb
import TensorTyping.Proofs.Session.Classes.Bind
import TensorTyping.Proofs.Session.Classes.Ensure
import TensorTyping.Proofs.Session.Classes.Join
import TensorTyping.Proofs.Session.Classes.Refresh
import TensorTyping.Proofs.Session.Classes.Use
import TensorTyping.Proofs.Session.Conclusion
import TensorTyping.Proofs.Session.Confined
import TensorTyping.Proofs.Session.Confluence
import TensorTyping.Proofs.Session.Decided
import TensorTyping.Proofs.Session.Deferral
import TensorTyping.Proofs.Session.Ending
import TensorTyping.Proofs.Session.Evolution
import TensorTyping.Proofs.Session.Feasible
import TensorTyping.Proofs.Session.Firing
import TensorTyping.Proofs.Session.FirstFailure
import TensorTyping.Proofs.Session.Fresh
import TensorTyping.Proofs.Session.Growth
import TensorTyping.Proofs.Session.History
import TensorTyping.Proofs.Session.Invocations
import TensorTyping.Proofs.Session.Marks
import TensorTyping.Proofs.Session.Moments
import TensorTyping.Proofs.Session.MostGeneral
import TensorTyping.Proofs.Session.Observation
import TensorTyping.Proofs.Session.Passage
import TensorTyping.Proofs.Session.Placeholders
import TensorTyping.Proofs.Session.Questions
import TensorTyping.Proofs.Session.Reflexive
import TensorTyping.Proofs.Session.Repetition
import TensorTyping.Proofs.Session.Run
import TensorTyping.Proofs.Session.Settings
import TensorTyping.Proofs.Session.Setup
import TensorTyping.Proofs.Session.Shadow
import TensorTyping.Proofs.Session.Sharing
import TensorTyping.Proofs.Session.Shortcut
import TensorTyping.Proofs.Session.Single
import TensorTyping.Proofs.Session.Soundness
import TensorTyping.Proofs.Session.Step
import TensorTyping.Proofs.Session.Strictness
import TensorTyping.Proofs.Session.Uncertain
import TensorTyping.Proofs.Session.Unifier
import TensorTyping.Proofs.Session.Unify
import TensorTyping.Proofs.Session.Unresolved
import TensorTyping.Proofs.Simplify
import TensorTyping.Proofs.Ty.Alike
import TensorTyping.Proofs.Ty.Fill
import TensorTyping.Proofs.Ty.Ground
import TensorTyping.Proofs.Ty.Order
import TensorTyping.Proofs.Ty.Placeholders
import TensorTyping.Proofs.Ty.Replacement
import TensorTyping.Ranges
import TensorTyping.Rule.Basic
import TensorTyping.Rule.Builtin
import TensorTyping.Rule.Resolution
import TensorTyping.Rule.Script
import TensorTyping.Session.Basic
import TensorTyping.Session.Classes
import TensorTyping.Session.Equations
import TensorTyping.Session.Sharing
import TensorTyping.Session.Solution
import TensorTyping.Session.TypeError
import TensorTyping.Session.Unify
import TensorTyping.Table
import TensorTyping.TensorType
import TensorTyping.Text.Blank
import TensorTyping.Text.Hidden
import TensorTyping.Text.Listing
import TensorTyping.Text.Numeral
import TensorTyping.Text.Quoted
import TensorTyping.Text.Utf16
import TensorTyping.Ty.Basic
import TensorTyping.Ty.Order
import TensorTyping.Ty.Placeholders
import TensorTyping.Ty.Replace
import TensorTyping.Ty.Walk
import TensorTyping.Verdict
import TensorTyping.Word
