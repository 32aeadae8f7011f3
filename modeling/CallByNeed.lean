import CallByNeed.Builtin
import CallByNeed.Builtins.Arguments
import CallByNeed.Builtins.Attributes
import CallByNeed.Builtins.Numbers
import CallByNeed.Builtins.Vectors
import CallByNeed.Decimal.Double
import CallByNeed.Decimal.Shortest
import CallByNeed.Diagnostic
import CallByNeed.Dispatch.Cache
import CallByNeed.Dispatch.ClassRegistry
import CallByNeed.Dispatch.Classes
import CallByNeed.Dispatch.Formal
import CallByNeed.Dispatch.MethodTable
import CallByNeed.Elements
import CallByNeed.Eligibility
import CallByNeed.Eval.Assign
import CallByNeed.Eval.Basic
import CallByNeed.Eval.Closure
import CallByNeed.Eval.Force
import CallByNeed.Eval.Generic
import CallByNeed.Eval.MethodSearch
import CallByNeed.Eval.Missing
import CallByNeed.Eval.Special
import CallByNeed.Eval.Step
import CallByNeed.Eval.Strict
import CallByNeed.Eval.Variable
import CallByNeed.Expr
import CallByNeed.Failure
import CallByNeed.Heap
import CallByNeed.Heap.Collect
import CallByNeed.Interpreter
import CallByNeed.Matching
import CallByNeed.Name
import CallByNeed.Options
import CallByNeed.Options.Json
import CallByNeed.Record
import CallByNeed.Session
import CallByNeed.Sharing
import CallByNeed.Signature
import CallByNeed.Source
import CallByNeed.Store
import CallByNeed.Store.Identical
import CallByNeed.Store.Ownership
import CallByNeed.Store.Promise
import CallByNeed.Store.PromiseCells
import CallByNeed.Store.Text
import CallByNeed.Store.Write
import CallByNeed.Table
import CallByNeed.Proofs.Parts
import CallByNeed.Proofs.Evolution
import CallByNeed.Proofs.Rules
import CallByNeed.Proofs.Forcing
import CallByNeed.Proofs.Law
import CallByNeed.Proofs.Running
import CallByNeed.Proofs.Guards
import CallByNeed.Proofs.Evaluation
import CallByNeed.Proofs.Invariance
import CallByNeed.Proofs.Hosting
import CallByNeed.Proofs.PromiseCells
import CallByNeed.Proofs.Promises
import CallByNeed.Proofs.Contents
import CallByNeed.Proofs.Frozen
import CallByNeed.Proofs.Permanence
import CallByNeed.Proofs.Setters
import CallByNeed.Proofs.Replacement
import CallByNeed.Proofs.Confinement
import CallByNeed.Proofs.EarlyArguments
import CallByNeed.Proofs.Mentions
import CallByNeed.Proofs.Missingness
import CallByNeed.Proofs.Holding
import CallByNeed.Proofs.Handling
import CallByNeed.Proofs.HandlingBuiltins
import CallByNeed.Proofs.Soundness
import CallByNeed.Proofs.Conduct
import CallByNeed.Proofs.Calling
import CallByNeed.Proofs.Invoking
import CallByNeed.Proofs.Stepping
import CallByNeed.Proofs.Signal
import CallByNeed.Proofs.Circles
import CallByNeed.Proofs.Acyclicity
import CallByNeed.Proofs.Termination
import CallByNeed.Proofs.Collection
import CallByNeed.Proofs.Inheritance
import CallByNeed.Proofs.History
import CallByNeed.Proofs.Epoch
import CallByNeed.Proofs.Recall
import CallByNeed.Proofs.Standing
import CallByNeed.Proofs.Registered
import CallByNeed.Proofs.Generations
import CallByNeed.Proofs.ArgumentMatching
import CallByNeed.Proofs.References
import CallByNeed.Proofs.Keeping
import CallByNeed.Proofs.KeepingBuiltins
import CallByNeed.Proofs.Inquiry
import CallByNeed.Proofs.Tracking
import CallByNeed.Proofs.TrackingCalls
import CallByNeed.Proofs.TrackingBuiltins
import CallByNeed.Proofs.TrackingSteps
import CallByNeed.Proofs.Interruption
import CallByNeed.Proofs.Integrity
import CallByNeed.Proofs.Staleness
import CallByNeed.Proofs.CacheTiers
import CallByNeed.Proofs.MatchingFailure
import CallByNeed.Proofs.Effects
import CallByNeed.Proofs.Untouched
import CallByNeed.Proofs.Places
import CallByNeed.Proofs.Naming
import CallByNeed.Proofs.FailedReplacement
import CallByNeed.Proofs.MethodOrder
import CallByNeed.Proofs.MethodChains
import CallByNeed.Proofs.NextMethod
import CallByNeed.Proofs.Copies
import CallByNeed.Proofs.AlwaysForced
import CallByNeed.Proofs.Tally
import CallByNeed.Proofs.Deoptimization
import CallByNeed.Proofs.Linearization
import CallByNeed.Proofs.NearestMethod
import CallByNeed.Proofs.AnyMethod
import CallByNeed.Proofs.Conversion
import CallByNeed.Proofs.Concatenation
import CallByNeed.Proofs.Equality
import CallByNeed.Proofs.Mirroring
import CallByNeed.Proofs.MirroringBuiltins
import CallByNeed.Proofs.Forwarding
import CallByNeed.Proofs.Repeating
import CallByNeed.Proofs.RepeatingCalls
import CallByNeed.Proofs.Later
import CallByNeed.Proofs.FirstUse
import CallByNeed.Proofs.FrameChains
import CallByNeed.Proofs.LogicalStack
import CallByNeed.Proofs.Advancing
import CallByNeed.Proofs.QuotedCode
