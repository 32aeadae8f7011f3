import CallByNeed.Eval.Basic
import CallByNeed.Store.Promise

/-!
Whether an argument is missing: it was not supplied, or was supplied as a bare variable that is
itself missing where the promise was made. The probe forces nothing.
-/
namespace CallByNeed

/-- The binding that a promise over a bare symbol stands for, in the promise's own frame. -/
def promisedBinding (p : Promise) : EvalM (Option Value) := do
  match p.expr.symbol?, p.state.env? with
  | some name, some env => readHeap (·.getLocal env name)
  | _, _ => pure none

/-- Follows a chain of promises over bare symbols. Each promise on the chain is marked as under
evaluation for the time of the probe, so that a cycle ends in a marked one; no chain has more steps
than there are promises. -/
def isMissingWithin : Nat → Bool → Value → EvalM Bool
  | _, _, .missing => pure true
  | _, _, .dots id => return ((← get).store.dotsAt id).values.isEmpty
  | 0, _, .promise _ => pure true
  | steps + 1, outermost, .promise id => do
    let p := (← get).store.promise id
    if outermost && p.origin = .default then pure true
    else match p.state with
      | .evaluated _ => pure false
      | .underEvaluation _ => pure true
      | .unevaluated _ =>
        match p.eager.filter (!·.deoptimized) with
        | some eager => pure eager.value.isMissing
        | none =>
          match ← promisedBinding p with
          | none => pure false
          | some inner =>
            onStore (Store.beginEvaluation id)
            let answer ← observe (isMissingWithin steps false inner)
            modifyStore (·.resetPromise id)
            resume answer
  | _, _, _ => pure false

/-- Whether a formal of the function running in a frame is missing. -/
def isMissingArgument (name : Name) (env : EnvId) : EvalM Bool := do
  match ← readHeap (·.getLocal env name) with
  | none => fail (.invalidArgument "'missing' can only be used for arguments")
  | some binding => isMissingWithin ((← get).store.promises.size + 1) true binding

end CallByNeed
