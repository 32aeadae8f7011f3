import CallByNeed.Eval.Basic
import CallByNeed.Store.Promise

/-!
Forcing promises. A promise is evaluated at most once; an evaluation that unwinds leaves it
unevaluated, to be forced again.
-/
namespace CallByNeed

/-- The value computed ahead for a promise, if it still stands. A stale one is given up, and its
call site with it. -/
def takeEagerValue (id : PromiseId) : EvalM (Option Value) := do
  let s ← get
  match (s.store.promise id).eager with
  | none => pure none
  | some eager =>
    if eager.deoptimized then pure none
    else if s.store.trusts eager.site && s.heap.isCurrent eager.snapshot then
      modifyStore fun store => (store.share eager.value).fulfil id eager.value
      count fun c =>
        { c with eagerHits := c.eagerHits + 1, promisesForced := c.promisesForced + 1 }
      pure (some eager.value)
    else
      modifyStore fun store => (store.deoptimize id).distrust eager.site
      count fun c => { c with eagerDeopts := c.eagerDeopts + 1 }
      pure none

def cyclicPromise : Failure := .raise .cyclicPromise
  "promise already under evaluation: recursive default argument reference or earlier problems?"

/-- Evaluates an unevaluated promise under a record of its own. -/
def evaluatePromise (ev : Evaluator) (id : PromiseId) (env : EnvId) (caller : RecordId) :
    EvalM Value := do
  onStore (Store.beginEvaluation id)
  let p := (← get).store.promise id
  match ← observe (underRecord (some caller) none (.promise p.caller) (ev p.expr env)) with
  | .ok v =>
    modifyStore fun store => (store.share v).fulfil id v
    count fun c => { c with promisesForced := c.promisesForced + 1 }
    pure v
  | .error u =>
    modifyStore (·.resetPromise id)
    throw u

/-- The value of a promise. One forced during its own evaluation gives the missing marker, or fails
when the options ask for it. -/
def force (ev : Evaluator) (id : PromiseId) (caller : RecordId) : EvalM Value := do
  let s ← get
  match (s.store.promise id).state with
  | .evaluated v => pure v
  | .underEvaluation _ =>
    if s.options.strictPromiseCycles then failAt caller cyclicPromise else pure .missing
  | .unevaluated env =>
    match ← takeEagerValue id with
    | some v => pure v
    | none =>
      ensureLazy caller
      checkInterrupt
      evaluatePromise ev id env caller

/-- Forces a value that is a promise. -/
def forceValue (ev : Evaluator) (v : Value) (caller : RecordId) : EvalM Value :=
  match v with
  | .promise id => force ev id caller
  | v => pure v

end CallByNeed
