import CallByNeed.Store.Ownership

/-!
The life of a promise: unevaluated, under evaluation, evaluated. An evaluation that fails goes back
to the start. A promise may carry a value computed ahead of its first use.
-/
namespace CallByNeed

namespace PromiseState

def name : PromiseState → String
  | unevaluated _ => "Unevaluated"
  | underEvaluation _ => "UnderEvaluation"
  | evaluated _ => "Evaluated"

/-- The environment of a promise, given up once it is evaluated. -/
def env? : PromiseState → Option EnvId
  | unevaluated env | underEvaluation env => some env
  | evaluated _ => none

def value? : PromiseState → Option Value
  | evaluated v => some v
  | _ => none

def reset : PromiseState → PromiseState
  | underEvaluation env => unevaluated env
  | state => state

end PromiseState

def Origin.name : Origin → String
  | supplied => "Supplied"
  | default => "Default"

namespace Store

/-- A promise that starts out evaluated, as constant arguments do. -/
def evaluatedPromise (e : Expr) (v : Value) (origin : Origin) : Alloc Value :=
  .promise <$> addPromise ⟨e, .evaluated v, origin, none, none⟩

def lazyPromise (e : Expr) (env : EnvId) (origin : Origin) (caller : RecordId) : Alloc Value :=
  .promise <$> addPromise ⟨e, .unevaluated env, origin, some caller, none⟩

/-- An unevaluated promise with a value computed ahead; its environment is kept for the case that
the value turns out stale. -/
def eagerPromise (e : Expr) (env : EnvId) (caller : RecordId) (eager : EagerValue) : Alloc Value :=
  .promise <$> addPromise ⟨e, .unevaluated env, .supplied, some caller, some eager⟩

def setPromiseState (id : PromiseId) (state : PromiseState) (s : Store) : Store :=
  s.modifyPromise id fun p => { p with state }

def beginEvaluation (id : PromiseId) : StoreM Unit := do
  match ((← get).promise id).state with
  | .unevaluated env => modify (·.setPromiseState id (.underEvaluation env))
  | state => throw (.internal s!"cannot start evaluating a promise that is {state.name}")

def fulfil (id : PromiseId) (v : Value) (s : Store) : Store := s.setPromiseState id (.evaluated v)

def resetPromise (id : PromiseId) (s : Store) : Store :=
  s.modifyPromise id fun p => { p with state := p.state.reset }

def deoptimize (id : PromiseId) (s : Store) : Store :=
  s.modifyPromise id fun p => { p with eager := p.eager.map ({ · with deoptimized := true }) }

/-- Whether a call site may still evaluate arguments early. -/
def trusts (s : Store) (site : NodeId) : Bool := !s.distrusted.contains site

/-- Withdraws trust from a call site for good. -/
def distrust (site : NodeId) (s : Store) : Store :=
  if s.trusts site then { s with distrusted := site :: s.distrusted } else s

end Store
end CallByNeed
