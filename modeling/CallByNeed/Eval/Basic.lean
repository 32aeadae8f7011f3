import CallByNeed.Session

/-!
The evaluation monad. A computation transforms the session and gives a value or unwinds; what it did
to the session before unwinding stays done. Every rule of the evaluator is written over an
`Evaluator` for the expressions nested in it.
-/
namespace CallByNeed

/-- Ways to leave an evaluation other than by its value. -/
inductive Unwind where
  | failure (f : Failure)
  /-- Leaves the function whose frame is `env`. -/
  | leave (env : EnvId) (value : Value)

/-- The failure an unwinding amounts to outside of every function. -/
def Unwind.toFailure : Unwind → Failure
  | failure f => f
  | leave .. => .invalidArgument "no function to return from, jumping to top level"

abbrev EvalM := ExceptT Unwind (StateM Session)

/-- Evaluates an expression in an environment under a call record. -/
abbrev Evaluator := Expr → EnvId → RecordId → EvalM Value

def fail {α : Type} (f : Failure) : EvalM α := throw (.failure f)

def failIf (condition : Bool) (f : Failure) : EvalM Unit := if condition then fail f else pure ()

/-- The outcome of a computation, unwinding included, as a value. -/
def observe {α : Type} (m : EvalM α) : EvalM (Except Unwind α) := fun s =>
  match m s with
  | (r, s) => (.ok r, s)

def resume {α : Type} : Except Unwind α → EvalM α
  | .ok a => pure a
  | .error u => throw u

def onStore {α : Type} (m : StoreM α) : EvalM α := fun s =>
  let store := s.store
  let s := { s with store := {} }
  match m store with
  | (.ok a, store) => (.ok a, { s with store })
  | (.error f, store) => (.error (.failure f), { s with store })

def allocate {α : Type} (m : Alloc α) : EvalM α := fun s =>
  let store := s.store
  let s := { s with store := {} }
  match m store with
  | (a, store) => (.ok a, { s with store })

def modifyStore (f : Store → Store) : EvalM Unit := modify fun s =>
  let store := s.store
  let s := { s with store := {} }
  { s with store := f store }

def readHeap {α : Type} (f : Heap → Except Failure α) : EvalM α := do
  match f (← get).heap with
  | .ok a => pure a
  | .error e => fail e

def updateHeap (f : Heap → Except Failure Heap) : EvalM Unit := do
  match f (← get).heap with
  | .ok heap => modify fun s => { s with heap }
  | .error e => fail e

def allocFrame (parent : EnvId) : EvalM EnvId := modifyGet fun s =>
  let heap := s.heap
  let s := { s with heap := {} }
  match heap.alloc (some parent) none with
  | (id, heap) => (id, { s with heap })

def define (env : EnvId) (name : Name) (v : Value) : EvalM Unit := do
  discard (readHeap (·.frame env))
  modify fun s =>
    let heap := s.heap
    let s := { s with heap := {} }
    { s with heap := heap.bind env name v }

def count (f : Stats → Stats) : EvalM Unit := modify fun s => { s with stats := f s.stats }

def pushRecord (parent : Option RecordId) (call : Option Expr) (kind : RecordKind) :
    EvalM RecordId := modifyGet fun s =>
  match s.records.push parent call kind with
  | (id, records) => (id, { s with records })

/-- Runs a computation and drops a record at its end, however it ends. -/
def releasing {α : Type} (id : RecordId) (m : EvalM α) : EvalM α := fun s =>
  match m s with
  | (r, s) => (r, { s with records := s.records.release id })

/-- Runs a computation under a new record that lives as long as it runs. -/
def underRecord {α : Type} (parent : Option RecordId) (call : Option Expr) (kind : RecordKind)
    (m : RecordId → EvalM α) : EvalM α := do
  let id ← pushRecord parent call kind
  releasing id (m id)

def eagerOnly (caller : RecordId) : EvalM Bool := return (← get).records.eagerOnly caller

def setEagerOnly (caller : RecordId) (flag : Bool) : EvalM Unit :=
  modify fun s => { s with records := s.records.setEagerOnly caller flag }

/-- Under eager evaluation, gives up. -/
def ensureLazy (caller : RecordId) : EvalM Unit := do failIf (← eagerOnly caller) .cannotOptimize

/-- Takes a raised interrupt flag down and unwinds. -/
def checkInterrupt : EvalM Unit := do
  if (← get).interrupt then
    modify fun s => { s with interrupt := false }
    fail .interrupted

/-- Fails with a condition attributed to the function a record belongs to. -/
def failAt {α : Type} (caller : RecordId) (f : Failure) : EvalM α := do
  fail (f.withCall ((← get).errorCall caller))

def exprText (e : Expr) : EvalM String := return (← get).store.exprText e

def warn (message : String) (call : Option String) : EvalM Unit := modify fun s =>
  s.addDiagnostic ⟨.warning, message, call, some s.options.diagnosticContext, none⟩

end CallByNeed
