import CallByNeed.Eval.Step
import CallByNeed.Heap.Collect

/-!
Sessions as a host uses them: starting one, evaluating expressions, calling functions, forcing
promises, registering builtins, and collecting frames between evaluations.
-/
namespace CallByNeed

/-- What a host does with a session: it gives a value or fails, and the session goes on. -/
abbrev HostM := ExceptT Failure (StateM Session)

/-- Steps nested deeper than this end an evaluation. -/
def nestingLimit : Nat := 1000000

/-- Runs a computation under a top-level record. -/
def atTopLevel {α : Type} (m : RecordId → EvalM α) : HostM α := fun s =>
  match underRecord none none .topLevel m s with
  | (.ok a, s) => (.ok a, s)
  | (.error u, s) => (.error u.toFailure, s)

namespace Session

def bindBuiltins (bindings : List (Name × Nat)) (h : Heap) : Heap :=
  bindings.foldl (fun h (name, id) => (h.define base name (.builtin name id)).toOption.getD h) h

/-- A session with the standard builtins bound in the base frame and an empty global frame. -/
def start (options : Options) : Session :=
  let heap : Heap := {}
  let (base, heap) := heap.alloc none (some "base")
  let (_, heap) := heap.alloc (some base) (some "R_GlobalEnv")
  let builtins := Registry.standard
  let bindings := builtins.functions.toList.zipIdx.map fun (b, id) => (b.name, id)
  let (implicit, store) := ImplicitClasses.make {}
  { store, implicit, builtins, options
    heap := bindBuiltins bindings heap
    classes := .basic }

/-- Reports a condition that ended an evaluation. -/
def reportFailure (f : Failure) (s : Session) : Session :=
  match f with
  | .condition c =>
    s.addDiagnostic ⟨.error, c.message, none, some s.options.diagnosticContext, some f.code⟩
  | _ => s

/-- Evaluates an expression in an environment; a condition that ends it is reported. -/
def evalIn (e : Expr) (env : EnvId) : HostM Value := fun s =>
  match atTopLevel (eval nestingLimit e env) s with
  | (.ok v, s) => (.ok v, s)
  | (.error f, s) => (.error f, s.reportFailure f)

def evalTopLevel (e : Expr) : HostM Value := evalIn e global

/-- Evaluates expressions in turn; the result is the last value, or the given one if there are
none. -/
def evalAll (last : Value) : List Expr → HostM Value
  | [] => pure last
  | e :: rest => do
    let v ← evalTopLevel e
    evalAll v rest

/-- A lazy promise made outside of every call. -/
def makePromise (e : Expr) (env : EnvId) : HostM Value :=
  atTopLevel fun top => allocate (Store.lazyPromise e env .supplied top)

def forcePromise (id : PromiseId) : HostM Value := atTopLevel (force (eval nestingLimit) id)

/-- A call node that stands for a call made by the host. -/
def hostCall (function : Value) : EvalM Expr := onStore do callNode (← constantNode function) []

/-- Calls a function with evaluated arguments. -/
def apply (function : Value) (names : List (Option Name)) (values : List Value) : HostM Value :=
  atTopLevel fun top => do
    let call ← hostCall function
    applyValues (eval nestingLimit) function call names values global top

/-- The frame of a call, with its formals bound and its body not run. -/
def buildFrame (function : Value) (supplied : Supplied) : HostM EnvId :=
  match function with
  | .closure id f definedIn => atTopLevel fun top => do
    let call ← hostCall function
    let slots ← matchSupplied f supplied call
    let (env, record) ←
      enterFrame (.closure id f definedIn) f definedIn call supplied slots top none
    releasing record (pure env)
  | _ => throw (.invalidArgument "only closures have call frames")

def getGlobal? (s : Session) (name : Name) : Option Value :=
  (s.heap.getLocal global name).toOption.join

def getBase? (s : Session) (name : Name) : Option Value :=
  (s.heap.getLocal base name).toOption.join

def defineIn (env : EnvId) (name : Name) (v : Value) : HostM Unit := fun s =>
  match s.heap.define env name v with
  | .ok heap => (.ok (), { s with heap })
  | .error f => (.error f, s)

/-- Binds a global variable, which owns its value. -/
def defineGlobal (name : Name) (v : Value) : HostM Unit := do
  modify fun s => { s with store := s.store.share v }
  defineIn global name v

/-- Adds a builtin and binds it in the base frame. -/
def registerBuiltin (b : Builtin) : HostM Unit := do
  let s ← get
  let (id, builtins) := s.builtins.register b
  set { s with builtins }
  defineIn base b.name (.builtin b.name id)

def raiseInterrupt (s : Session) : Session := { s with interrupt := true }

def setResolver (r : Resolver) (s : Session) : Session := { s with resolver := r }

def clearDiagnostics (s : Session) : Session := { s with diagnostics := [] }

def renderDiagnostics (s : Session) (template : Template) : List String :=
  Diagnostic.render s.diagnostics s.options.diagnosticContext template

/-- The text written since it was last taken. -/
def takeOutput (s : Session) : String × Session := (s.output, { s with output := "" })

/-- The methods that keep frames alive: registered ones and those of the current generics. -/
def methodValues (s : Session) : List Value :=
  s.methods.values ++ s.generics.values.flatMap fun g => (s.tableAt g.table).methods.values

/-- Frees the frames not reachable from the global and base frames and from methods. -/
def collectGarbage (s : Session) : Nat × Session :=
  let (freed, heap) := s.heap.collect s.store [global, base] s.methodValues
  (freed,
    { s with heap, stats := { s.stats with framesCollected := s.stats.framesCollected + freed } })

end Session
end CallByNeed
