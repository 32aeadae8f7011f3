import CallByNeed.Proofs.Running

/-!
Evaluation under guard. A guard runs before every call of a strict builtin that comes to do its work, and
before a builtin is called as a replacement function; all else is evaluated as it is without a guard. A
breakpoint tells some of these calls apart, and its guard raises an alarm before them: an evaluation comes
to the breakpoint if some alarm makes a difference.
-/
namespace CallByNeed

/-- What is run before builtins. -/
structure Guard where
  /-- Before a strict builtin does its work on arguments. -/
  running : StrictOp → Arguments → EvalM Unit
  /-- Before a builtin is called as a replacement function. -/
  replacing : Builtin → EvalM Unit

namespace Guard

/-- Nothing is run. -/
def idle : Guard := ⟨fun _ _ => pure (), fun _ => pure ()⟩

variable (g : Guard) (ev : Evaluator)

/-! Every rule on the way to a call of a strict builtin, with the guard. -/

def runBuiltin (b : Builtin) (op : StrictOp) (call : Expr) (names : List (Option Name))
    (values : List Value) (env : EnvId) (caller : RecordId) : EvalM Value := do
  g.running op ⟨names, values⟩
  CallByNeed.runBuiltin ev b op call names values env caller

/-- What a strict builtin does once its own dispatch has been tried. -/
def afterDispatch (b : Builtin) (call : Expr) (names : List (Option Name)) (values : List Value)
    (env : EnvId) (caller : RecordId) (dispatched : Option Value) : EvalM Value :=
  match dispatched, b.operation with
  | some v, _ => pure v
  | none, .strict op => g.runBuiltin ev b op call names values env caller
  | none, .special _ => fail (.internal s!"'{b.name}' is not a strict builtin")

def invokeStrict (b : Builtin) (call : Expr) (names : List (Option Name)) (values : List Value)
    (env : EnvId) (caller : RecordId) (dispatch : Bool) : EvalM Value := do
  let dispatched ←
    if dispatch && b.dispatch ≠ .none then dispatchInternal ev b call names values env caller
    else pure none
  g.afterDispatch ev b call names values env caller dispatched

def applyValues (function : Value) (call : Expr) (names : List (Option Name)) (values : List Value)
    (env : EnvId) (caller : RecordId) : EvalM Value := do
  match function with
  | .closure id f definedIn =>
    invokeClosure ev (.closure id f definedIn) f definedIn call ⟨names, values⟩ caller none
  | .builtin name id =>
    let b ← findBuiltin name id
    failIf (!b.isStrict)
      (.invalidArgument s!"'{b.name}' cannot be applied to evaluated arguments")
    g.invokeStrict ev b call names values env caller true
  | v =>
    let s ← get
    fail (.invalidArgument s!"attempt to apply non-function of type '{s.store.typeName v}'")

def replace (name : Name) (current : Value) (extra : List Arg) (v : Value) (env : EnvId)
    (caller : RecordId) : EvalM Value := do
  let values ← evalAll ev env caller extra
  let names := none :: extra.map (·.name) ++ [some "value"]
  let values := current :: values ++ [v]
  let setter := name ++ "<-"
  let function ← lookupFunction ev setter env caller
  let call ← onStore do callNode (← symbolNode setter) []
  match function with
  | .builtin name id =>
    let b ← findBuiltin name id
    g.replacing b
    g.invokeStrict ev b call names values env caller false
  | f => g.applyValues ev f call names values env caller

def assign (env : EnvId) (caller : RecordId) (outer : Bool) : Expr → Value → EvalM Unit
  | .symbol _ name, v => assignVariable name v env outer
  | .call _ f (⟨_, first⟩ :: extra), v => do
    match f.symbol? with
    | none => failAt caller (.invalidArgument "invalid function in complex assignment")
    | some name =>
      let current ← replacedValue ev first env caller outer
      let updated ← g.replace ev name current extra v env caller
      assign env caller outer first updated
  | .call _ _ [], _ => failAt caller (.invalidArgument "invalid function in complex assignment")
  | _, _ => failAt caller (.invalidArgument "invalid assignment target")

def callDefaultMethod (method : Value) (call : Expr) (supplied : Supplied) (env : EnvId)
    (caller : RecordId) : EvalM Value := do
  match method with
  | .builtin name id =>
    let b ← findBuiltin name id
    failIf (!b.isStrict) (.invalidArgument s!"'{b.name}' cannot be used as a default method")
    let values ← forceAll ev caller supplied.values
    g.invokeStrict ev b call supplied.names values env caller false
  | v =>
    let s ← get
    fail (.invalidArgument s!"method of type '{s.store.typeName v}' cannot be called")

def callMethod (method : Value) (call : Expr) (supplied : Supplied) (parent : RecordId)
    (context : DispatchContext) : EvalM Value :=
  match method with
  | .closure id f definedIn =>
    invokeClosure ev (.closure id f definedIn) f definedIn call supplied parent (some context)
  | v => g.callDefaultMethod ev v call supplied context.callEnv parent

def dispatchOn (generic : Name) (frame : Record) (env definedIn : EnvId) (c : SpecialCall)
    (object : Value) : EvalM Value := do
  let s ← get
  let chain := s.classOf object
  let classes := s.store.classNames chain
  let callEnv := ((s.records.logicalParent frame.id).bind (·.env?)).getD Session.global
  let group := (s.builtins.lookup? generic).bind (·.dispatch.group?)
  let m ← selectMethod ev ⟨generic, group, classes, [callEnv, definedIn]⟩ chain c
  let context : DispatchContext :=
    ⟨generic, m.group, classes, m.position, object, callEnv, some definedIn⟩
  let (supplied, parent, call) := frameCall frame c.call
  let v ← g.callMethod ev m.method call supplied parent context
  throw (.leave env v)

def useMethod (generic : Name) (object : Option Value) (c : SpecialCall) : EvalM Value := do
  match genericFrame (← get) c.caller with
  | none => fail (.invalidArgument "UseMethod called from outside a function")
  | some (frame, env, f, definedIn) =>
    let object ←
      match object with
      | some v => pure v
      | none => dispatchObject ev f env frame.id
    g.dispatchOn ev generic frame env definedIn c object

def nextMethod (c : SpecialCall) : EvalM Value := do
  let s ← get
  let frame := s.records.logicalFunction c.caller
  match frame, frame.bind (·.dispatch?) with
  | some frame, some context =>
    let search : MethodSearch :=
      ⟨context.generic, context.group, context.classes, context.callEnv :: context.defEnv.toList⟩
    match ← findMethod ev search (context.position + 1) c.caller with
    | none => fail (.raise .dispatchNotFound s!"no more methods for '{context.generic}'")
    | some m =>
      let (supplied, parent, call) := frameCall frame c.call
      let supplied ← addExtraArgs c 0 supplied c.args
      g.callMethod ev m.method call supplied parent
        { context with group := m.group, position := m.position }
  | _, _ => fail (.invalidArgument "NextMethod called from outside a method dispatch")

def standardGeneric (name : Name) (c : SpecialCall) : EvalM Value := do
  let s ← get
  match s.generics.get? name with
  | none => fail (.invalidArgument s!"no generic function found for '{name}'")
  | some generic =>
    let frame := s.records.logicalFunction c.caller
    match frame, frame.bind (·.env?) with
    | some frame, some env =>
      let chains ← signatureChains ev env c.caller generic.signature
      let result ← selectFormal generic chains c.call.id
      let (supplied, parent, call) := frameCall frame c.call
      match result with
      | .found (.closure id f definedIn) =>
        invokeClosure ev (.closure id f definedIn) f definedIn call supplied parent none
      | .found method | .deferred method => g.callDefaultMethod ev method call supplied env parent
      | .notFound =>
        let signature := signatureText (← get).store generic.signature chains
        fail (.raise .dispatchNotFound
          (s!"unable to find an inherited method for function '{name}' " ++
            s!"for signature '{signature}'"))
    | _, _ =>
      fail (.invalidArgument (s!"call to standardGeneric(\"{name}\") apparently not from the body " ++
        "of that generic function"))

def useMethodBuiltin (c : SpecialCall) : EvalM Value := do
  match ← evalArg? ev c "generic" 0 with
  | none => fail (.raise .arity "'UseMethod' called with no arguments")
  | some v =>
    match (← get).store.string? v with
    | none => fail (.invalidArgument "'generic' argument must be a character string")
    | some generic => g.useMethod ev generic (← evalArg? ev c "object" 1) c

def standardGenericBuiltin (c : SpecialCall) : EvalM Value := do
  match ← evalArg? ev c "f" 0 with
  | none => fail (.raise .arity "argument \"f\" is missing, with no default")
  | some v =>
    match (← get).store.string? v with
    | none => fail (.invalidArgument "argument 'f' must be a string")
    | some name => g.standardGeneric ev name c

def runSpecial (op : SpecialOp) (c : SpecialCall) : EvalM Value :=
  match op with
  | .useMethod => g.useMethodBuiltin ev c
  | .nextMethod => g.nextMethod ev c
  | .standardGeneric => g.standardGenericBuiltin ev c
  | op => CallByNeed.runSpecial ev op c

/-- The call of a builtin once it is known to be allowed. -/
def runCalled (b : Builtin) (call : Expr) (args : List Arg) (env : EnvId) (caller : RecordId) :
    EvalM Value :=
  match b.operation with
  | .special op => attributeTo call (g.runSpecial ev op ⟨call, args, env, caller⟩)
  | .strict _ => do
    let (names, values) ← evaluateArgs ev env caller args
    g.invokeStrict ev b call names values env caller true

def callBuiltin (b : Builtin) (call : Expr) (args : List Arg) (env : EnvId) (caller : RecordId) :
    EvalM Value := do
  if !b.isPure then ensureLazy caller
  g.runCalled ev b call args env caller

def evalCall (call f : Expr) (args : List Arg) (env : EnvId) (caller : RecordId) : EvalM Value := do
  checkInterrupt
  match ← calledFunction ev f env caller with
  | .closure id function definedIn =>
    ensureLazy caller
    let (supplied, slots) ← closureArgs ev function call args env caller
    applyClosure ev (.closure id function definedIn) function definedIn call supplied slots caller
      none
  | .builtin name id => g.callBuiltin ev (← findBuiltin name id) call args env caller
  | _ => fail (.internal "non-function reached call dispatch")

def evalStep : Evaluator := fun e env caller =>
  match e with
  | .call id f args => g.evalCall ev (.call id f args) f args env caller
  | .assign _ target value outer => do
    let v ← ev value env caller
    g.assign ev env caller outer target v
    pure v
  | e => CallByNeed.evalStep ev e env caller

/-- Evaluation under guard. -/
def eval : Nat → Evaluator
  | 0 => fun _ _ _ => fail .exhausted
  | depth + 1 => g.evalStep (eval depth)

/-! With nothing to run, evaluation is as it is without a guard. -/

theorem idle_assign (env : EnvId) (caller : RecordId) (outer : Bool) (target : Expr) (v : Value) :
    idle.assign ev env caller outer target v = CallByNeed.assign ev env caller outer target v :=
  match target with
  | .call _ f (⟨_, first⟩ :: extra) => by
    unfold assign CallByNeed.assign
    cases symbol : f.symbol? with
    | none => rfl
    | some setter =>
      exact bind_congr fun current => bind_congr fun updated => idle_assign env caller outer first updated
  | .call _ _ [] | .constant _ _ | .symbol _ _ | .empty _ | .function _ | .block _ _ | .branch _ _ _ _
  | .assign _ _ _ _ => rfl

theorem idle_runSpecial (op : SpecialOp) (c : SpecialCall) :
    idle.runSpecial ev op c = CallByNeed.runSpecial ev op c := by cases op <;> rfl

theorem idle_evalStep : idle.evalStep ev = CallByNeed.evalStep ev := by
  funext e env caller
  cases e with
  | call id f args =>
    refine bind_congr fun _ => bind_congr fun function => ?_
    cases function with
    | builtin name id =>
      refine bind_congr fun b => ?_
      unfold callBuiltin runCalled CallByNeed.callBuiltin
      simp only [idle_runSpecial]
      rfl
    | _ => rfl
  | assign id target value outer =>
    exact bind_congr fun v => by rw [idle_assign]
  | _ => rfl

theorem idle_eval (depth : Nat) : idle.eval depth = CallByNeed.eval depth := by
  induction depth with
  | zero => rfl
  | succ depth ih =>
    change idle.evalStep (idle.eval depth) = CallByNeed.evalStep (CallByNeed.eval depth)
    rw [ih, idle_evalStep]

end Guard

/-! What strict builtins write in place. -/

namespace StrictOp

/-- The vector that a strict builtin writes into: the first argument, a copy of it or a new list. -/
def target? (args : Arguments) (s : Store) : StrictOp → Option VectorId
  | .setElement => into "x" Builtins.replacementTarget
  | .setAttribute | .setClassOf => into "x" Builtins.attributeTarget
  | .withAttributes => into ".Data" Builtins.attributeTarget
  | _ => none
where
  into (name : Name) (target : Value → StoreM VectorId) : Option VectorId :=
    (args.get? name 0).bind fun v => (target v s).1.toOption

/-- The values that it stores there. -/
def stored (args : Arguments) : StrictOp → List Value
  | .setElement | .setAttribute => (args.get? "value" 2).toList
  | .setClassOf => (args.get? "value" 1).toList
  | .withAttributes => (args.rest ".Data").filterMap fun (name, v) => name.map fun _ => v
  | _ => []

/-- What it does to objects. -/
def writer? (args : Arguments) : StrictOp → Option (StoreM Value)
  | .setElement => some (Builtins.setElement args)
  | .setAttribute => some (Builtins.setAttribute args)
  | .setClassOf => some (Builtins.setClassOf args)
  | .withAttributes => some (Builtins.withAttributes args)
  | _ => none

end StrictOp

/-- The failure of a write in place into a vector that is shared. -/
def writeRefused (state : Sharing) : Failure :=
  .internal s!"in-place write to a {state.name} container"

/-- The builtin calls at which an alarm is raised. -/
structure Breakpoint where
  running : Store → StrictOp → Arguments → Prop := fun _ _ _ => False
  replacing : Builtin → Prop := fun _ => False

namespace Breakpoint

/-- A value is stored into a vector that it leads to. -/
def writing (leads : Store → Value → VectorId → Prop) : Breakpoint where
  running s op args := ∃ id, op.target? args s = some id ∧ ∃ v ∈ op.stored args, leads s v id

/-- A vector is stored into itself. -/
def selfWriting : Breakpoint := writing fun _ v id => v = .vector id

/-- A vector is stored into itself, and the write is refused. -/
def refusedSelfWriting : Breakpoint where
  running s op args := selfWriting.running s op args ∧
    ∃ m, op.writer? args = some m ∧ ∃ state, (m s).1 = .error (writeRefused state)

/-- A special builtin is called as a replacement function. -/
def specialSetter (name : Name) : Breakpoint where
  replacing b := b.isStrict = false ∧ b.name = name

open Classical in
/-- The alarm before each of the calls. -/
noncomputable def guard (p : Breakpoint) (alarm : EvalM Unit) : Guard where
  running op args := do if p.running (← get).store op args then alarm
  replacing b := if p.replacing b then alarm else pure ()

/-- At no call there is no alarm. -/
theorem guard_empty (alarm : EvalM Unit) : ({} : Breakpoint).guard alarm = .idle := by
  unfold guard Guard.idle
  simp only [if_false]
  rfl

end Breakpoint

namespace Session

/-- What a host calls, by any evaluator. -/
def evalWith (ev : Evaluator) (e : Expr) (env : EnvId) : HostM Value := fun s =>
  match atTopLevel (ev e env) s with
  | (.ok v, s) => (.ok v, s)
  | (.error f, s) => (.error f, s.reportFailure f)

/-- The evaluation of code from a session comes to a breakpoint: an alarm there makes a difference. -/
def ComesTo (s : Session) (p : Breakpoint) (e : Expr) (env : EnvId) : Prop :=
  ∃ alarm, evalWith ((p.guard alarm).eval nestingLimit) e env s ≠ evalIn e env s

/-- With nothing to run before builtins, this is how code is evaluated. -/
theorem evalIn_eq_guarded (s : Session) (e : Expr) (env : EnvId) :
    evalIn e env s = evalWith (Guard.idle.eval nestingLimit) e env s := by
  rw [Guard.idle_eval]
  rfl

theorem not_comesTo_empty (s : Session) (e : Expr) (env : EnvId) : ¬s.ComesTo {} e env := by
  rintro ⟨alarm, differs⟩
  rw [Breakpoint.guard_empty, ← evalIn_eq_guarded] at differs
  exact differs rfl

end Session
end CallByNeed
