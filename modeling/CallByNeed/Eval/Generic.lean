import CallByNeed.Eval.Strict

/-!
Dispatch from inside a generic: on the class attribute of its first argument, on to the next method
of such a dispatch, and on the formal classes of several arguments. A method runs in place of the
function that dispatched, with that function's arguments and under its caller.
-/
namespace CallByNeed

/-- A call of a special builtin, unevaluated. -/
structure SpecialCall where
  call : Expr
  args : List Arg
  env : EnvId
  caller : RecordId

namespace SpecialCall

/-- The expression of the argument of a name, or else of the unnamed one at a position. -/
def arg? (c : SpecialCall) (name : Name) (position : Nat) : Option Expr :=
  match c.args.find? (·.name = some name) with
  | some a => some a.value
  | none => ((c.args.filter (·.name.isNone))[position]?).map (·.value)

end SpecialCall

/-- Forces the values of supplied arguments in order. -/
def forceAll (ev : Evaluator) (caller : RecordId) : List Value → EvalM (List Value)
  | [] => pure []
  | v :: rest => do
    let v ← forceValue ev v caller
    return v :: (← forceAll ev caller rest)

/-- Runs a builtin in place of a method, without a dispatch of its own. -/
def callDefaultMethod (ev : Evaluator) (method : Value) (call : Expr) (supplied : Supplied)
    (env : EnvId) (caller : RecordId) : EvalM Value := do
  match method with
  | .builtin name id =>
    let b ← findBuiltin name id
    failIf (!b.isStrict) (.invalidArgument s!"'{b.name}' cannot be used as a default method")
    let values ← forceAll ev caller supplied.values
    invokeStrict ev b call supplied.names values env caller false
  | v =>
    let s ← get
    fail (.invalidArgument s!"method of type '{s.store.typeName v}' cannot be called")

def callMethod (ev : Evaluator) (method : Value) (call : Expr) (supplied : Supplied)
    (parent : RecordId) (context : DispatchContext) : EvalM Value :=
  match method with
  | .closure id f definedIn =>
    invokeClosure ev (.closure id f definedIn) f definedIn call supplied parent (some context)
  | v => callDefaultMethod ev v call supplied context.callEnv parent

/-- The first argument of a generic: its first formal, or the first entry of `...`. -/
def dispatchObject (ev : Evaluator) (f : Function) (env : EnvId) (frame : RecordId) :
    EvalM Value := do
  match f.names with
  | [] => pure .null
  | name :: _ =>
    if Name.isVarargs name then
      match ← readHeap (·.getLocal env name) with
      | some (.dots id) =>
        match ((← get).store.dotsAt id).values with
        | v :: _ => forceValue ev v frame
        | [] => pure .null
      | _ => pure .null
    else readVariable ev name env frame

/-- The arguments a function was called with, its caller and its call. -/
def frameCall (frame : Record) (fallback : Expr) : Supplied × RecordId × Expr :=
  (frame.supplied?.getD {}, frame.parent.getD frame.id, frame.call.getD fallback)

/-- The function record, frame and closure that a generic runs as. -/
def genericFrame (s : Session) (caller : RecordId) : Option (Record × EnvId × Function × EnvId) :=
  match s.records.logicalFunction caller with
  | none => none
  | some frame =>
    match frame.env?, frame.function? with
    | some env, some (.closure _ f definedIn) => some (frame, env, f, definedIn)
    | _, _ => none

/-- The method for a class chain: from the call site's cache, else searched for and remembered. -/
def selectMethod (ev : Evaluator) (search : MethodSearch) (chain : VectorId) (c : SpecialCall) :
    EvalM CachedMethod := do
  let site := c.call.id
  let s ← get
  let stamp : Stamp := ⟨s.heap.functionEpoch + s.methodsVersion, search.scope⟩
  let (cached, cache) := (s.site site).cache.lookup search.generic [s.classView chain] stamp
  set (s.setSite site ({ · with cache := cache }))
  match cached with
  | some m => pure m
  | none =>
    count fun n => { n with classSearches := n.classSearches + 1 }
    match ← findMethod ev search 0 c.caller with
    | none => fail (.raise .dispatchNotFound (s!"no applicable method for '{search.generic}' " ++
        s!"applied to an object of class {describeClasses search.classes}"))
    | some m =>
      modify fun s => s.setSite site fun st =>
        { st with cache := st.cache.insert search.generic [s.classView chain] stamp m }
      pure m

/-- Dispatches on the class of an object and leaves the generic with the method's result. -/
def useMethod (ev : Evaluator) (generic : Name) (object : Option Value) (c : SpecialCall) :
    EvalM Value := do
  match genericFrame (← get) c.caller with
  | none => fail (.invalidArgument "UseMethod called from outside a function")
  | some (frame, env, f, definedIn) =>
    let object ←
      match object with
      | some v => pure v
      | none => dispatchObject ev f env frame.id
    let s ← get
    let chain := s.classOf object
    let classes := s.store.classNames chain
    let callEnv := ((s.records.logicalParent frame.id).bind (·.env?)).getD Session.global
    let group := (s.builtins.lookup? generic).bind (·.dispatch.group?)
    let m ← selectMethod ev ⟨generic, group, classes, [callEnv, definedIn]⟩ chain c
    let context : DispatchContext :=
      ⟨generic, m.group, classes, m.position, object, callEnv, some definedIn⟩
    let (supplied, parent, call) := frameCall frame c.call
    let v ← callMethod ev m.method call supplied parent context
    throw (.leave env v)

/-- A promise for an argument added to those of the current method. -/
def extraPromise (c : SpecialCall) (e : Expr) : EvalM Value :=
  match e.constant? with
  | some v => allocate (Store.evaluatedPromise e v .supplied)
  | none => allocate (Store.lazyPromise e c.env .supplied c.caller)

/-- Adds an argument; one of a name that is there takes its place. -/
def Supplied.add (supplied : Supplied) (name : Option Name) (v : Value) : Supplied :=
  match name.bind fun n => supplied.names.findIdx? (· = some n) with
  | some i => { supplied with values := supplied.values.set i v }
  | none => ⟨supplied.names ++ [name], supplied.values ++ [v]⟩

/-- Whether an argument of a call for the next method names the generic or the object. -/
def isDispatchName (name : Name) : Bool := name = "generic" || name = "object"

/-- The arguments of the current method with those added in the call for the next one. The first two
unnamed ones stand for the generic and the object; entries of `...` are there already. -/
def addExtraArgs (c : SpecialCall) : Nat → Supplied → List Arg → EvalM Supplied
  | _, supplied, [] => pure supplied
  | skipped, supplied, ⟨name, e⟩ :: rest => do
    if name.any isDispatchName then addExtraArgs c skipped supplied rest
    else if name.isNone && decide (skipped < 2) then addExtraArgs c (skipped + 1) supplied rest
    else if e.isVarargs || e.isEmpty then addExtraArgs c skipped supplied rest
    else
      let v ← extraPromise c e
      addExtraArgs c skipped (supplied.add name v) rest

/-- Continues the dispatch that chose the current method with the next class. -/
def nextMethod (ev : Evaluator) (c : SpecialCall) : EvalM Value := do
  let s ← get
  let frame := s.records.logicalFunction c.caller
  match frame, frame.bind (·.dispatch?) with
  | some frame, some context =>
    let search : MethodSearch :=
      ⟨context.generic, context.group, context.classes, context.callEnv :: context.defEnv.toList⟩
    match ← findMethod ev search (context.position + 1) c.caller with
    | none => fail (.raise .dispatchNotFound s!"no more methods for '{context.generic}'")
    | some m =>
      let (supplied, parent, call) := frameCall frame c.call
      let supplied ← addExtraArgs c 0 supplied c.args
      callMethod ev m.method call supplied parent
        { context with group := m.group, position := m.position }
  | _, _ => fail (.invalidArgument "NextMethod called from outside a method dispatch")

/-- The value a formal argument is dispatched on; one left to its default counts as missing. -/
def signatureValue (ev : Evaluator) (env : EnvId) (caller : RecordId) (formal : Name) :
    EvalM Value := do
  match ← readHeap (·.getLocal env formal) with
  | none | some .missing => pure .missing
  | some (.promise id) =>
    if ((← get).store.promise id).origin = .default then pure .missing else force ev id caller
  | some v => pure v

/-- The class chain of each argument of a signature. -/
def signatureChains (ev : Evaluator) (env : EnvId) (caller : RecordId) :
    List Name → EvalM (List VectorId)
  | [] => pure []
  | formal :: rest => do
    let v ← signatureValue ev env caller formal
    let chain := (← get).classOf v
    return chain :: (← signatureChains ev env caller rest)

/-- A signature as messages show it, by the first class of each argument. -/
def signatureText (s : Store) (signature : List Name) (chains : List VectorId) : String :=
  commaSeparated ((signature.zip chains).map fun (formal, chain) =>
    formal ++ " = " ++ describeClasses ((s.classNames chain).take 1))

/-- Dispatches through the table of a generic and the cache of a call site. -/
def selectFormal (generic : Generic) (chains : List VectorId) (site : NodeId) :
    EvalM DispatchResult := modifyGet fun s =>
  let table := s.tableAt generic.table
  let (result, table', cache) := formalDispatch s.resolver s.classes generic.name
    (chains.map s.classView) table (s.site site).cache
  let slow := table'.slowPaths - table.slowPaths
  (result,
    { (s.setTable generic.table table').setSite site ({ · with cache := cache }) with
      stats := { s.stats with formalSlowPaths := s.stats.formalSlowPaths + slow } })

/-- The body of a generic over formal classes. -/
def standardGeneric (ev : Evaluator) (name : Name) (c : SpecialCall) : EvalM Value := do
  let s ← get
  match s.generics.get? name with
  | none => fail (.invalidArgument s!"no generic function found for '{name}'")
  | some generic =>
    let frame := s.records.logicalFunction c.caller
    match frame, frame.bind (·.env?) with
    | some frame, some env =>
      let chains ← signatureChains ev env c.caller generic.signature
      let result ← selectFormal generic chains c.call.id
      let (supplied, parent, call) := frameCall frame c.call
      match result with
      | .found (.closure id f definedIn) =>
        invokeClosure ev (.closure id f definedIn) f definedIn call supplied parent none
      | .found method | .deferred method => callDefaultMethod ev method call supplied env parent
      | .notFound =>
        let signature := signatureText (← get).store generic.signature chains
        fail (.raise .dispatchNotFound
          (s!"unable to find an inherited method for function '{name}' " ++
            s!"for signature '{signature}'"))
    | _, _ =>
      fail (.invalidArgument (s!"call to standardGeneric(\"{name}\") apparently not from the body " ++
        "of that generic function"))

end CallByNeed
