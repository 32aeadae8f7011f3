import CallByNeed.Eligibility
import CallByNeed.Eval.Variable
import CallByNeed.Matching

/-!
Calls of closures: expansion of `...`, matching of arguments to formals, promises for the arguments,
the frame, and the body. An argument that can only produce a value, for a formal the body always
forces, is evaluated at the call.
-/
namespace CallByNeed

/-- An argument of a call before a promise is made for it. -/
inductive Pending where
  /-- The expression of the argument at a position of the call. -/
  | expr (position : Nat) (e : Expr)
  /-- The missing marker, or an entry of `...`. -/
  | value (v : Value)

/-- The `...` list visible from an environment; an unfilled `...` formal counts as no entries. -/
def visibleDots (env : EnvId) (caller : RecordId) : EvalM Dots := do
  match ← readHeap (·.lookup env Name.varargs) with
  | some (_, .dots id) => return (← get).store.dotsAt id
  | some (_, .missing) => pure ⟨[], []⟩
  | _ => failAt caller .dotsMisused

/-- Names and arguments of a call with `...` expanded, from a position on. -/
def expandArgs (env : EnvId) (caller : RecordId) :
    Nat → List Arg → EvalM (List (Option Name) × List Pending)
  | _, [] => pure ([], [])
  | position, ⟨name, e⟩ :: rest => do
    let (names, pending) ←
      if e.isVarargs then do
        let dots ← visibleDots env caller
        pure (dots.names, dots.values.map Pending.value)
      else if e.isEmpty then pure ([name], [Pending.value .missing])
      else pure ([name], [Pending.expr position e])
    let (moreNames, morePending) ← expandArgs env caller (position + 1) rest
    pure (names ++ moreNames, pending ++ morePending)

/-- How an argument is shown in matching errors: by its expression where that is known. -/
def valueLabel (s : Store) : Value → String
  | .promise id => s.exprText (s.promise id).expr
  | v => s.valueText v

def Pending.label (s : Store) : Pending → String
  | .expr _ e => s.exprText e
  | .value v => valueLabel s v

/-- The arguments a matching error lists, by name and text. -/
def unusedText (names : List (Option Name)) (labels : List String) (unused : List Nat) : String :=
  let shown (i : Nat) : String :=
    named (written names[i]?.join) (labels[i]?.getD "")
  let noun := if unused.length = 1 then "argument" else "arguments"
  "unused " ++ noun ++ " (" ++ commaSeparated (unused.map shown) ++ ")"

/-- A matching error as a condition of the call. -/
def MatchError.toFailure (names : List (Option Name)) (labels : List String) (call : String)
    (e : MatchError) : Failure :=
  match e with
  | .tooManyPositional args => .condition ⟨.arity, unusedText names labels args, some call⟩
  | .unused args => .condition ⟨.unusedArgument, unusedText names labels args, some call⟩
  | e => .condition ⟨.ambiguousNameMatch, e.message, some call⟩

def matchCall (f : Function) (names : List (Option Name)) (labels : List String) (call : Expr) :
    EvalM (List FormalSlot) := do
  let s ← get
  match matchArguments (.ofFormals f.names) (.supplied names) s.options.partialMatching with
  | .ok slots => pure slots
  | .error e => fail (e.toFailure names labels (s.store.exprText call))

def matchSupplied (f : Function) (supplied : Supplied) (call : Expr) : EvalM (List FormalSlot) := do
  matchCall f supplied.names (supplied.values.map (valueLabel (← get).store)) call

/-- Evaluates an argument at the call, for a promise that carries the value. When that needs more
than pure operations on values at hand, the promise is lazy and the call site stays lazy from then
on. When it fails with a condition, the promise is lazy and fails again when it is forced. -/
def eagerArgument (ev : Evaluator) (e : Expr) (env : EnvId) (caller : RecordId) (site : NodeId) :
    EvalM Value := do
  let snapshot ← readHeap (·.versionSnapshot env)
  let previous ← eagerOnly caller
  setEagerOnly caller true
  let outcome ← observe (ev e env caller)
  setEagerOnly caller previous
  match outcome with
  | .ok v =>
    count fun c => { c with eagerPromisesCreated := c.eagerPromisesCreated + 1 }
    allocate (Store.eagerPromise e env caller ⟨v, site, snapshot, false⟩)
  | .error (.failure .cannotOptimize) =>
    failIf previous .cannotOptimize
    modifyStore (·.distrust site)
    count fun c => { c with eagerAborts := c.eagerAborts + 1 }
    allocate (Store.lazyPromise e env .supplied caller)
  | .error (.failure f) =>
    if f.isCatchable then
      count fun c => { c with eagerAborts := c.eagerAborts + 1 }
      allocate (Store.lazyPromise e env .supplied caller)
    else fail f
  | .error u => throw u

/-- For each argument of a call, whether it can only produce a value; worked out once per site. -/
def simpleArgs (site : NodeId) (args : List Arg) : EvalM (List Bool) := do
  let s ← get
  match (s.site site).simpleArgs with
  | some simple => pure simple
  | none =>
    let simple := args.map fun a => a.value.isSimple s.builtins
    set (s.setSite site ({ · with simpleArgs := some simple }))
    pure simple

/-- For each formal of a function, whether its body always forces it; worked out once. -/
def forcedFormals (f : Function) : EvalM (List Bool) := do
  let s ← get
  match s.forced.get? f.node with
  | some forced => pure forced
  | none =>
    let forced := f.alwaysForced s.builtins
    set { s with forced := s.forced.insert f.node forced }
    pure forced

/-- The promise for one argument, or the value it already is. `early` tells which arguments may be
evaluated at the call. -/
def argumentValue (ev : Evaluator) (env : EnvId) (caller : RecordId) (site : NodeId)
    (early : Nat → Nat → Bool) (index : Nat) (pending : Pending) : EvalM Value := do
  match pending with
  | .value v => pure v
  | .expr position e =>
    match e.constant? with
    | some v => allocate (Store.evaluatedPromise e v .supplied)
    | none =>
      if early index position && (← get).store.trusts site then eagerArgument ev e env caller site
      else allocate (Store.lazyPromise e env .supplied caller)

def argumentValues (ev : Evaluator) (env : EnvId) (caller : RecordId) (site : NodeId)
    (early : Nat → Nat → Bool) : Nat → List Pending → EvalM (List Value)
  | _, [] => pure []
  | index, p :: rest => do
    let v ← argumentValue ev env caller site early index p
    return v :: (← argumentValues ev env caller site early (index + 1) rest)

/-- No argument may be evaluated at the call. -/
def never (_ _ : Nat) : Bool := false

/-- The values of the arguments of a call, where those that can only produce a value, for formals the
body always forces, may be evaluated at the call. -/
def plannedValues (ev : Evaluator) (env : EnvId) (caller : RecordId) (site : NodeId) (f : Function)
    (args : List Arg) (slots : List FormalSlot) (pending : List Pending) : EvalM (List Value) := do
  let simple ← simpleArgs site args
  let forced ← forcedFormals f
  let early (index position : Nat) : Bool :=
    simple[position]?.getD false && (formalOf? slots index).any fun i => forced[i]?.getD false
  argumentValues ev env caller site early 0 pending

/-- The values of the arguments of a call. Evaluating any of them early takes a call site that is
trusted and a record that is there to carry the flag. -/
def suppliedValues (ev : Evaluator) (env : EnvId) (caller : RecordId) (site : NodeId) (f : Function)
    (args : List Arg) (slots : List FormalSlot) (pending : List Pending) : EvalM (List Value) := do
  let s ← get
  if s.options.eagerPromises && s.store.trusts site && s.records.contains caller then
    plannedValues ev env caller site f args slots pending
  else argumentValues ev env caller site never 0 pending

/-- The supplied arguments of a closure call and the slots they were matched to. -/
def closureArgs (ev : Evaluator) (f : Function) (call : Expr) (args : List Arg) (env : EnvId)
    (caller : RecordId) : EvalM (Supplied × List FormalSlot) := do
  let (names, pending) ← expandArgs env caller 0 args
  let slots ← matchCall f names (pending.map (Pending.label (← get).store)) call
  let values ← suppliedValues ev env caller call.id f args slots pending
  pure (⟨names, values⟩, slots)

def recursionLimit : Failure := .raise .recursionLimit
  "evaluation nested too deeply: infinite recursion / options(expressions=)?"

/-- What a formal is bound to: matched arguments, a promise for its default, the missing marker or
the `...` list. -/
def formalValue (supplied : Supplied) (env : EnvId) (record : RecordId) (formal : Formal)
    (slot : FormalSlot) : EvalM Value := do
  let unsupplied : EvalM Value :=
    match formal.default with
    | none => pure .missing
    | some e =>
      match e.constant? with
      | some v => allocate (Store.evaluatedPromise e v .default)
      | none => allocate (Store.lazyPromise e env .default record)
  match slot with
  | .varargs indices =>
    .dots <$> allocate (Store.addDots
      ⟨indices.map fun i => supplied.names[i]?.join,
        indices.map fun i => supplied.values[i]?.getD .missing⟩)
  | .supplied i =>
    let v := supplied.values[i]?.getD .missing
    if v.isMissing then unsupplied else pure v
  | .unfilled => unsupplied

def bindFormals (supplied : Supplied) (env : EnvId) (record : RecordId) :
    List Formal → List FormalSlot → EvalM Unit
  | [], _ => pure ()
  | formal :: formals, slots => do
    let v ← formalValue supplied env record formal (slots.head?.getD .unfilled)
    define env formal.name v
    bindFormals supplied env record formals slots.tail

/-- Binds the names by which a method sees the dispatch that chose it. -/
def bindDispatch (env : EnvId) (context : DispatchContext) : EvalM Unit := do
  define env ".Generic" (← allocate (Store.text context.generic))
  define env ".Class"
    (← allocate (Store.vector (.character (context.classes.drop context.position))))

/-- Makes the frame of a call and its record, and binds every formal. -/
def enterFrame (closure : Value) (f : Function) (definedIn : EnvId) (call : Expr)
    (supplied : Supplied) (slots : List FormalSlot) (caller : RecordId)
    (dispatch : Option DispatchContext) : EvalM (EnvId × RecordId) := do
  let s ← get
  if s.options.maxDepth ≤ s.records.depth caller then
    fail (recursionLimit.withCall (some (s.store.exprText call)))
  let env ← allocFrame definedIn
  let record ← pushRecord (some caller) (some call) (.function env closure supplied dispatch)
  bindFormals supplied env record f.formals slots
  match dispatch with
  | some context => bindDispatch env context
  | none => pure ()
  pure (env, record)

/-- Runs the body of a closure in a new frame. Leaving that frame ends the call with its value. -/
def applyClosure (ev : Evaluator) (closure : Value) (f : Function) (definedIn : EnvId) (call : Expr)
    (supplied : Supplied) (slots : List FormalSlot) (caller : RecordId)
    (dispatch : Option DispatchContext) : EvalM Value := do
  let (env, record) ← enterFrame closure f definedIn call supplied slots caller dispatch
  match ← observe (releasing record (ev f.body env record)) with
  | .error (.leave target v) => if target = env then pure v else throw (.leave target v)
  | outcome => resume outcome

/-- Calls a closure with arguments that are already promises or values. -/
def invokeClosure (ev : Evaluator) (closure : Value) (f : Function) (definedIn : EnvId)
    (call : Expr) (supplied : Supplied) (caller : RecordId) (dispatch : Option DispatchContext) :
    EvalM Value := do
  ensureLazy caller
  let slots ← matchSupplied f supplied call
  applyClosure ev closure f definedIn call supplied slots caller dispatch

end CallByNeed
