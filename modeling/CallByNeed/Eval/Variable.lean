import CallByNeed.Eval.Force

/-!
Reading and binding variables.
-/
namespace CallByNeed

/-- The value of a binding; a promise is forced. -/
def resolveBinding (ev : Evaluator) (name : Name) (v : Value) (caller : RecordId) : EvalM Value :=
  match v with
  | .missing => failAt caller (.missingArgument name)
  | .promise id => force ev id caller
  | .dots _ => failAt caller .dotsMisused
  | v => pure v

/-- The argument that a name such as `..2` stands for. -/
def readDotIndex (ev : Evaluator) (name : Name) (env : EnvId) (caller : RecordId) : EvalM Value := do
  let index := Name.dotIndex name
  match ← readHeap (·.lookup env Name.varargs) with
  | some (_, .dots id) =>
    let values := ((← get).store.dotsAt id).values
    match if index = 0 then none else values[index - 1]? with
    | some v => resolveBinding ev name v caller
    | none => failAt caller (.invalidArgument s!"the ... list does not contain {index} elements")
  | _ =>
    failAt caller (.invalidArgument s!"..{index} used in an incorrect context, no ... to look in")

def readVariable (ev : Evaluator) (name : Name) (env : EnvId) (caller : RecordId) : EvalM Value := do
  if Name.isVarargs name then failAt caller .dotsMisused
  else if Name.isDotIndex name then readDotIndex ev name env caller
  else match ← readHeap (·.lookup env name) with
    | some (_, v) => resolveBinding ev name v caller
    | none => failAt caller (.objectNotFound name)

/-- The first binding of a name along a chain that is a function; promises on the way are forced. -/
def findFunctionAlong (ev : Evaluator) (name : Name) (caller : RecordId) :
    List EnvId → EvalM (Option Value)
  | [] => pure none
  | env :: rest => do
    match ← readHeap (·.getLocal env name) with
    | none => findFunctionAlong ev name caller rest
    | some v =>
      let v ← forceValue ev v caller
      if v.isFunction then pure (some v) else findFunctionAlong ev name caller rest

def findFunction (ev : Evaluator) (name : Name) (env : EnvId) (caller : RecordId) :
    EvalM (Option Value) := do
  findFunctionAlong ev name caller ((← get).heap.chain env)

def lookupFunction (ev : Evaluator) (name : Name) (env : EnvId) (caller : RecordId) :
    EvalM Value := do
  match ← findFunction ev name env caller with
  | some f => pure f
  | none => failAt caller (.raise .objectNotFound s!"could not find function \"{name}\"")

/-- What an assignment to a name would replace, seen from an environment or above it. -/
def replacedBinding (h : Heap) (name : Name) (env : EnvId) (outer : Bool) :
    Except Failure (Option Value) := do
  if outer then
    match ← h.parent env with
    | some parent => return (← h.lookup parent name).map (·.2)
    | none => return none
  else h.getLocal env name

/-- Whether a binding holds this very object, directly or as the value of a promise. -/
def holdsObject (s : Store) (current v : Value) : Bool :=
  current.same v || (current.promise?.bind fun id => (s.promise id).state.value?).any (·.same v)

/-- Binds a name in an environment or above it. The value gains an owner unless the binding already
holds it. -/
def assignVariable (name : Name) (v : Value) (env : EnvId) (outer : Bool) : EvalM Unit := do
  let current ← readHeap (replacedBinding · name env outer)
  let s ← get
  unless current.any fun c => holdsObject s.store c v do modifyStore (·.share v)
  if outer then updateHeap fun h => (·.2) <$> h.assignOuter env name v
  else define env name v

end CallByNeed
