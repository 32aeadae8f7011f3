import CallByNeed.Eval.Closure

/-!
The search for a method by class: for each class in order the method of the generic itself, then
one of its group; after the classes the default method and the builtin of the generic's name.
-/
namespace CallByNeed

/-- Where and how methods are searched for. -/
structure MethodSearch where
  generic : Name
  group : Option Name
  classes : List Name
  scope : List EnvId

/-- A function visible from one of the environments, else a registered method. -/
def findMethodFunction (ev : Evaluator) (name : Name) (caller : RecordId) :
    List EnvId → EvalM (Option Value)
  | [] => return (← get).methods.get? name
  | env :: rest => do
    match ← findFunction ev name env caller with
    | some f => pure (some f)
    | none => findMethodFunction ev name caller rest

/-- The method for one class. -/
def findForClass (ev : Evaluator) (search : MethodSearch) (caller : RecordId) (position : Nat)
    (className : Name) : EvalM (Option CachedMethod) := do
  let own := search.generic ++ "." ++ className
  match ← findMethodFunction ev own caller search.scope with
  | some f => pure (some ⟨f, own, position, none, false⟩)
  | none =>
    match search.group with
    | none => pure none
    | some group =>
      let target := group ++ "." ++ className
      match ← findMethodFunction ev target caller search.scope with
      | some f => pure (some ⟨f, target, position, some group, false⟩)
      | none => pure none

/-- The method of the first class that has one, of classes paired with their positions. -/
def findAmong (ev : Evaluator) (search : MethodSearch) (caller : RecordId) :
    List (Name × Nat) → EvalM (Option CachedMethod)
  | [] => pure none
  | (className, position) :: rest => do
    match ← findForClass ev search caller position className with
    | some m => pure (some m)
    | none => findAmong ev search caller rest

/-- The method for the classes from a position on. -/
def findClassMethod (ev : Evaluator) (search : MethodSearch) (start : Nat) (caller : RecordId) :
    EvalM (Option CachedMethod) :=
  findAmong ev search caller (search.classes.zipIdx.drop start)

/-- The builtin a generic falls back to. -/
def builtinMethod (search : MethodSearch) : EvalM (Option CachedMethod) := do
  match ← readHeap (·.getLocal Session.base search.generic) with
  | some (.builtin name id) =>
    pure (some ⟨.builtin name id, search.generic, search.classes.length + 1, none, true⟩)
  | _ => pure none

/-- The default method, unless the search starts after it. -/
def defaultMethod (ev : Evaluator) (search : MethodSearch) (start : Nat) (caller : RecordId) :
    EvalM (Option CachedMethod) := do
  let target := search.generic ++ ".default"
  if start ≤ search.classes.length then
    match ← findMethodFunction ev target caller search.scope with
    | some f => pure (some ⟨f, target, search.classes.length, none, false⟩)
    | none => pure none
  else pure none

/-- The method for the classes from a position on, else the default method, else the builtin. -/
def findMethod (ev : Evaluator) (search : MethodSearch) (start : Nat) (caller : RecordId) :
    EvalM (Option CachedMethod) := do
  match ← findClassMethod ev search start caller with
  | some m => pure (some m)
  | none =>
    match ← defaultMethod ev search start caller with
    | some m => pure (some m)
    | none => builtinMethod search

/-- A classed operand together with the method found for it. -/
structure OperandMethod where
  object : Value
  classes : List Name
  found : CachedMethod

/-- The methods found for the classed ones of some operands. -/
def operandMethods (ev : Evaluator) (b : Builtin) (env : EnvId) (caller : RecordId) :
    List Value → EvalM (List OperandMethod)
  | [] => pure []
  | v :: rest => do
    let s ← get
    if s.store.isObject v then
      let classes := s.store.classNames (s.classOf v)
      let found ← findClassMethod ev ⟨b.name, b.dispatch.group?, classes, [env]⟩ 0 caller
      let others ← operandMethods ev b env caller rest
      match found with
      | some m => pure (⟨v, classes, m⟩ :: others)
      | none => pure others
    else operandMethods ev b env caller rest

/-- The number of arguments a builtin dispatches on. -/
def InternalDispatch.operands : InternalDispatch → Nat
  | none => 0
  | ops => 2
  | _ => 1

/-- The method to run of those found for the operands. Two different methods are incompatible, and
none runs. -/
def chooseMethod (b : Builtin) (call : Expr) (caller : RecordId) :
    List OperandMethod → EvalM (Option OperandMethod)
  | [] => pure none
  | [only] => pure (some only)
  | lhs :: rhs :: _ => do
    if lhs.found.method.same rhs.found.method then pure (some lhs)
    else
      ensureLazy caller
      warn (s!"Incompatible methods (\"{lhs.found.target}\", \"{rhs.found.target}\") for " ++
        s!"\"{b.name}\"") (some (← exprText call))
      pure none

/-- The dispatch of a builtin on its classed arguments. Without a closure as method, the builtin
runs itself. -/
def dispatchInternal (ev : Evaluator) (b : Builtin) (call : Expr) (names : List (Option Name))
    (values : List Value) (env : EnvId) (caller : RecordId) : EvalM (Option Value) := do
  let found ← operandMethods ev b env caller (values.take b.dispatch.operands)
  match ← chooseMethod b call caller found with
  | some ⟨object, classes, m⟩ =>
    match m.method with
    | .closure id f definedIn =>
      let context : DispatchContext := ⟨b.name, m.group, classes, m.position, object, env, none⟩
      modifyStore (·.shareAll values)
      some <$> invokeClosure ev (.closure id f definedIn) f definedIn call ⟨names, values⟩ caller
        (some context)
    | _ => pure none
  | none => pure none

end CallByNeed
