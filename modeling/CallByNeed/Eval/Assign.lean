import CallByNeed.Eval.Strict

/-!
Calls with evaluated arguments, and assignment. Assigning to `f(x, i)` calls the replacement
function of `f` on the current value of `x`, and assigns the result to `x` in turn.
-/
namespace CallByNeed

/-- Calls any function with evaluated arguments. -/
def applyValues (ev : Evaluator) (function : Value) (call : Expr) (names : List (Option Name))
    (values : List Value) (env : EnvId) (caller : RecordId) : EvalM Value := do
  match function with
  | .closure id f definedIn =>
    invokeClosure ev (.closure id f definedIn) f definedIn call ⟨names, values⟩ caller none
  | .builtin name id =>
    let b ← findBuiltin name id
    failIf (!b.isStrict)
      (.invalidArgument s!"'{b.name}' cannot be applied to evaluated arguments")
    invokeStrict ev b call names values env caller true
  | v =>
    let s ← get
    fail (.invalidArgument s!"attempt to apply non-function of type '{s.store.typeName v}'")

/-- The current value of the object a replacement writes into. A value found further out gains an
owner, as the assignment will bind it here too. -/
def replacedValue (ev : Evaluator) (e : Expr) (env : EnvId) (caller : RecordId) (outer : Bool) :
    EvalM Value := do
  match e.symbol? with
  | none => ev e env caller
  | some name =>
    let start ← if outer then (·.getD env) <$> readHeap (·.parent env) else pure env
    match ← readHeap (·.lookup start name) with
    | none => failAt caller (.objectNotFound name)
    | some (foundIn, binding) =>
      let v ← resolveBinding ev name binding caller
      if foundIn ≠ start then modifyStore (·.share v)
      pure v

def evalAll (ev : Evaluator) (env : EnvId) (caller : RecordId) : List Arg → EvalM (List Value)
  | [] => pure []
  | ⟨_, e⟩ :: rest => do
    let v ← ev e env caller
    return v :: (← evalAll ev env caller rest)

/-- The result of a replacement function on the current value, further arguments and the new value.
A builtin makes no dispatch. -/
def replace (ev : Evaluator) (name : Name) (current : Value) (extra : List Arg) (v : Value)
    (env : EnvId) (caller : RecordId) : EvalM Value := do
  let values ← evalAll ev env caller extra
  let names := none :: extra.map (·.name) ++ [some "value"]
  let values := current :: values ++ [v]
  let setter := name ++ "<-"
  let function ← lookupFunction ev setter env caller
  let call ← onStore do callNode (← symbolNode setter) []
  match function with
  | .builtin name id => invokeStrict ev (← findBuiltin name id) call names values env caller false
  | f => applyValues ev f call names values env caller

/-- Assigns a value to a symbol or through replacement calls. -/
def assign (ev : Evaluator) (env : EnvId) (caller : RecordId) (outer : Bool) :
    Expr → Value → EvalM Unit
  | .symbol _ name, v => assignVariable name v env outer
  | .call _ f (⟨_, first⟩ :: extra), v => do
    match f.symbol? with
    | none => failAt caller (.invalidArgument "invalid function in complex assignment")
    | some name =>
      let current ← replacedValue ev first env caller outer
      let updated ← replace ev name current extra v env caller
      assign ev env caller outer first updated
  | .call _ _ [], _ => failAt caller (.invalidArgument "invalid function in complex assignment")
  | _, _ => failAt caller (.invalidArgument "invalid assignment target")

end CallByNeed
