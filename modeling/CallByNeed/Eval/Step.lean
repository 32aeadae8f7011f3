import CallByNeed.Eval.Assign
import CallByNeed.Eval.Special

/-!
The evaluator. One step evaluates an expression by an evaluator for what is nested in it; the whole
evaluator nests steps up to a given depth.
-/
namespace CallByNeed

/-- Whether the test of a branch holds. -/
def truth (s : Store) (v : Value) : Except Failure Bool :=
  match v.vector?.map s.elements with
  | some (.logical (b :: _)) => .ok b
  | some (.integer (n :: _)) => .ok (n != 0)
  | some (.double (x :: _)) =>
    if x.isNaN then .error (.invalidArgument "missing value where TRUE/FALSE needed")
    else .ok (x != 0)
  | some (.character (_ :: _)) | some (.list (_ :: _)) =>
    .error (.invalidArgument "argument is not interpretable as logical")
  | _ => .error (.invalidArgument "argument is of length zero")

/-- Evaluates the arguments of a strict builtin in order, with `...` expanded and its promises
forced. -/
def evaluateArgs (ev : Evaluator) (env : EnvId) (caller : RecordId) :
    List Arg → EvalM (List (Option Name) × List Value)
  | [] => pure ([], [])
  | ⟨name, e⟩ :: rest => do
    let (names, values) ←
      if e.isVarargs then do
        let dots ← visibleDots env caller
        let entries := dots.names.zip dots.values
        pure (entries.map (·.1), ← forceAll ev caller (entries.map (·.2)))
      else if e.isEmpty then pure ([name], [Value.missing])
      else do pure ([name], [← ev e env caller])
    let (moreNames, moreValues) ← evaluateArgs ev env caller rest
    pure (names ++ moreNames, values ++ moreValues)

def callBuiltin (ev : Evaluator) (b : Builtin) (call : Expr) (args : List Arg) (env : EnvId)
    (caller : RecordId) : EvalM Value := do
  if !b.isPure then ensureLazy caller
  match b.operation with
  | .special op => attributeTo call (runSpecial ev op ⟨call, args, env, caller⟩)
  | .strict _ =>
    let (names, values) ← evaluateArgs ev env caller args
    invokeStrict ev b call names values env caller true

/-- The function of a call: looked up among functions for a symbol, evaluated otherwise. -/
def calledFunction (ev : Evaluator) (f : Expr) (env : EnvId) (caller : RecordId) : EvalM Value := do
  match f.symbol? with
  | some name => lookupFunction ev name env caller
  | none =>
    let v ← ev f env caller
    if v.isFunction then pure v
    else failAt caller (.invalidArgument "attempt to apply non-function")

def evalCall (ev : Evaluator) (call f : Expr) (args : List Arg) (env : EnvId) (caller : RecordId) :
    EvalM Value := do
  checkInterrupt
  match ← calledFunction ev f env caller with
  | .closure id function definedIn =>
    ensureLazy caller
    let (supplied, slots) ← closureArgs ev function call args env caller
    applyClosure ev (.closure id function definedIn) function definedIn call supplied slots caller
      none
  | .builtin name id => callBuiltin ev (← findBuiltin name id) call args env caller
  | _ => fail (.internal "non-function reached call dispatch")

/-- The value of the last of some expressions, evaluated in order. -/
def evalBlock (ev : Evaluator) (env : EnvId) (caller : RecordId) : Value → List Expr → EvalM Value
  | last, [] => pure last
  | _, e :: rest => do
    let v ← ev e env caller
    evalBlock ev env caller v rest

def evalBranch (ev : Evaluator) (test yes : Expr) (no : Option Expr) (env : EnvId)
    (caller : RecordId) : EvalM Value := do
  let v ← ev test env caller
  match truth (← get).store v with
  | .error f => failAt caller f
  | .ok true => ev yes env caller
  | .ok false =>
    match no with
    | some e => ev e env caller
    | none => pure .null

def evalStep (ev : Evaluator) : Evaluator := fun e env caller =>
  match e with
  | .constant _ v => pure v
  | .symbol _ name => readVariable ev name env caller
  | .empty _ => pure .missing
  | .call id f args => evalCall ev (.call id f args) f args env caller
  | .function f => allocate (Store.closure f env)
  | .block _ body => evalBlock ev env caller .null body
  | .branch _ test yes no => evalBranch ev test yes no env caller
  | .assign _ target value outer => do
    let v ← ev value env caller
    assign ev env caller outer target v
    pure v

/-- Evaluation with steps nested up to a depth. -/
def eval : Nat → Evaluator
  | 0 => fun _ _ _ => fail .exhausted
  | depth + 1 => evalStep (eval depth)

end CallByNeed
