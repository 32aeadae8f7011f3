import CallByNeed.Eval.Generic
import CallByNeed.Eval.Missing

/-!
Special builtins, which receive their call unevaluated.
-/
namespace CallByNeed

/-- The value of the argument of a name or position, if the call has it. -/
def evalArg? (ev : Evaluator) (c : SpecialCall) (name : Name) (position : Nat) :
    EvalM (Option Value) :=
  match c.arg? name position with
  | some e => some <$> ev e c.env c.caller
  | none => pure none

/-- What a caught failure turns into: its text, of a class of its own. -/
def caughtValue (f : Failure) : Alloc Value := do
  let className ← Store.text "try-error"
  .vector <$> Store.addVector
    ⟨.character [f.text ++ "\n"], .ofList [("class", className)], .temporary⟩

/-- Evaluates an expression and catches conditions; others unwind further. -/
def attempt (ev : Evaluator) (c : SpecialCall) : EvalM Value := do
  match c.arg? "expr" 0 with
  | none => pure .null
  | some e =>
    let flag ← evalArg? ev c "silent" 1
    let silent := (flag.bind (← get).store.number?).any (· != 0)
    match ← observe (ev e c.env c.caller) with
    | .error (.failure f) =>
      if f.isCatchable then
        unless silent do modify (·.addDiagnostic ⟨.error, f.text, none, none, some f.code⟩)
        allocate (caughtValue f)
      else fail f
    | outcome => resume outcome

/-- Leaves the function whose frame the call is evaluated in. -/
def leave (ev : Evaluator) (c : SpecialCall) : EvalM Value := do
  let v := (← evalArg? ev c "value" 0).getD .null
  throw (.leave c.env v)

/-- The variable a missingness probe is about: a symbol or a string. -/
def probedName (s : Store) (c : SpecialCall) : Option Name :=
  match c.arg? "x" 0 with
  | some (.symbol _ name) => some name
  | some (.constant _ v) => s.string? v
  | _ => none

def isMissing (c : SpecialCall) : EvalM Value := do
  match probedName (← get).store c with
  | some name =>
    let answer ← isMissingArgument name c.env
    allocate (Store.logical answer)
  | none => fail (.invalidArgument "invalid use of 'missing'")

def currentCall (c : SpecialCall) : EvalM Value := do
  ensureLazy c.caller
  let call := ((← get).records.logicalFunction c.caller).bind (·.call)
  pure ((call.map Value.language).getD .null)

def currentFunction (c : SpecialCall) : EvalM Value := do
  ensureLazy c.caller
  pure ((((← get).records.logicalFunction c.caller).bind (·.function?)).getD .null)

/-- The environment the current function was called from. -/
def parentFrame (c : SpecialCall) : EvalM Value := do
  ensureLazy c.caller
  let records := (← get).records
  let parent := (records.logicalFunction c.caller).bind fun frame => records.logicalParent frame.id
  pure (.environment ((parent.bind (·.env?)).getD Session.global))

/-- The environment of a closure, or the current one. -/
def environment (ev : Evaluator) (c : SpecialCall) : EvalM Value := do
  match ← evalArg? ev c "fun" 0 with
  | none | some .null => pure (.environment c.env)
  | some (.closure _ _ env) => pure (.environment env)
  | some _ => pure .null

def useMethodBuiltin (ev : Evaluator) (c : SpecialCall) : EvalM Value := do
  match ← evalArg? ev c "generic" 0 with
  | none => fail (.raise .arity "'UseMethod' called with no arguments")
  | some v =>
    match (← get).store.string? v with
    | none => fail (.invalidArgument "'generic' argument must be a character string")
    | some generic => useMethod ev generic (← evalArg? ev c "object" 1) c

def standardGenericBuiltin (ev : Evaluator) (c : SpecialCall) : EvalM Value := do
  match ← evalArg? ev c "f" 0 with
  | none => fail (.raise .arity "argument \"f\" is missing, with no default")
  | some v =>
    match (← get).store.string? v with
    | none => fail (.invalidArgument "argument 'f' must be a string")
    | some name => standardGeneric ev name c

/-- What a special builtin does. -/
def runSpecial (ev : Evaluator) (op : SpecialOp) (c : SpecialCall) : EvalM Value :=
  match op with
  | .attempt => attempt ev c
  | .leave => leave ev c
  | .isMissing => isMissing c
  | .currentCall => currentCall c
  | .currentFunction => currentFunction c
  | .parentFrame => parentFrame c
  | .environment => environment ev c
  | .useMethod => useMethodBuiltin ev c
  | .nextMethod => nextMethod ev c
  | .standardGeneric => standardGenericBuiltin ev c
  | .quote => pure (((c.arg? "expr" 0).map Value.language).getD .null)

end CallByNeed
