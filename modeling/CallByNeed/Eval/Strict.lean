import CallByNeed.Builtins.Attributes
import CallByNeed.Builtins.Numbers
import CallByNeed.Eval.MethodSearch
import CallByNeed.Source

/-!
Strict builtins: the call of one on evaluated arguments, after its own dispatch on classed ones.
-/
namespace CallByNeed

/-- A call of a strict builtin, under a record of its own. -/
structure StrictCall where
  args : Arguments
  env : EnvId
  record : RecordId

def liftExcept {α : Type} : Except Failure α → EvalM α
  | .ok a => pure a
  | .error f => fail f

/-- The texts of the elements of every argument, without quotation marks. -/
def renderElements (s : Store) (values : List Value) : List String :=
  values.flatMap fun
    | .vector id => s.elementTexts id
    | .null => []
    | v => [s.valueText v]

def write (args : Arguments) : EvalM Value := do
  let s ← get
  let separator := (((args.named? "sep").filter (!·.isMissing)).bind s.store.string?).getD " "
  let values := (args.rest "sep").map (·.2)
  let text := separator.intercalate (renderElements s.store values)
  modify fun s => { s with output := s.output ++ text }
  pure .null

/-- Raises a condition attributed to the calling function. -/
def stop (c : StrictCall) : EvalM Value := do
  let s ← get
  fail (.condition ⟨.user, String.join (renderElements s.store c.args.values), s.errorCall c.record⟩)

/-- Records a warning; the result is its message. -/
def warnBuiltin (c : StrictCall) : EvalM Value := do
  let s ← get
  let message := String.join (renderElements s.store c.args.values)
  warn message (s.errorCall c.record)
  allocate (Store.text message)

def registerMethod (args : Arguments) : EvalM Value := do
  let s ← get
  let generic ← liftExcept (args.requiredString s.store "genname" 0)
  let className ← liftExcept (args.requiredString s.store "class" 1)
  let method ← liftExcept (args.required "method" 2)
  failIf (!method.isFunction) (.invalidArgument "'method' must be a function")
  modify fun s =>
    { s with
      methods := s.methods.insert (generic ++ "." ++ className) method
      methodsVersion := s.methodsVersion + 1 }
  pure .null

def defineClass (args : Arguments) : EvalM Value := do
  let s ← get
  let name ← liftExcept (args.requiredString s.store "Class" 0)
  let superclasses := (args.strings? s.store "contains" 1).getD []
  modify fun s => { s with classes := s.classes.define name superclasses }
  allocate (Store.text name)

/-- A function of the formals `x` and `...` that dispatches on a generic of the given name. -/
def skeleton (name : Name) : Source :=
  .function [⟨"x", none⟩, ⟨"...", none⟩]
    (.call (.symbol "standardGeneric") [⟨none, .text name⟩])

/-- The function of a new generic and the method it starts with. Without a definition, an existing
function of the name becomes the method for all classes. -/
def genericFunction (ev : Evaluator) (name : Name) (definition : Option Value) (c : StrictCall) :
    EvalM (Value × Option Value) := do
  match definition with
  | some (.closure id f env) => pure (.closure id f env, none)
  | some v =>
    let s ← get
    fail (.invalidArgument s!"generic definition must be a function, not a {s.store.typeName v}")
  | none =>
    match ← findFunction ev name c.env c.record with
    | none =>
      fail (.invalidArgument (s!"must supply a function skeleton for '{name}', " ++
        "explicitly or via an existing function"))
    | some existing =>
      let code ← onStore (skeleton name).load
      pure (← ev code Session.global c.record, some existing)

/-- The formals a generic dispatches on: those given, else all but `...`. -/
def dispatchFormals (s : Store) (f : Function) (args : Arguments) : List Name :=
  (args.strings? s "signature" 2).getD (f.names.filter (!Name.isVarargs ·))

/-- The key of the method for all classes of a generic. -/
def anyKey (signature : List Name) : String :=
  dispatchKey (List.replicate (max signature.length 1) anyClass)

def defineGeneric (ev : Evaluator) (name : Name) (definition : Option Value) (c : StrictCall) :
    EvalM Generic := do
  match ← genericFunction ev name definition c with
  | (.closure id f env, default) =>
    let s ← get
    let signature := dispatchFormals s.store f c.args
    let table : MethodTable := {}
    let table := (default.map (table.define (anyKey signature))).getD table
    let generic : Generic := ⟨name, signature, ⟨s.tables.size⟩⟩
    set { s with tables := s.tables.push table, generics := s.generics.insert name generic }
    define Session.global name (.closure id f env)
    pure generic
  | _ => fail (.invalidArgument "generic definition must be a function")

def defineGenericBuiltin (ev : Evaluator) (c : StrictCall) : EvalM Value := do
  let name ← liftExcept (c.args.requiredString (← get).store "name" 0)
  let _ ← defineGeneric ev name (c.args.get? "def" 1) c
  allocate (Store.text name)

/-- Classes filled up to a length with the class that fits every argument. -/
def padClasses (classes : List Name) (length : Nat) : List Name :=
  classes ++ List.replicate (length - classes.length) anyClass

/-- Defines a method, and the generic too if there is none. -/
def defineMethod (ev : Evaluator) (c : StrictCall) : EvalM Value := do
  let s ← get
  let name ← liftExcept (c.args.requiredString s.store "f" 0)
  let signature := (s.store.strings? (← liftExcept (c.args.required "signature" 1))).getD []
  let method ← liftExcept (c.args.required "definition" 2)
  failIf (!method.isFunction) (.invalidArgument "'definition' must be a function")
  let generic ←
    match s.generics.get? name with
    | some generic => pure generic
    | none => defineGeneric ev name none c
  let length := max generic.signature.length 1
  failIf (decide (length < signature.length)) (.invalidArgument
    s!"the method for '{name}' has more arguments in its signature than the generic")
  let key := dispatchKey (padClasses signature length)
  modify fun s => s.setTable generic.table ((s.tableAt generic.table).define key method)
  allocate (Store.text name)

def runHost (op : HostOp) (args : Arguments) : EvalM Value := do
  match op with
  | .interrupt result =>
    modify fun s => { s with interrupt := true }
    match result with
    | some x => allocate (Store.vector (.double [x]))
    | none => pure .null
  | .twice =>
    let xs ← liftExcept (Builtins.twice (← get).store args)
    allocate (Store.vector xs)
  | .countArguments => allocate (Store.vector (.integer [Int64.ofNat args.values.length]))
  | .fail f => fail f

/-- A builtin that makes a fresh vector from numbers. -/
def numeric (f : Store → Arguments → Except Failure Elements) (args : Arguments) : EvalM Value := do
  let xs ← liftExcept (f (← get).store args)
  allocate (Store.vector xs)

/-- What a strict builtin does. -/
def runStrict (ev : Evaluator) (op : StrictOp) (c : StrictCall) : EvalM Value := do
  match op with
  | .combine => onStore (Builtins.combine c.args)
  | .makeList => onStore (Builtins.makeList c.args)
  | .element => onStore (Builtins.element c.args)
  | .setElement => onStore (Builtins.setElement c.args)
  | .length => onStore (Builtins.length c.args)
  | .identical => onStore (Builtins.identical c.args)
  | .isNull => onStore (Builtins.isNull c.args)
  | .getAttribute => onStore (Builtins.getAttribute c.args)
  | .setAttribute => onStore (Builtins.setAttribute c.args)
  | .withAttributes => onStore (Builtins.withAttributes c.args)
  | .classOf => onStore (Builtins.classOf (← get).implicit c.args)
  | .oldClass => onStore (Builtins.oldClass c.args)
  | .setClassOf => onStore (Builtins.setClassOf c.args)
  | .unclass => onStore (Builtins.unclass c.args)
  | .inherits => onStore (Builtins.inherits (← get).implicit c.args)
  | .arithmetic op => numeric (Builtins.arithmetic op) c.args
  | .compare op => numeric (Builtins.compare op) c.args
  | .negate => numeric Builtins.negate c.args
  | .summary op => numeric (Builtins.summary op) c.args
  | .absolute => numeric Builtins.absolute c.args
  | .write => write c.args
  | .stop => stop c
  | .warn => warnBuiltin c
  | .identity => onStore (Builtins.identity c.args)
  | .registerMethod => registerMethod c.args
  | .defineClass => defineClass c.args
  | .defineGeneric => defineGenericBuiltin ev c
  | .defineMethod => defineMethod ev c
  | .newObject => onStore (Builtins.newObject (← get).classes c.args)
  | .host op => runHost op c.args

/-- Attributes a failure inside a builtin to the builtin's call. Conditions raised by the program
belong to the function that raised them. -/
def attributeTo {α : Type} (call : Expr) (m : EvalM α) : EvalM α := do
  match ← observe m with
  | .error (.failure f) =>
    if f.kind? = some .user then fail f else fail (f.withCall (some (← exprText call)))
  | outcome => resume outcome

def findBuiltin (name : Name) (id : Nat) : EvalM Builtin := do
  match (← get).builtins.functions[id]? with
  | some b => pure b
  | none => fail (.internal s!"unknown builtin '{name}'")

/-- Runs a strict builtin under a record of its own. -/
def runBuiltin (ev : Evaluator) (b : Builtin) (op : StrictOp) (call : Expr)
    (names : List (Option Name)) (values : List Value) (env : EnvId) (caller : RecordId) :
    EvalM Value := do
  let eager ← eagerOnly caller
  underRecord (some caller) (some call) (.builtin b.name) fun record => do
    setEagerOnly record eager
    attributeTo call (runStrict ev op ⟨⟨names, values⟩, env, record⟩)

/-- Calls a strict builtin on evaluated arguments, with or without its dispatch on classed ones. -/
def invokeStrict (ev : Evaluator) (b : Builtin) (call : Expr) (names : List (Option Name))
    (values : List Value) (env : EnvId) (caller : RecordId) (dispatch : Bool) : EvalM Value := do
  let dispatched ←
    if dispatch && b.dispatch ≠ .none then dispatchInternal ev b call names values env caller
    else pure none
  match dispatched, b.operation with
  | some v, _ => pure v
  | none, .strict op => runBuiltin ev b op call names values env caller
  | none, .special _ => fail (.internal s!"'{b.name}' is not a strict builtin")

end CallByNeed
