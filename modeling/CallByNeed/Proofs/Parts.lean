import CallByNeed.Interpreter

/-!
The longer builtins in parts. A part that is looked at from several sides has a name here, and an equation
says how its builtin is put together.
-/
namespace CallByNeed
namespace Builtins

/-- The place that an index stands for. A name that is not there is appended to the names. -/
def place (id : VectorId) (index : Value) : StoreM Nat := do
  match ← resolveIndex (← get) id index true with
  | some i => pure i
  | none =>
    match (← get).string? index with
    | some name => appendName id name
    | none => throw .outOfBounds

/-- Writes a value to a place; a list owns it from then on. -/
def put (id : VectorId) (position : Nat) (v : Value) : StoreM Unit := do
  let s ← get
  if (s.elements id).isList && !holdsAt s id position v then modify (·.share v)
  Store.setElement id position v

theorem put_then (id : VectorId) (position : Nat) (v : Value) : (do
    let s ← get
    if (s.elements id).isList && !holdsAt s id position v then modify (·.share v)
    Store.setElement id position v
    pure (.vector id) : StoreM Value) = (do
    put id position v
    pure (.vector id)) := by
  unfold put
  rw [bind_assoc]
  refine bind_congr fun s => ?_
  split
  · rw [bind_assoc]
  · rfl

theorem setElement_eq (args : Arguments) : setElement args = (do
    let target ← args.required "x" 0
    let index ← args.required "i" 1
    let v ← args.required "value" 2
    let id ← replacementTarget target
    let position ← place id index
    put id position v
    pure (.vector id)) := by
  unfold setElement place
  refine bind_congr fun target => bind_congr fun index => bind_congr fun v => bind_congr fun id => ?_
  rw [bind_assoc]
  refine bind_congr fun s => ?_
  rw [bind_assoc]
  refine bind_congr fun found => ?_
  cases found with
  | some i => exact put_then id i v
  | none =>
    dsimp only
    rw [bind_assoc]
    refine bind_congr fun s => ?_
    cases s.string? index with
    | some name => exact bind_congr fun position => put_then id position v
    | none => exact bind_congr fun position => put_then id position v

/-- A copy of a vector, without its class. -/
def classless (id : VectorId) : StoreM Value := do
  let copy ← Store.duplicate id
  Store.setAttribute copy "class" none
  pure (.vector copy)

/-- The names of the slots of a new object, as an attribute. -/
def slotNames (args : Arguments) : StoreM (List (Name × Value)) := do
  if (slots args).isEmpty then pure [] else do pure [("names", ← namesVector ((slots args).map (·.1)))]

/-- A list of the slots of a new object that carries their names and a class. -/
def ofClass (args : Arguments) (names : List (Name × Value)) (name : Name) : StoreM Value := do
  ownedList ((slots args).map (·.2)) (names ++ [("class", ← Store.text name)])

theorem newObject_eq (classes : ClassRegistry) (args : Arguments) : newObject classes args = (do
    let name ← args.requiredString (← get) "Class" 0
    if !classes.contains name then throw (.invalidArgument s!"undefined class \"{name}\"")
    let names ← slotNames args
    ofClass args names name) := by
  have named (name : Name) : (slotNames args >>= fun names => ofClass args names name) =
      if (slots args).isEmpty then pure [] >>= fun names => ofClass args names name
      else namesVector ((slots args).map (·.1)) >>= fun v =>
        pure [("names", v)] >>= fun names => ofClass args names name := by
    unfold slotNames
    split
    · rfl
    · rw [bind_assoc]
  dsimp only
  simp only [named]
  rfl

end Builtins

/-- Enters a method in the table of a generic, under classes filled up with the class for everything. -/
def enterMethod (name : Name) (classes : List Name) (method : Value) (generic : Generic) : EvalM Value := do
  let length := max generic.signature.length 1
  failIf (decide (length < classes.length)) (.invalidArgument
    s!"the method for '{name}' has more arguments in its signature than the generic")
  let key := dispatchKey (padClasses classes length)
  modify fun s => s.setTable generic.table ((s.tableAt generic.table).define key method)
  allocate (Store.text name)

theorem defineMethod_eq (ev : Evaluator) (c : StrictCall) : defineMethod ev c = (do
    let s ← get
    let name ← liftExcept (c.args.requiredString s.store "f" 0)
    let signature := (s.store.strings? (← liftExcept (c.args.required "signature" 1))).getD []
    let method ← liftExcept (c.args.required "definition" 2)
    failIf (!method.isFunction) (.invalidArgument "'definition' must be a function")
    let generic ←
      match s.generics.get? name with
      | some generic => pure generic
      | none => defineGeneric ev name none c
    enterMethod name signature method generic) := rfl

end CallByNeed
