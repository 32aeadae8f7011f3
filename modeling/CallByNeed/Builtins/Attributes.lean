import CallByNeed.Builtins.Vectors
import CallByNeed.Dispatch.Classes
import CallByNeed.Dispatch.ClassRegistry

/-!
Attributes and classes.
-/
namespace CallByNeed.Builtins

/-- The vector an attribute is written to: a copy if it is shared. -/
def attributeTarget (v : Value) : StoreM VectorId := do
  match v with
  | .vector id => Store.makeMutable id
  | .null => throw (.invalidArgument "attempt to set an attribute on NULL")
  | v =>
    let s ← get
    throw (.invalidArgument s!"cannot set attributes on a {s.typeName v}")

/-- Stores an attribute, which owns its value. -/
def storeAttribute (id : VectorId) (name : Name) (v : Value) : StoreM Unit := do
  unless ((← get).attribute? id name).any (·.same v) do modify (·.share v)
  Store.setAttribute id name (some v)

/-- Stores an attribute, or removes it when the value is absent or `NULL`. -/
def replaceAttribute (id : VectorId) (name : Name) (v : Option Value) : StoreM Unit :=
  match v.filter (!·.isNull) with
  | some v => storeAttribute id name v
  | none => Store.setAttribute id name none

def getAttribute (args : Arguments) : StoreM Value := do
  let target ← args.required "x" 0
  let which ← args.requiredString (← get) "which" 1
  let s ← get
  let v := (target.vector?.bind fun id => s.attribute? id which).getD .null
  modify (·.adjustChild target v)
  pure v

def setAttribute (args : Arguments) : StoreM Value := do
  let id ← attributeTarget (← args.required "x" 0)
  let which ← args.requiredString (← get) "which" 1
  replaceAttribute id which (args.get? "value" 2)
  pure (.vector id)

/-- The first argument with the named ones as attributes. -/
def withAttributes (args : Arguments) : StoreM Value := do
  let id ← attributeTarget (← args.required ".Data" 0)
  (args.rest ".Data").forM fun (name, v) =>
    match name with
    | some name => replaceAttribute id name (some v)
    | none => pure ()
  pure (.vector id)

/-- The class shown for a value without a class attribute. -/
def implicitClassName : List Name → Name
  | ["double", numeric] => numeric
  | name :: _ => name
  | [] => "NULL"

def classOf (implicit : ImplicitClasses) (args : Arguments) : StoreM Value := do
  let target := (args.get? "x" 0).getD .null
  let s ← get
  match s.explicitClass? target with
  | some id =>
    modify (·.adjustChild target (.vector id))
    pure (.vector id)
  | none => Store.text (implicitClassName (s.classNames (implicit.ofValue s target)))

def oldClass (args : Arguments) : StoreM Value := do
  match args.get? "x" 0 with
  | none => pure .null
  | some target =>
    let classes := (((← get).explicitClass? target).map Value.vector).getD .null
    modify (·.adjustChild target classes)
    pure classes

def setClassOf (args : Arguments) : StoreM Value := do
  let id ← attributeTarget (← args.required "x" 0)
  replaceAttribute id "class" (args.get? "value" 1)
  pure (.vector id)

/-- A copy without the class attribute, if there is one. -/
def unclass (args : Arguments) : StoreM Value := do
  let target ← args.required "x" 0
  match target with
  | .vector id =>
    if ((← get).classAttribute? id).isNone then pure target
    else
      let copy ← Store.duplicate id
      Store.setAttribute copy "class" none
      pure (.vector copy)
  | v => pure v

def inherits (implicit : ImplicitClasses) (args : Arguments) : StoreM Value := do
  let target ← args.required "x" 0
  let what ← args.required "what" 1
  let s ← get
  let what := (s.strings? what).getD []
  Store.logical ((s.classNames (s.classOf implicit target)).any what.contains)

/-- The slots of a new object: the arguments other than its class. -/
def slots (args : Arguments) : List (Option Name × Value) :=
  let rest := args.rest "Class"
  if args.names.contains (some "Class") then rest else rest.eraseP (·.1.isNone)

/-- A list of the named slots that carries the class. -/
def newObject (classes : ClassRegistry) (args : Arguments) : StoreM Value := do
  let name ← args.requiredString (← get) "Class" 0
  if !classes.contains name then throw (.invalidArgument s!"undefined class \"{name}\"")
  let slots := slots args
  let names ←
    if slots.isEmpty then pure [] else do pure [("names", ← namesVector (slots.map (·.1)))]
  ownedList (slots.map (·.2)) (names ++ [("class", ← Store.text name)])

end CallByNeed.Builtins
