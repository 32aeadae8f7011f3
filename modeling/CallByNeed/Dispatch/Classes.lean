import CallByNeed.Store.Ownership

/-!
Class chains of values: the explicit `class` attribute, or an implicit chain by type. The implicit
chains are made once per session, so repeated dispatch on plain values sees the same vectors.
-/
namespace CallByNeed

structure ImplicitClasses where
  logical : VectorId
  integer : VectorId
  double : VectorId
  character : VectorId
  list : VectorId
  function : VectorId
  null : VectorId
  environment : VectorId
  language : VectorId
  missing : VectorId
deriving Inhabited

namespace ImplicitClasses

def interned (names : List Name) : Alloc VectorId :=
  Store.addVector ⟨.character names, {}, .permanent⟩

def make : Alloc ImplicitClasses := do
  let logical ← interned ["logical"]
  let integer ← interned ["integer", "numeric"]
  let double ← interned ["double", "numeric"]
  let character ← interned ["character"]
  let list ← interned ["list"]
  let function ← interned ["function"]
  let null ← interned ["NULL"]
  let environment ← interned ["environment"]
  let language ← interned ["call"]
  let missing ← interned ["missing"]
  pure { logical, integer, double, character, list, function, null, environment, language, missing }

def ofElements (c : ImplicitClasses) : Elements → VectorId
  | .logical _ => c.logical
  | .integer _ => c.integer
  | .double _ => c.double
  | .character _ => c.character
  | .list _ => c.list

def ofValue (c : ImplicitClasses) (s : Store) : Value → VectorId
  | .vector id => c.ofElements (s.elements id)
  | .closure .. | .builtin .. => c.function
  | .environment _ => c.environment
  | .language _ => c.language
  | .missing => c.missing
  | .null | .promise _ | .dots _ => c.null

end ImplicitClasses

namespace Store

/-- The explicit class attribute of a value, if it has one. -/
def explicitClass? (s : Store) (v : Value) : Option VectorId := v.vector?.bind s.classAttribute?

/-- The class chain of a value. -/
def classOf (s : Store) (implicit : ImplicitClasses) (v : Value) : VectorId :=
  (s.explicitClass? v).getD (implicit.ofValue s v)

def isObject (s : Store) (v : Value) : Bool := (s.explicitClass? v).isSome

def classNames (s : Store) (id : VectorId) : List Name := (s.elements id).strings?.getD []

end Store

/-- The key of a method for one class per argument. -/
def dispatchKey (names : List Name) : String := "#".intercalate names

/-- A class chain as messages show it. -/
def describeClasses : List Name → String
  | [name] => "\"" ++ name ++ "\""
  | names => "\"c(" ++ ", ".intercalate (names.map fun n => "'" ++ n ++ "'") ++ ")\""

end CallByNeed
