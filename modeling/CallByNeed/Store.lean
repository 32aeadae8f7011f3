import CallByNeed.Elements
import CallByNeed.Failure
import CallByNeed.Sharing
import CallByNeed.Table

/-!
The store of mutable objects: vectors with attributes and a sharing state, promises, and the lists
bound to `...`. It also hands out the identities of closures and expression nodes, and remembers
which call sites have given up eager evaluation.
-/
namespace CallByNeed

abbrev Attributes := Table Name Value

/-- A vector with its attributes. -/
structure Container where
  elements : Elements
  attributes : Attributes := {}
  sharing : Sharing := .temporary
deriving Inhabited

inductive PromiseState where
  | unevaluated (env : EnvId)
  | underEvaluation (env : EnvId)
  | evaluated (value : Value)

/-- An id without a promise reads as one that is evaluated, so nothing is forced through it. -/
instance : Inhabited PromiseState := ⟨.evaluated .null⟩

/-- Whether a promise wraps a supplied argument or the default of a formal. -/
inductive Origin where
  | supplied
  | default
deriving DecidableEq, Repr, Inhabited

/-- A value computed before its first use. It stands for the promise's value while the call site
`site` is trusted and the frames of the snapshot have kept their versions. -/
structure EagerValue where
  value : Value
  site : NodeId
  snapshot : List (EnvId × Nat)
  deoptimized : Bool := false
deriving Inhabited

structure Promise where
  expr : Expr
  state : PromiseState
  origin : Origin
  /-- The call record the promise was made under; that record may be gone. -/
  caller : Option RecordId := none
  eager : Option EagerValue := none
deriving Inhabited

/-- What is bound to `...`. -/
structure Dots where
  names : List (Option Name)
  values : List Value
deriving Inhabited

structure Store where
  vectors : Array Container := #[]
  promises : Array Promise := #[]
  dots : Array Dots := #[]
  closures : Nat := 0
  nodes : Nat := 0
  distrusted : List NodeId := []
deriving Inhabited

abbrev Alloc := StateM Store

abbrev StoreM := ExceptT Failure (StateM Store)

namespace Store

def container (s : Store) (id : VectorId) : Container := s.vectors[id.index]?.getD default

def promise (s : Store) (id : PromiseId) : Promise := s.promises[id.index]?.getD default

def dotsAt (s : Store) (id : DotsId) : Dots := s.dots[id.index]?.getD default

def elements (s : Store) (id : VectorId) : Elements := (s.container id).elements

def attribute? (s : Store) (id : VectorId) (name : Name) : Option Value :=
  (s.container id).attributes.get? name

def modifyContainer (id : VectorId) (f : Container → Container) (s : Store) : Store :=
  { s with vectors := s.vectors.modify id.index f }

def modifyPromise (id : PromiseId) (f : Promise → Promise) (s : Store) : Store :=
  { s with promises := s.promises.modify id.index f }

def addVector (c : Container) : Alloc VectorId := fun s =>
  (⟨s.vectors.size⟩, { s with vectors := s.vectors.push c })

def addPromise (p : Promise) : Alloc PromiseId := fun s =>
  (⟨s.promises.size⟩, { s with promises := s.promises.push p })

def addDots (d : Dots) : Alloc DotsId := fun s =>
  (⟨s.dots.size⟩, { s with dots := s.dots.push d })

def freshNode : Alloc NodeId := fun s => (⟨s.nodes⟩, { s with nodes := s.nodes + 1 })

/-- A fresh temporary vector without attributes. -/
def vector (xs : Elements) : Alloc Value := .vector <$> addVector ⟨xs, {}, .temporary⟩

def logical (b : Bool) : Alloc Value := vector (.logical [b])

def text (t : String) : Alloc Value := vector (.character [t])

def closure (f : Function) (env : EnvId) : Alloc Value := fun s =>
  (.closure ⟨s.closures⟩ f env, { s with closures := s.closures + 1 })

/-- The children of a list, or a fresh vector for each element of atomic contents. -/
def items : Elements → Alloc (List Value)
  | .list xs => pure xs
  | xs => xs.singletons.mapM vector

/-- An element by its position from zero; that of an atomic vector is a fresh vector. -/
def element (id : VectorId) (i : Nat) : Alloc (Option Value) := do
  match (← get).elements id with
  | .list xs => pure xs[i]?
  | xs => xs.singletons[i]?.mapM vector

/-- Contents converted up to a rank; into a list, atomic elements become fresh vectors. -/
def coerce (xs : Elements) (rank : Nat) : Alloc Elements :=
  if xs.isList then pure xs
  else if rank < Elements.listRank then pure (xs.widen rank)
  else .list <$> items xs

/-- The `class` attribute, if it is a nonempty character vector. -/
def classAttribute? (s : Store) (id : VectorId) : Option VectorId :=
  match s.attribute? id "class" with
  | some (.vector c) =>
    match s.elements c with
    | .character (_ :: _) => some c
    | _ => none
  | _ => none

def strings? (s : Store) (v : Value) : Option (List String) :=
  v.vector?.bind fun id => (s.elements id).strings?

/-- The first string of a character vector. -/
def string? (s : Store) (v : Value) : Option String := (s.strings? v).bind List.head?

/-- The number a numeric vector of length one holds. -/
def number? (s : Store) (v : Value) : Option Float :=
  v.vector?.bind fun id => (s.elements id).number?

def typeName (s : Store) : Value → String
  | .null => "NULL"
  | .missing => "missing"
  | .vector id => (s.elements id).typeName
  | .closure .. => "closure"
  | .builtin .. => "builtin"
  | .promise _ => "promise"
  | .environment _ => "environment"
  | .dots _ => "..."
  | .language _ => "language"

end Store
end CallByNeed
