import CallByNeed.Builtins.Arguments
import CallByNeed.Store.Identical
import CallByNeed.Store.Ownership
import CallByNeed.Store.Write

/-!
Construction of vectors, access to their elements, and replacement of elements.
-/
namespace CallByNeed.Builtins

/-- The rank of the combination of values: a list if any of them is no vector. -/
def combinedRank (s : Store) (values : List Value) : Nat :=
  (values.map fun v => (v.vector?.map fun id => (s.elements id).rank).getD Elements.listRank).foldl
    max 0

/-- What a value contributes to a list: its children, its elements, or itself. -/
def listPart (v : Value) : StoreM (List Value) := do
  match v with
  | .vector id =>
    let xs := (← get).elements id
    modify (·.shareAll xs.children)
    Store.items xs
  | v => pure [v]

/-- What a value contributes to an atomic vector of a rank. -/
def atomicPart (rank : Nat) (v : Value) : StoreM Elements := do
  let s ← get
  match v with
  | .vector id => pure ((s.elements id).widen rank)
  | v => throw (.invalidArgument s!"cannot combine a {s.typeName v} with atomic values")

/-- Concatenation into the highest ranked type. -/
def combine (args : Arguments) : StoreM Value := do
  let values := args.values.filter (!·.isNull)
  if values.isEmpty then pure .null
  else
    let rank := combinedRank (← get) values
    if rank = Elements.listRank then Store.vector (.list (← values.mapM listPart).flatten)
    else
      let parts ← values.mapM (atomicPart rank)
      Store.vector (parts.foldl Elements.append (Elements.emptyOfRank rank))

/-- A fresh list that owns its elements, with further attributes. -/
def ownedList (values : List Value) (attributes : List (Name × Value)) : StoreM Value := do
  modify (·.shareAll values)
  .vector <$> Store.addVector ⟨.list values, .ofList attributes, .temporary⟩

def namesVector (names : List (Option Name)) : StoreM Value :=
  Store.vector (.character (names.map (·.getD "")))

def makeList (args : Arguments) : StoreM Value := do
  if args.names.any Option.isSome then
    ownedList args.values [("names", ← namesVector args.names)]
  else ownedList args.values []

/-- The strings of the `names` attribute. -/
def names? (s : Store) (id : VectorId) : Option (List String) :=
  (s.attribute? id "names").bind s.strings?

/-- The position from zero that a subscript addresses: a string among the names, or a whole number
from one on. With `append`, the position after the last element counts too. -/
def resolveIndex (s : Store) (id : VectorId) (index : Value) (append : Bool) :
    Except Failure (Option Nat) := do
  match s.string? index with
  | some name => .ok (((names? s id).getD []).findIdx? (· = name))
  | none =>
    match s.number? index with
    | none => .error (.invalidArgument s!"invalid subscript type '{s.typeName index}'")
    | some x =>
      if x < 1 || x - x.floor != 0 then .error .outOfBounds
      else
        let i := x.toUInt64.toNat - 1
        let length := (s.elements id).length
        .ok (if i < length || (append && i = length) then some i else none)

def notSubsettable (s : Store) (v : Value) : Failure :=
  .invalidArgument s!"object of type '{s.typeName v}' is not subsettable"

def element (args : Arguments) : StoreM Value := do
  let target ← args.required "x" 0
  let index ← args.required "i" 1
  let s ← get
  match target with
  | .vector id =>
    match ← resolveIndex s id index false with
    | none => throw .outOfBounds
    | some i =>
      let v := (← Store.element id i).getD .null
      modify (·.adjustChild target v)
      pure v
  | v => throw (notSubsettable s v)

/-- The position of a new element appended under a name. -/
def appendName (id : VectorId) (name : Name) : StoreM Nat := do
  let s ← get
  let length := (s.elements id).length
  let names := (names? s id).getD (List.replicate length "")
  let v ← Store.vector (.character (names ++ [name]))
  Store.setAttribute id "names" (some v)
  pure length

/-- The vector a replacement writes into: a copy if it is shared, a new list for `NULL`. -/
def replacementTarget (v : Value) : StoreM VectorId := do
  match v with
  | .vector id => Store.makeMutable id
  | .null => Store.addVector ⟨.list [], {}, .temporary⟩
  | v => throw (notSubsettable (← get) v)

/-- Whether a list holds this very object at a position. -/
def holdsAt (s : Store) (id : VectorId) (i : Nat) (v : Value) : Bool :=
  ((s.elements id).children[i]?).any (·.same v)

def setElement (args : Arguments) : StoreM Value := do
  let target ← args.required "x" 0
  let index ← args.required "i" 1
  let v ← args.required "value" 2
  let id ← replacementTarget target
  let position ←
    match ← resolveIndex (← get) id index true with
    | some i => pure i
    | none =>
      match (← get).string? index with
      | some name => appendName id name
      | none => throw .outOfBounds
  let s ← get
  if (s.elements id).isList && !holdsAt s id position v then modify (·.share v)
  Store.setElement id position v
  pure (.vector id)

def length (args : Arguments) : StoreM Value := do
  let s ← get
  let n := match args.get? "x" 0 with
    | none | some .null => 0
    | some (.vector id) => (s.elements id).length
    | some (.dots id) => (s.dotsAt id).values.length
    | some _ => 1
  Store.vector (.integer [Int64.ofNat n])

def identical (args : Arguments) : StoreM Value := do
  let x ← args.required "x" 0
  let y ← args.required "y" 1
  Store.logical ((← get).identical x y)

def isNull (args : Arguments) : StoreM Value :=
  Store.logical ((args.get? "x" 0).all Value.isNull)

/-- The first argument, or `NULL`. -/
def identity (args : Arguments) : StoreM Value := pure ((args.get? "x" 0).getD .null)

end CallByNeed.Builtins
