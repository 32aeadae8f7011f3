import CallByNeed.Store

/-!
Writing into containers in place. A shared container refuses every write.
-/
namespace CallByNeed.Store

def ensureWritable (id : VectorId) : StoreM Unit := do
  let state := ((← get).container id).sharing
  if state.isShared then throw (.internal s!"in-place write to a {state.name} container")

def setElements (id : VectorId) (xs : Elements) (s : Store) : Store :=
  s.modifyContainer id fun c => { c with elements := xs }

/-- A list with the element at a position replaced, appended or, for `NULL`, removed. -/
def writeChild (xs : List Value) (i : Nat) (v : Value) : List Value :=
  if v.isNull then xs.eraseIdx i else Elements.write xs i v

/-- Writes into atomic contents the single element of a vector, both widened to the larger of
their ranks. -/
def writeAtomic (id : VectorId) (i : Nat) (v : Value) : StoreM Unit := do
  let s ← get
  let xs := s.elements id
  match v with
  | .vector source =>
    let ys := s.elements source
    if ys.length ≠ 1 then
      throw (.invalidArgument "more elements supplied than there are to replace")
    let rank := max xs.rank ys.rank
    let xs ← coerce xs rank
    let ys ← coerce ys rank
    match xs.writeFirst i ys with
    | some xs => modify (·.setElements id xs)
    | none => throw (.internal "vector coercion produced mismatched types")
  | _ => throw (.invalidArgument s!"cannot store a {s.typeName v} in a {xs.typeName} vector")

/-- Writes the element at a position from zero, or appends at the end. -/
def setElement (id : VectorId) (i : Nat) (v : Value) : StoreM Unit := do
  ensureWritable id
  let xs := (← get).elements id
  if xs.length < i then throw .outOfBounds
  match xs with
  | .list children => modify (·.setElements id (.list (writeChild children i v)))
  | _ => writeAtomic id i v

/-- Sets an attribute, or removes it when the value is absent or `NULL`. -/
def setAttribute (id : VectorId) (name : Name) (v : Option Value) : StoreM Unit := do
  ensureWritable id
  modify (·.modifyContainer id fun c =>
    { c with attributes := match v.filter (!·.isNull) with
      | some v => c.attributes.insert name v
      | none => c.attributes.erase name })

end CallByNeed.Store
