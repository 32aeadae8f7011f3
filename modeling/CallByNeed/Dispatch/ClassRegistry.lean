import CallByNeed.Name
import CallByNeed.Table

/-!
Formal classes and their declared superclasses. A class may name superclasses that are not declared
themselves, and declarations may form cycles.
-/
namespace CallByNeed

structure ClassRegistry where
  /-- The direct superclasses of each declared class, nearest first. -/
  classes : Table Name (List Name) := {}

namespace ClassRegistry

def define (r : ClassRegistry) (name : Name) (superclasses : List Name) : ClassRegistry :=
  ⟨r.classes.insert name superclasses⟩

/-- The registry every session starts with. -/
def basic : ClassRegistry :=
  let plain := ["numeric", "logical", "character", "list", "function", "NULL", "missing"]
  let r : ClassRegistry := plain.foldl (fun (r : ClassRegistry) name => r.define name []) {}
  (r.define "integer" ["numeric"]).define "double" ["numeric"]

def contains (r : ClassRegistry) (name : Name) : Bool := r.classes.contains name

def get? (r : ClassRegistry) (name : Name) : Option (List Name) := r.classes.get? name

def superclasses (r : ClassRegistry) (name : Name) : List Name := (r.get? name).getD []

/-- Breadth-first search: takes classes from a queue, passes over those met before, and puts the
superclasses of the others at the end. -/
def search (r : ClassRegistry) : Nat → List (Name × Nat) → List (Name × Nat) → List (Name × Nat)
  | 0, _, order => order
  | _ + 1, [], order => order
  | n + 1, (name, distance) :: queue, order =>
    if order.any (·.1 = name) then r.search n queue order
    else
      let above := (r.superclasses name).map fun s => (s, distance + 1)
      r.search n (queue ++ above) (order ++ [(name, distance)])

/-- The number of declared superclass links. -/
def links (r : ClassRegistry) : Nat := (r.classes.values.map List.length).foldl (· + ·) 0

/-- A class and all its superclasses with their distances. Each declared link puts one class into
the queue at most once. -/
def linearize (r : ClassRegistry) (name : Name) : List (Name × Nat) :=
  r.search (r.links + 1) [(name, 0)] []

end ClassRegistry
end CallByNeed
