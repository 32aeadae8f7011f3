import CallByNeed.Dispatch.Cache
import CallByNeed.Dispatch.Classes
import CallByNeed.Dispatch.ClassRegistry
import CallByNeed.Dispatch.MethodTable

/-!
Dispatch on formal classes. A method is looked up for the first class of each argument; failing
that, the classes and superclasses of all arguments are tried in order of their total distance.
-/
namespace CallByNeed

/-- The class that fits every argument. -/
def anyClass : Name := "ANY"

/-- Keeps the first pair of each name. -/
def firstOfEach : List (Name × Nat) → List (Name × Nat)
  | [] => []
  | (name, d) :: rest => (name, d) :: (firstOfEach rest).filter (·.1 ≠ name)

namespace ClassRegistry

/-- Classes that fit an argument of a class chain, with their distances, nearest first. The class
that fits everything comes after all others. -/
def candidates (r : ClassRegistry) (chain : List Name) : List (Name × Nat) :=
  let all := chain.zipIdx.flatMap fun (name, i) => (r.linearize name).map fun (a, d) => (a, i + d)
  let furthest := (all.map (·.2)).foldl max 0
  firstOfEach ((all ++ [(anyClass, furthest + 1)]).mergeSort fun a b => a.2 ≤ b.2)

end ClassRegistry

/-- All ways to take one candidate for each argument, the last argument varying fastest. -/
def combinations {α : Type} : List (List α) → List (List α)
  | [] => [[]]
  | xs :: rest => xs.flatMap fun x => (combinations rest).map (x :: ·)

def totalDistance (combination : List (Name × Nat)) : Nat :=
  (combination.map (·.2)).foldl (· + ·) 0

/-- How methods of superclasses are found. -/
inductive Resolver where
  /-- Nothing is inherited. -/
  | none
  | superclasses
deriving DecidableEq, Repr, Inhabited

/-- Finds a method for class chains without an entry of their own and installs it under a key. -/
def Resolver.resolve (resolver : Resolver) (r : ClassRegistry) (chains : List (List Name))
    (table : MethodTable) (key : String) : Option MethodTable :=
  match resolver with
  | .none => .none
  | .superclasses =>
    if chains.isEmpty then .none
    else
      let ordered := (combinations (chains.map r.candidates)).mergeSort fun a b =>
        totalDistance a ≤ totalDistance b
      (ordered.findSome? fun c => table.peek? (dispatchKey (c.map (·.1)))).map (table.install key)

inductive DispatchResult where
  | found (method : Value)
  /-- The method is a builtin that runs its own behaviour. -/
  | deferred (method : Value)
  | notFound

def DispatchResult.of (method : Value) (deferred : Bool) : DispatchResult :=
  if deferred then .deferred method else .found method

def isBuiltin : Value → Bool
  | .builtin .. => true
  | _ => false

/-- The table's entry for a key, after one attempt to inherit it. -/
def tableMethod (resolver : Resolver) (r : ClassRegistry) (chains : List (List Name))
    (table : MethodTable) (key : String) : Option Value × MethodTable :=
  match table.lookup key with
  | (some method, table) => (some method, table)
  | (none, table) =>
    let table := table.recordSlowPath
    match resolver.resolve r chains table key with
    | some table => table.lookup key
    | none => (none, table)

/-- The method of a generic for one class chain per argument: from the call site's cache, else from
the table. -/
def formalDispatch (resolver : Resolver) (r : ClassRegistry) (generic : Name)
    (classes : List ClassView) (table : MethodTable) (cache : DispatchCache) :
    DispatchResult × MethodTable × DispatchCache :=
  let stamp : Stamp := ⟨table.version, []⟩
  match cache.lookup generic classes stamp with
  | (some cached, cache) => (.of cached.method cached.deferred, table, cache)
  | (none, cache) =>
    let chains := DispatchCache.nameLists classes
    let key := dispatchKey (chains.map fun chain => chain.head?.getD anyClass)
    match tableMethod resolver r chains table key with
    | (none, table) => (.notFound, table, cache)
    | (some method, table) =>
      let entry : CachedMethod := ⟨method, key, 0, none, isBuiltin method⟩
      (.of method (isBuiltin method), table, cache.insert generic classes stamp entry)

end CallByNeed
