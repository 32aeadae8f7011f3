import CallByNeed.Expr
import CallByNeed.Table

/-!
The method cache of a call site. Its first tier remembers the class vectors of the last hit by
identity, together with the names they held; its second tier is keyed by the names. An entry
answers only a lookup with the stamp it was stored with.
-/
namespace CallByNeed

/-- What a search for a method depended on: a version, and the environments searched. -/
structure Stamp where
  version : Nat
  scope : List EnvId := []
deriving DecidableEq, Repr

structure CachedMethod where
  method : Value
  /-- The name the method was found under. -/
  target : Name
  /-- The index of the class that matched. -/
  position : Nat
  /-- The group of generics the method was found through. -/
  group : Option Name := none
  /-- Whether the method is a builtin's own behaviour. -/
  deferred : Bool := false

/-- A class vector as a lookup sees it: its identity and, for a character vector, its names. -/
structure ClassView where
  id : VectorId
  names : Option (List Name)
deriving DecidableEq, Repr

structure IdentityEntry where
  generic : Name
  classes : List VectorId
  names : List (List Name)
  stamp : Stamp
  method : CachedMethod

abbrev ClassKey := Name × List (List Name)

structure DispatchCache where
  last : Option IdentityEntry := none
  byNames : Table ClassKey (Stamp × CachedMethod) := {}
  identityHits : Nat := 0
  nameHits : Nat := 0
  misses : Nat := 0

namespace DispatchCache

def nameLists (classes : List ClassView) : List (List Name) := classes.map (·.names.getD [])

def key (generic : Name) (classes : List ClassView) : ClassKey := (generic, nameLists classes)

/-- Whether the last entry is about these very vectors, unedited since it was stored. -/
def IdentityEntry.fits (e : IdentityEntry) (generic : Name) (classes : List ClassView)
    (stamp : Stamp) : Bool :=
  e.classes == classes.map (·.id) && e.names.map some == classes.map (·.names) &&
    e.generic == generic && e.stamp == stamp

def remember (c : DispatchCache) (generic : Name) (classes : List ClassView) (stamp : Stamp)
    (method : CachedMethod) : DispatchCache :=
  { c with last := some ⟨generic, classes.map (·.id), nameLists classes, stamp, method⟩ }

/-- The entry of the second tier for the current names, if it has this stamp. -/
def named? (c : DispatchCache) (generic : Name) (classes : List ClassView) (stamp : Stamp) :
    Option CachedMethod :=
  ((c.byNames.get? (key generic classes)).filter (·.1 = stamp)).map (·.2)

def lookup (c : DispatchCache) (generic : Name) (classes : List ClassView) (stamp : Stamp) :
    Option CachedMethod × DispatchCache :=
  match c.last.filter (IdentityEntry.fits · generic classes stamp) with
  | some entry => (some entry.method, { c with identityHits := c.identityHits + 1 })
  | none =>
    match c.named? generic classes stamp with
    | some method =>
      (some method,
        { c with nameHits := c.nameHits + 1 }.remember generic classes stamp method)
    | none => (none, { c with misses := c.misses + 1 })

def insert (c : DispatchCache) (generic : Name) (classes : List ClassView) (stamp : Stamp)
    (method : CachedMethod) : DispatchCache :=
  let c := c.remember generic classes stamp method
  { c with byNames := c.byNames.insert (key generic classes) (stamp, method) }

end DispatchCache
end CallByNeed
