import CallByNeed.Expr

/-!
Call records: the logical call stack. Records are numbered in order of creation, and a record only
refers to older ones. A promise refers to the record it was made under without keeping it alive;
once that record is gone, the logical stack continues with the physical parent.
-/
namespace CallByNeed

/-- Arguments of a call after expansion of `...`: promises, values or the missing marker. -/
structure Supplied where
  names : List (Option Name) := []
  values : List Value := []
deriving Inhabited

/-- The state of a dispatch on a class attribute, kept for a method that asks for the next one. -/
structure DispatchContext where
  generic : Name
  /-- The group of generics the method was found through. -/
  group : Option Name
  /-- The classes of the dispatch object. -/
  classes : List Name
  /-- The index of the class that matched, one past the last for the default method. -/
  position : Nat
  object : Value
  /-- The environment the generic was called from. -/
  callEnv : EnvId
  /-- The environment the generic was defined in. -/
  defEnv : Option EnvId

inductive RecordKind where
  | topLevel
  | function (env : EnvId) (function : Value) (supplied : Supplied)
      (dispatch : Option DispatchContext)
  /-- The forcing of a promise made under the record `logical`. -/
  | promise (logical : Option RecordId)
  | builtin (name : Name)
deriving Inhabited

def RecordKind.name : RecordKind → String
  | topLevel => "top"
  | function .. => "function"
  | promise _ => "promise"
  | builtin _ => "builtin"

structure Record where
  id : RecordId
  parent : Option RecordId
  call : Option Expr
  depth : Nat
  kind : RecordKind
  eagerOnly : Bool := false
deriving Inhabited

namespace Record

def env? (r : Record) : Option EnvId :=
  match r.kind with
  | .function env .. => some env
  | _ => none

def function? (r : Record) : Option Value :=
  match r.kind with
  | .function _ f .. => some f
  | _ => none

def supplied? (r : Record) : Option Supplied :=
  match r.kind with
  | .function _ _ supplied _ => some supplied
  | _ => none

def dispatch? (r : Record) : Option DispatchContext :=
  match r.kind with
  | .function _ _ _ dispatch => dispatch
  | _ => none

def isFunction (r : Record) : Bool := r.env?.isSome

end Record

/-- The records that are alive, the youngest first. -/
structure Records where
  live : List Record := []
  next : Nat := 0
deriving Inhabited

namespace Records

def get? (rs : Records) (id : RecordId) : Option Record := rs.live.find? (·.id = id)

/-- A new record under a parent, one level deeper. -/
def push (parent : Option RecordId) (call : Option Expr) (kind : RecordKind) (rs : Records) :
    RecordId × Records :=
  let depth := ((parent.bind rs.get?).map (·.depth + 1)).getD 0
  (⟨rs.next⟩, ⟨⟨⟨rs.next⟩, parent, call, depth, kind, false⟩ :: rs.live, rs.next + 1⟩)

def release (id : RecordId) (rs : Records) : Records :=
  { rs with live := rs.live.eraseP (·.id = id) }

def depth (rs : Records) (id : RecordId) : Nat := ((rs.get? id).map (·.depth)).getD 0

def contains (rs : Records) (id : RecordId) : Bool := (rs.get? id).isSome

def eagerOnly (rs : Records) (id : RecordId) : Bool := (rs.get? id).any (·.eagerOnly)

def setEagerOnly (id : RecordId) (flag : Bool) (rs : Records) : Records :=
  { rs with live := rs.live.map fun r => if r.id = id then { r with eagerOnly := flag } else r }

/-- Where the logical stack goes on from a record that is no function: from the forcing of a
promise to the record the promise was made under while that is alive, else to the parent. -/
def logicalNext (rs : Records) (r : Record) : Option RecordId :=
  match r.kind with
  | .topLevel => none
  | .promise logical => ((logical.bind rs.get?).map (·.id)).or r.parent
  | _ => r.parent

/-- The nearest function record within a number of steps down the logical stack. -/
def functionWithin (rs : Records) : Nat → RecordId → Option Record
  | 0, _ => none
  | steps + 1, id =>
    (rs.get? id).bind fun r =>
      if r.isFunction then some r else (rs.logicalNext r).bind (rs.functionWithin steps)

/-- The nearest function record. Every step leads to an older record, so as many steps as there are
records suffice. -/
def logicalFunction (rs : Records) (id : RecordId) : Option Record :=
  rs.functionWithin (id.index + 1) id

/-- The function record that a record's call was made from. -/
def logicalParent (rs : Records) (id : RecordId) : Option Record :=
  ((rs.get? id).bind (·.parent)).bind rs.logicalFunction

/-- A record and those its parent links lead to, within a number of steps. -/
def ancestryWithin (rs : Records) : Nat → RecordId → List RecordId
  | 0, _ => []
  | steps + 1, id => id :: ((((rs.get? id).bind (·.parent)).map (rs.ancestryWithin steps)).getD [])

/-- Keeps the held records and those their parent links lead to. -/
def retain (held : List RecordId) (rs : Records) : Records :=
  let kept := held.flatMap fun id => rs.ancestryWithin (id.index + 1) id
  { rs with live := rs.live.filter fun r => kept.contains r.id }

end Records
end CallByNeed
