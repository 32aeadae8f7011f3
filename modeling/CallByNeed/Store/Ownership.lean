import CallByNeed.Store

/-!
Copy-on-write bookkeeping: counting owners of containers, and the copy made for a writer of a
shared one.
-/
namespace CallByNeed.Store

def isShared (s : Store) (v : Value) : Bool :=
  v.vector?.any fun id => (s.container id).sharing.isShared

def setSharing (f : Sharing → Sharing) (v : Value) (s : Store) : Store :=
  match v with
  | .vector id => s.modifyContainer id fun c => { c with sharing := f c.sharing }
  | _ => s

/-- Records one more owner of a value. -/
def share (v : Value) (s : Store) : Store := s.setSharing Sharing.promoted v

def shareAll (vs : List Value) (s : Store) : Store := vs.foldl (fun s v => s.share v) s

def markPermanent (v : Value) (s : Store) : Store := s.setSharing (fun _ => .permanent) v

/-- Adjusts a child after it was stored into or taken out of an owner. -/
def adjustChild (owner child : Value) (s : Store) : Store :=
  match owner, child with
  | .vector o, .vector c =>
    if o = c then s else s.setSharing (Sharing.childOf (s.container o).sharing) child
  | _, _ => s

/-- Moves a container to a state at or above its own. -/
def transition (id : VectorId) (state : Sharing) : StoreM Unit := do
  let current := ((← get).container id).sharing
  if state.rank < current.rank then
    throw (.internal s!"sharing state cannot move from {current.name} to {state.name}")
  else modify (·.modifyContainer id fun c => { c with sharing := state })

/-- A temporary copy that holds the same children, each of which gains an owner. -/
def duplicate (id : VectorId) : Alloc VectorId := do
  let c := (← get).container id
  modify (·.shareAll (c.elements.children ++ c.attributes.values))
  addVector { c with sharing := .temporary }

/-- A container that may be written in place: the given one unless it is shared, else a copy. -/
def makeMutable (id : VectorId) : Alloc VectorId := do
  if ((← get).container id).sharing.isShared then duplicate id else pure id

end CallByNeed.Store
