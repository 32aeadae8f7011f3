import CallByNeed.Expr
import CallByNeed.Failure
import CallByNeed.Table

/-!
Environments. Frames live in the slots of a heap and are named by a slot and its generation, so an
id whose frame was freed is never mistaken for the frame that took its slot. Every change of a
binding moves the frame's version, and every change of which names are functions moves the heap's
function epoch.
-/
namespace CallByNeed

structure Frame where
  parent : Option EnvId
  bindings : Table Name Value := {}
  version : Nat := 0
  label : Option Name := none

/-- The names bound in a frame, in order. -/
def Frame.names (f : Frame) : List Name := f.bindings.keys.mergeSort fun a b => !(b < a)

structure Slot where
  generation : Nat
  frame : Option Frame

structure Heap where
  slots : Array Slot := #[]
  /-- Slots without a frame, the next one to use first. -/
  free : List Nat := []
  functionEpoch : Nat := 0

namespace Heap

def frame? (h : Heap) (id : EnvId) : Option Frame :=
  match h.slots[id.index]? with
  | some slot => if slot.generation = id.generation then slot.frame else none
  | none => none

def contains (h : Heap) (id : EnvId) : Bool := (h.frame? id).isSome

def collected (id : EnvId) : Failure := .internal s!"environment {id.text} has been collected"

def frame (h : Heap) (id : EnvId) : Except Failure Frame :=
  match h.frame? id with
  | some f => .ok f
  | none => .error (collected id)

def parent (h : Heap) (id : EnvId) : Except Failure (Option EnvId) := (·.parent) <$> h.frame id

def getLocal (h : Heap) (id : EnvId) (name : Name) : Except Failure (Option Value) :=
  (·.bindings.get? name) <$> h.frame id

/-- A new frame, in the slot freed last if there is one. Slots are numbered without a bound; their numbers fit
32 bits while no more than 2^32 frames are alive at once. -/
def alloc (parent : Option EnvId) (label : Option Name) (h : Heap) : EnvId × Heap :=
  let frame : Frame := ⟨parent, {}, 0, label⟩
  match h.free with
  | [] => (⟨h.slots.size, 0⟩, { h with slots := h.slots.push ⟨0, some frame⟩ })
  | index :: free =>
    let generation := (h.slots[index]?.map (·.generation)).getD 0
    (⟨index, generation⟩,
      { h with free, slots := h.slots.modify index fun slot => { slot with frame := some frame } })

/-- The ids on the way from an environment to the outermost one, at most `n` of them. The last may
be that of a freed frame. -/
def chainUpTo (h : Heap) : Nat → EnvId → List EnvId
  | 0, _ => []
  | n + 1, id => id :: (((h.frame? id).bind (·.parent)).map (h.chainUpTo n)).getD []

/-- The whole lookup chain of an environment, which visits no slot twice. -/
def chain (h : Heap) (id : EnvId) : List EnvId := h.chainUpTo (h.slots.size + 1) id

/-- The first binding of a name along a chain, and the frame that holds it. -/
def lookupAlong (h : Heap) (name : Name) : List EnvId → Except Failure (Option (EnvId × Value))
  | [] => .ok none
  | id :: rest => do
    match ← h.getLocal id name with
    | some v => .ok (some (id, v))
    | none => h.lookupAlong name rest

def lookup (h : Heap) (id : EnvId) (name : Name) : Except Failure (Option (EnvId × Value)) :=
  h.lookupAlong name (h.chain id)

def updateFrame (id : EnvId) (f : Frame → Frame) (h : Heap) : Heap :=
  { h with slots := h.slots.modify id.index fun slot => { slot with frame := slot.frame.map f } }

def bumpEpoch (changed : Bool) (h : Heap) : Heap :=
  if changed then { h with functionEpoch := h.functionEpoch + 1 } else h

/-- Binds a name in a frame that is alive. -/
def bind (id : EnvId) (name : Name) (v : Value) (h : Heap) : Heap :=
  let previous := (h.frame? id).bind (·.bindings.get? name)
  let h := h.updateFrame id fun f =>
    { f with bindings := f.bindings.insert name v, version := f.version + 1 }
  h.bumpEpoch (v.isFunction || previous.any Value.isFunction)

def define (id : EnvId) (name : Name) (v : Value) (h : Heap) : Except Failure Heap := do
  let _ ← h.frame id
  .ok (h.bind id name v)

/-- Removes a binding; the result is what it held. -/
def remove (id : EnvId) (name : Name) (h : Heap) : Except Failure (Option Value × Heap) := do
  match (← h.frame id).bindings.get? name with
  | none => .ok (none, h)
  | some previous =>
    let h := h.updateFrame id fun f =>
      { f with bindings := f.bindings.erase name, version := f.version + 1 }
    .ok (some previous, h.bumpEpoch previous.isFunction)

/-- The first frame along a chain that binds a name, else the last frame of the chain. -/
def bindingFrame (h : Heap) (name : Name) (last : EnvId) : List EnvId → Except Failure EnvId
  | [] => .ok last
  | id :: rest => do
    if (← h.frame id).bindings.contains name then .ok id else h.bindingFrame name id rest

/-- Rebinds the nearest binding above an environment, or defines the name in the outermost frame.
The result is the frame written to. -/
def assignOuter (id : EnvId) (name : Name) (v : Value) (h : Heap) : Except Failure (EnvId × Heap) := do
  let start := (← h.parent id).getD id
  let target ← h.bindingFrame name start (h.chain start)
  .ok (target, ← h.define target name v)

/-- The version of each frame on the lookup chain of an environment. -/
def versionSnapshot (h : Heap) (id : EnvId) : Except Failure (List (EnvId × Nat)) :=
  (h.chain id).mapM fun e => do .ok (e, (← h.frame e).version)

def isCurrent (h : Heap) (snapshot : List (EnvId × Nat)) : Bool :=
  snapshot.all fun (id, version) => (h.frame? id).any (·.version = version)

def liveFrames (h : Heap) : Nat := h.slots.countP (·.frame.isSome)

end Heap
end CallByNeed
