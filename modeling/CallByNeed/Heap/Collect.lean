import CallByNeed.Heap
import CallByNeed.Store.Promise

/-!
Collection of unreachable frames. A frame refers to its parent and to the environments in its
bindings: environment values, closures, the environment and values of promises, `...` entries,
list elements and attributes. Code is no reference.
-/
namespace CallByNeed

namespace Store

/-- The values an object holds directly. -/
def held (s : Store) : Value → List Value
  | .vector id => (s.elements id).children ++ (s.container id).attributes.values
  | .promise id =>
    (s.promise id).state.value?.toList ++ ((s.promise id).eager.map (·.value)).toList
  | .dots id => (s.dotsAt id).values
  | _ => []

/-- The environment a value names itself. -/
def ownEnvironment (s : Store) : Value → Option EnvId
  | .environment id => some id
  | .closure _ _ env => some env
  | .promise id => (s.promise id).state.env?
  | _ => none

/-- The environments a value refers to, through objects to the given depth. -/
def environmentsWithin (s : Store) : Nat → Value → List EnvId
  | 0, _ => []
  | depth + 1, v =>
    (s.ownEnvironment v).toList ++ (s.held v).flatMap (s.environmentsWithin depth)

/-- The environments a value refers to. No chain of distinct objects is longer than the store. -/
def environments (s : Store) (v : Value) : List EnvId :=
  s.environmentsWithin (s.vectors.size + s.promises.size + s.dots.size + 1) v

end Store

def Frame.references (f : Frame) (s : Store) : List EnvId :=
  f.parent.toList ++ f.bindings.values.flatMap s.environments

namespace Heap

/-- The slots marked after following the references of a frontier, round by round. Each round marks
the valid frames of the frontier that are not marked yet. -/
def mark (h : Heap) (s : Store) : Nat → List EnvId → List Nat → List Nat
  | 0, _, marked => marked
  | rounds + 1, frontier, marked =>
    let fresh := (frontier.filter fun id => h.contains id && !marked.contains id.index).eraseDups
    if fresh.isEmpty then marked
    else
      let next := fresh.flatMap fun id => ((h.frame? id).map (·.references s)).getD []
      h.mark s rounds next (marked ++ fresh.map (·.index))

def reachable (h : Heap) (s : Store) (roots : List EnvId) : List Nat :=
  h.mark s (h.slots.size + 1) roots []

/-- The slots that hold a frame outside a marked set, in order. -/
def garbage (h : Heap) (marked : List Nat) : List Nat :=
  (List.range h.slots.size).filter fun i =>
    (h.slots[i]?.any (·.frame.isSome)) && !marked.contains i

def freeSlot (slot : Slot) : Slot := ⟨(slot.generation + 1) % Nat.pow 2 32, none⟩

/-- Frees every frame not reachable from the roots and from the environments the values refer to.
The result is the number of frames freed. -/
def collect (s : Store) (roots : List EnvId) (values : List Value) (h : Heap) : Nat × Heap :=
  let freed := h.garbage (h.reachable s (roots ++ values.flatMap s.environments))
  let slots := freed.foldl (fun slots i => slots.modify i freeSlot) h.slots
  let free := freed.foldl (fun free i => i :: free) h.free
  (freed.length, { h with slots, free }.bumpEpoch (!freed.isEmpty))

end Heap
end CallByNeed
