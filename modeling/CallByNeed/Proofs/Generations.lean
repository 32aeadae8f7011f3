import CallByNeed.Proofs.Epoch

/-!
Generations. Whatever is done to a heap, its free list holds each slot without a frame once, and the
generation of a slot counts how often its frame was freed. An id handed out carries the count of its time, so
no two are alike as long as no slot is freed so often that its generation starts over, and an id whose frame
was freed carries a count that its slot has left behind.
-/
namespace CallByNeed
namespace Heap

variable {h k : Heap} {id : EnvId} {i g : Nat} {live : Bool} {name : Name} {v : Value}

/-! Slots. -/

/-- The generation of a slot, and whether it holds a frame. -/
def shape (h : Heap) (i : Nat) : Option (Nat × Bool) :=
  h.slots[i]?.map fun slot => (slot.generation, slot.frame.isSome)

theorem shape_eq_some_iff : h.shape i = some (g, live) ↔
    ∃ slot, h.slots[i]? = some slot ∧ slot.generation = g ∧ slot.frame.isSome = live := by
  simp [shape, Option.map_eq_some_iff]

theorem contains_iff_shape : h.contains id ↔ h.shape id.index = some (id.generation, true) := by
  rw [contains_iff_exists, shape_eq_some_iff]
  simp only [frame?_eq_some_iff, Option.isSome_iff_exists]
  grind

/-- The slot holds a frame. -/
def holds (h : Heap) (i : Nat) : Bool := (h.shape i).any (·.2)

/-- Between two heaps the frame of the slot was freed. -/
def frees (h k : Heap) (i : Nat) : Bool := h.holds i && !k.holds i

theorem shape_bind : (h.bind id name v).shape i = h.shape i := by
  unfold shape
  rw [slots_bind, Array.getElem?_modify]
  split
  · simp [Option.map_map, Function.comp_def]
  · rfl

theorem shape_updateFrame {f : Frame → Frame} : (h.updateFrame id f).shape i = h.shape i := by
  unfold shape updateFrame
  rw [Array.getElem?_modify]
  split
  · simp [Option.map_map, Function.comp_def]
  · rfl

theorem shape_bumpEpoch {changed : Bool} : (h.bumpEpoch changed).shape i = h.shape i := by
  unfold shape
  rw [bumpEpoch_slots]

theorem shape_alloc_nil (free : h.free = []) (parent : Option EnvId) (label : Option Name) :
    (h.alloc parent label).2.shape i = if i = h.slots.size then some (0, true) else h.shape i := by
  simp only [shape, alloc, free, Array.getElem?_push]
  split <;> rfl

theorem shape_alloc_cons {index : Nat} {rest : List Nat} (free : h.free = index :: rest)
    (parent : Option EnvId) (label : Option Name) : (h.alloc parent label).2.shape i =
      if i = index then (h.shape i).map fun (g, _) => (g, true) else h.shape i := by
  simp only [shape, alloc, free, Array.getElem?_modify]
  by_cases here : i = index
  · subst here
    simp [Option.map_map, Function.comp_def]
  · rw [if_neg (Ne.symm here), if_neg here]

theorem sweep_mem {freed : List Nat} (distinct : freed.Nodup) (slots : Array Slot) (member : i ∈ freed) :
    (sweep freed slots)[i]? = slots[i]?.map freeSlot := by
  induction freed generalizing slots with
  | nil => cases member
  | cons j freed ih =>
    obtain ⟨first, distinct⟩ := List.nodup_cons.mp distinct
    have step : sweep (j :: freed) slots = sweep freed (slots.modify j freeSlot) := rfl
    rw [step]
    rcases List.mem_cons.mp member with rfl | later
    · rw [sweep_other _ first, Array.getElem?_modify, if_pos rfl]
    · have apart : j ≠ i := fun same => first (same ▸ later)
      rw [ih distinct _ later, Array.getElem?_modify, if_neg apart]

theorem shape_release {freed : List Nat} (distinct : freed.Nodup) : (h.release freed).shape i =
    if i ∈ freed then (h.shape i).map fun (g, _) => ((g + 1) % Nat.pow 2 32, false) else h.shape i := by
  unfold shape release
  split
  · rename_i member
    dsimp only
    rw [sweep_mem distinct h.slots member, Option.map_map, Option.map_map]
    rfl
  · rename_i other
    dsimp only
    rw [sweep_other h.slots other]

/-! What is done to a heap. -/

/-- The changes of a heap. -/
inductive Operation
  | alloc (parent : Option EnvId) (label : Option Name)
  | define (id : EnvId) (name : Name) (v : Value)
  | remove (id : EnvId) (name : Name)
  | assignOuter (id : EnvId) (name : Name) (v : Value)
  | collect (s : Store) (roots : List EnvId) (values : List Value)

/-- The heap after an operation. One that fails leaves it as it was. -/
def Operation.run : Operation → Heap → Heap
  | alloc parent label, h => (h.alloc parent label).2
  | define id name v, h => (h.define id name v).toOption.getD h
  | remove id name, h => ((h.remove id name).toOption.map (·.2)).getD h
  | assignOuter id name v, h => ((h.assignOuter id name v).toOption.map (·.2)).getD h
  | collect s roots values, h => (h.collect s roots values).2

/-- The id an operation hands out. -/
def Operation.made? : Operation → Heap → Option EnvId
  | alloc parent label, h => some (h.alloc parent label).1
  | _, _ => none

/-- The environment an operation is asked to write to, or above. -/
def Operation.subject? : Operation → Option EnvId
  | define id _ _ => some id
  | remove id _ => some id
  | assignOuter id _ _ => some id
  | _ => none

/-- A heap with the ids it has handed out, the last one first, and how often each slot was freed. -/
structure Ledger where
  heap : Heap := {}
  made : List EnvId := []
  freed : Nat → Nat := fun _ => 0

def Ledger.step (l : Ledger) (op : Operation) : Ledger where
  heap := op.run l.heap
  made := (op.made? l.heap).toList ++ l.made
  freed i := l.freed i + (l.heap.frees (op.run l.heap) i).toNat

/-- The ledger after some operations on a new heap. -/
def ledger (ops : List Operation) : Ledger := ops.foldl Ledger.step {}

theorem ledger_append (ops more : List Operation) :
    ledger (ops ++ more) = more.foldl Ledger.step (ledger ops) := List.foldl_append

theorem freed_le (l : Ledger) (ops : List Operation) (i : Nat) :
    l.freed i ≤ (ops.foldl Ledger.step l).freed i := by
  induction ops generalizing l with
  | nil => exact Nat.le_refl _
  | cons op ops ih => exact Nat.le_trans (Nat.le_add_right _ _) (ih (l.step op))

theorem freed_le_length (l : Ledger) (ops : List Operation) (i : Nat) :
    (ops.foldl Ledger.step l).freed i ≤ l.freed i + ops.length := by
  induction ops generalizing l with
  | nil => exact Nat.le_refl _
  | cons op ops ih =>
    refine Nat.le_trans (ih (l.step op)) ?_
    have once := Bool.toNat_le (l.heap.frees (op.run l.heap) i)
    simp only [Ledger.step, List.length_cons]
    omega

/-! One operation. -/

/-- The id carries a count that its slot has left behind, or the present one while there is a frame. -/
def Ledger.Issued (l : Ledger) (id : EnvId) : Prop :=
  id.generation < l.freed id.index ∨ id.generation = l.freed id.index ∧ l.heap.holds id.index

/-- Free slots are listed once, the generation of a slot counts how often its frame was freed, and the ids
handed out are issued and all different. -/
structure Orderly (l : Ledger) : Prop where
  distinct : l.heap.free.Nodup
  listed : ∀ i, i ∈ l.heap.free ↔ ∃ g, l.heap.shape i = some (g, false)
  counted : ∀ i g live, l.heap.shape i = some (g, live) → g = l.freed i % Nat.pow 2 32
  fresh : ∀ i, l.heap.shape i = none → l.freed i = 0
  issued : ∀ id ∈ l.made, l.Issued id
  unlike : l.made.Nodup

variable {l : Ledger} {op : Operation}

theorem holds_iff : h.holds i ↔ ∃ g, h.shape i = some (g, true) := by
  unfold holds
  cases h.shape i with
  | none => simp
  | some shape => simp [Prod.ext_iff]

theorem frees_eq_false (kept : h.holds i → k.holds i) : h.frees k i = false := by
  unfold frees
  cases before : h.holds i with
  | false => rfl
  | true => simp [kept before]

/-- The slot of an id with a frame keeps it, or counts one more. -/
theorem Ledger.Issued.step (issued : l.Issued id) (op : Operation) : (l.step op).Issued id := by
  simp only [Issued, Ledger.step]
  rcases issued with behind | ⟨present, holds⟩
  · exact .inl (Nat.lt_add_right _ behind)
  · cases after : (op.run l.heap).holds id.index with
    | true => exact .inr ⟨by simp [frees, after, present], rfl⟩
    | false => exact .inl (by simp [frees, after, holds, present])

theorem Ledger.Issued.run (issued : l.Issued id) (ops : List Operation) :
    (ops.foldl Ledger.step l).Issued id := by
  induction ops generalizing l with
  | nil => exact issued
  | cons op ops ih => exact ih (issued.step op)

theorem orderly_new : Orderly {} where
  distinct := .nil
  listed i := by simp [shape]
  counted i g live found := by simp [shape] at found
  fresh i _ := rfl
  issued id member := by cases member
  unlike := .nil

/-- An operation on a given environment frees no slot and takes none. -/
theorem run_subject (subject : op.subject? = some id) (h : Heap) :
    (∀ i, (op.run h).shape i = h.shape i) ∧ (op.run h).free = h.free := by
  cases op with
  | alloc | collect => cases subject
  | define env name v =>
    cases written : h.define env name v with
    | error f => simp [Operation.run, written, Except.toOption]
    | ok k =>
      obtain ⟨-, rfl⟩ := alive_of_define written
      simp only [Operation.run, written]
      exact ⟨fun i => shape_bind, bumpEpoch_free _ _⟩
  | remove env name =>
    cases removed : h.remove env name with
    | error f => simp [Operation.run, removed, Except.toOption]
    | ok result =>
      obtain ⟨f, -, rest⟩ := ok_of_bind removed
      simp only [Operation.run, removed]
      cases bound : f.bindings.get? name with
      | none =>
        rw [bound] at rest
        cases rest
        exact ⟨fun i => rfl, rfl⟩
      | some previous =>
        rw [bound] at rest
        cases rest
        exact ⟨fun i => shape_bumpEpoch.trans shape_updateFrame, bumpEpoch_free _ _⟩
  | assignOuter env name v =>
    cases assigned : h.assignOuter env name v with
    | error f => simp [Operation.run, assigned, Except.toOption]
    | ok written =>
      obtain ⟨target, k⟩ := written
      obtain ⟨-, rfl⟩ := alive_of_assignOuter assigned
      simp only [Operation.run, assigned]
      exact ⟨fun i => shape_bind, bumpEpoch_free _ _⟩

theorem Orderly.subject (orderly : Orderly l) (subject : op.subject? = some id) : Orderly (l.step op) := by
  obtain ⟨shape, free⟩ := run_subject subject l.heap
  have holds (i : Nat) : (op.run l.heap).holds i = l.heap.holds i := by
    unfold Heap.holds
    rw [shape]
  have step : l.step op = { l with heap := op.run l.heap } := by
    have none (i : Nat) : l.heap.frees (op.run l.heap) i = false :=
      frees_eq_false fun before => (holds i).trans before
    have made : op.made? l.heap = Option.none := by cases op <;> first | rfl | cases subject
    simp [Ledger.step, none, made]
  have issued (id : EnvId) (member : id ∈ l.made) := (orderly.issued id member).step op
  rw [step] at issued ⊢
  refine ⟨free ▸ orderly.distinct, fun i => ?_, fun i g live found => ?_, fun i none => ?_, issued,
    orderly.unlike⟩
  · dsimp only
    rw [free, shape]
    exact orderly.listed i
  · exact orderly.counted i g live ((shape i).symm.trans found)
  · exact orderly.fresh i ((shape i).symm.trans none)

/-- A new frame takes a slot without one, under the generation the slot has. -/
theorem Orderly.alloc_slot (orderly : Orderly l) (parent : Option EnvId) (label : Option Name)
    (rarely : ∀ i, l.freed i < Nat.pow 2 32) {id : EnvId} {k : Heap}
    (made : l.heap.alloc parent label = (id, k)) :
    l.heap.holds id.index = false ∧ id.generation = l.freed id.index ∧
      (∀ i, k.shape i = if i = id.index then some (id.generation, true) else l.heap.shape i) ∧
      k.free.Nodup ∧ ∀ i, i ∈ k.free ↔ i ∈ l.heap.free ∧ i ≠ id.index := by
  cases free : l.heap.free with
  | nil =>
    have shape := fun i => shape_alloc_nil (i := i) free parent label
    have absent : l.heap.shape l.heap.slots.size = none := by simp [Heap.shape]
    simp only [made] at shape
    simp only [Heap.alloc, free] at made
    cases made
    refine ⟨by simp [Heap.holds, absent], (orderly.fresh _ absent).symm, shape, .nil, ?_⟩
    simp
  | cons index rest =>
    have shape := fun i => shape_alloc_cons (i := i) free parent label
    obtain ⟨g, there⟩ := (orderly.listed index).mp (free ▸ List.mem_cons_self)
    have generation : (l.heap.slots[index]?.map (·.generation)).getD 0 = g := by
      obtain ⟨slot, found, same, -⟩ := shape_eq_some_iff.mp there
      rw [found, ← same]
      rfl
    obtain ⟨first, distinct⟩ := List.nodup_cons.mp (free ▸ orderly.distinct)
    simp only [made] at shape
    simp only [Heap.alloc, free, generation] at made
    cases made
    have count : g = l.freed index := by
      rw [orderly.counted index g false there, Nat.mod_eq_of_lt (rarely index)]
    refine ⟨by simp [Heap.holds, there], count, fun i => ?_, distinct, fun i => ?_⟩
    · rw [shape]
      by_cases here : i = index
      · subst here
        simp [there]
      · rw [if_neg here, if_neg here]
    · rw [List.mem_cons]
      constructor
      · intro member
        refine ⟨.inr member, ?_⟩
        rintro rfl
        exact first member
      · rintro ⟨same | member, apart⟩
        · exact absurd same apart
        · exact member

theorem Orderly.alloc (orderly : Orderly l) (parent : Option EnvId) (label : Option Name)
    (rarely : ∀ i, l.freed i < Nat.pow 2 32) : Orderly (l.step (.alloc parent label)) := by
  rcases made : l.heap.alloc parent label with ⟨id, k⟩
  obtain ⟨vacant, generation, shape, distinct, listed⟩ := orderly.alloc_slot parent label rarely made
  have step : l.step (.alloc parent label) = ⟨k, id :: l.made, l.freed⟩ := by
    have none (i : Nat) : l.heap.frees k i = false := by
      refine frees_eq_false fun before => ?_
      obtain ⟨g, there⟩ := holds_iff.mp before
      refine holds_iff.mpr ?_
      rw [shape]
      split
      · exact ⟨_, rfl⟩
      · exact ⟨g, there⟩
    simp [Ledger.step, Operation.run, Operation.made?, made, none]
  have issued (e : EnvId) (member : e ∈ l.made) := (orderly.issued e member).step (.alloc parent label)
  rw [step] at issued ⊢
  refine ⟨distinct, fun i => ?_, fun i g live found => ?_, fun i none => ?_, fun e member => ?_, ?_⟩
  · rw [listed, orderly.listed]
    dsimp only
    rw [shape]
    split
    · rename_i here
      simp [here]
    · rename_i apart
      simp [apart]
  · dsimp only at found ⊢
    rw [shape] at found
    split at found
    · rename_i here
      cases found
      rw [here, ← generation, Nat.mod_eq_of_lt (generation ▸ rarely _)]
    · exact orderly.counted i g live found
  · dsimp only at none ⊢
    rw [shape] at none
    split at none
    · cases none
    · exact orderly.fresh i none
  · rcases List.mem_cons.mp member with rfl | before
    · exact .inr ⟨generation, holds_iff.mpr ⟨_, (shape _).trans (if_pos rfl)⟩⟩
    · exact issued e before
  · -- An id like the new one would carry the present count of its slot, which had no frame.
    refine List.nodup_cons.mpr ⟨fun before => ?_, orderly.unlike⟩
    rcases orderly.issued id before with behind | ⟨-, holds⟩
    · omega
    · rw [vacant] at holds
      cases holds

/-- What is garbage has a frame, under the generation that its slot was freed as often as. -/
theorem Orderly.shape_garbage (orderly : Orderly l) (rarely : ∀ i, l.freed i < Nat.pow 2 32) {marked : List Nat}
    {i : Nat} (member : i ∈ l.heap.garbage marked) : l.heap.shape i = some (l.freed i, true) := by
  obtain ⟨⟨slot, found, some⟩, -⟩ := mem_garbage_iff.mp member
  have there := shape_eq_some_iff.mpr ⟨slot, found, rfl, some⟩
  rw [there, orderly.counted i _ _ there, Nat.mod_eq_of_lt (rarely i)]

/-- A collection takes the frames out of some slots, whose generations go up by one, and lists them. -/
theorem Orderly.collect_slots (orderly : Orderly l) (s : Store) (roots : List EnvId) (values : List Value)
    (rarely : ∀ i, l.freed i < Nat.pow 2 32) : ∃ (freed : List Nat) (k : Heap),
      l.step (.collect s roots values) = ⟨k, l.made, fun i => l.freed i + (decide (i ∈ freed)).toNat⟩ ∧
        (∀ i ∈ freed, l.heap.shape i = some (l.freed i, true)) ∧
        (∀ i, k.shape i =
          if i ∈ freed then some ((l.freed i + 1) % Nat.pow 2 32, false) else l.heap.shape i) ∧
        freed.Nodup ∧ k.free = freed.reverse ++ l.heap.free := by
  let freed := l.heap.garbage (l.heap.reachable s (roots ++ values.flatMap s.environments))
  let k := (l.heap.release freed).bumpEpoch (!freed.isEmpty)
  have occupied (i : Nat) (member : i ∈ freed) : l.heap.shape i = some (l.freed i, true) :=
    orderly.shape_garbage rarely member
  have shape (i : Nat) : k.shape i =
      if i ∈ freed then some ((l.freed i + 1) % Nat.pow 2 32, false) else l.heap.shape i := by
    refine shape_bumpEpoch.trans ((shape_release garbage_nodup).trans ?_)
    split
    · rename_i member
      rw [occupied i member]
      rfl
    · rfl
  have frees (i : Nat) : l.heap.frees k i = decide (i ∈ freed) := by
    by_cases member : i ∈ freed
    · simp [Heap.frees, Heap.holds, shape, member, occupied i member]
    · simp [Heap.frees, Heap.holds, shape, member]
  have run : Operation.run (.collect s roots values) l.heap = k := collect_heap l.heap s roots values
  refine ⟨freed, k, ?_, occupied, shape, garbage_nodup, bumpEpoch_free _ _⟩
  simp [Ledger.step, Operation.made?, run, frees]

theorem Orderly.collect (orderly : Orderly l) (s : Store) (roots : List EnvId) (values : List Value)
    (rarely : ∀ i, l.freed i < Nat.pow 2 32) : Orderly (l.step (.collect s roots values)) := by
  obtain ⟨freed, k, step, occupied, shape, distinct, free⟩ := orderly.collect_slots s roots values rarely
  have issued (e : EnvId) (member : e ∈ l.made) := (orderly.issued e member).step (.collect s roots values)
  rw [step] at issued ⊢
  refine ⟨?_, fun i => ?_, fun i g live found => ?_, fun i none => ?_, issued, orderly.unlike⟩
  · rw [free, List.nodup_append]
    refine ⟨List.nodup_reverse.mpr distinct, orderly.distinct, ?_⟩
    rintro i member j before rfl
    obtain ⟨g, vacant⟩ := (orderly.listed i).mp before
    rw [occupied i (List.mem_reverse.mp member)] at vacant
    cases vacant
  · dsimp only
    rw [free, List.mem_append, List.mem_reverse, orderly.listed, shape]
    by_cases member : i ∈ freed <;> simp [member]
  · dsimp only at found ⊢
    rw [shape] at found
    by_cases member : i ∈ freed
    · rw [if_pos member] at found
      cases found
      simp [member]
    · rw [if_neg member] at found
      simpa [member] using orderly.counted i g live found
  · dsimp only at none ⊢
    rw [shape] at none
    by_cases member : i ∈ freed
    · rw [if_pos member] at none
      cases none
    · rw [if_neg member] at none
      simpa [member] using orderly.fresh i none

theorem Orderly.step (orderly : Orderly l) (op : Operation) (rarely : ∀ i, l.freed i < Nat.pow 2 32) :
    Orderly (l.step op) := by
  cases op with
  | alloc parent label => exact orderly.alloc parent label rarely
  | define | remove | assignOuter => exact orderly.subject rfl
  | collect s roots values => exact orderly.collect s roots values rarely

theorem Orderly.contains_iff (orderly : Orderly l) (rarely : ∀ i, l.freed i < Nat.pow 2 32) :
    l.heap.contains id ↔ id.generation = l.freed id.index ∧ l.heap.holds id.index := by
  rw [contains_iff_shape, holds_iff]
  constructor
  · intro there
    refine ⟨?_, _, there⟩
    rw [orderly.counted _ _ _ there, Nat.mod_eq_of_lt (rarely _)]
  · rintro ⟨present, g, there⟩
    rw [there, present, orderly.counted _ _ _ there, Nat.mod_eq_of_lt (rarely _)]

/-! Ids without a frame. -/

/-- Nothing is read or written through the id. -/
structure Gone (h : Heap) (id : EnvId) : Prop where
  frame : h.frame id = .error (collected id)
  getLocal : ∀ name, h.getLocal id name = .error (collected id)
  lookup : ∀ name, h.lookup id name = .error (collected id)
  define : ∀ name v, h.define id name v = .error (collected id)
  remove : ∀ name, h.remove id name = .error (collected id)
  assignOuter : ∀ name v, h.assignOuter id name v = .error (collected id)
  versionSnapshot : h.versionSnapshot id = .error (collected id)
  unchanged : ∀ op : Operation, op.subject? = some id → op.run h = h

theorem gone_of_not_contains (lost : ¬h.contains id) : h.Gone id := by
  have none : h.frame? id = none := Option.not_isSome_iff_eq_none.mp lost
  have frame : h.frame id = .error (collected id) := by simp only [Heap.frame, none]
  have chain : h.chain id = [id] := by simp [Heap.chain, chainUpTo, none]
  have define (name : Name) (v : Value) : h.define id name v = .error (collected id) := by
    simp only [Heap.define, frame]
    rfl
  have remove (name : Name) : h.remove id name = .error (collected id) := by
    simp only [Heap.remove, frame]
    rfl
  have assignOuter (name : Name) (v : Value) : h.assignOuter id name v = .error (collected id) := by
    simp only [Heap.assignOuter, parent, frame]
    rfl
  refine ⟨frame, fun name => ?_, fun name => ?_, define, remove, assignOuter, ?_, fun op subject => ?_⟩
  · simp only [getLocal, frame]
    rfl
  · simp only [lookup, chain, lookupAlong, getLocal, frame]
    rfl
  · simp only [versionSnapshot, chain, List.mapM_cons, frame]
    rfl
  · cases op <;> cases subject <;>
      simp only [Operation.run, define, remove, assignOuter, Except.toOption, Option.map, Option.getD]

/-! Runs. -/

/-- No slot has been freed so often that its generation started over. -/
def Rarely (ops : List Operation) : Prop := ∀ i, (ledger ops).freed i < Nat.pow 2 32

theorem Rarely.before {ops more : List Operation} (rarely : Rarely (ops ++ more)) : Rarely ops := by
  intro i
  have le := freed_le (ledger ops) more i
  rw [← ledger_append] at le
  exact Nat.lt_of_le_of_lt le (rarely i)

theorem Rarely.orderly {ops : List Operation} (rarely : Rarely ops) : Orderly (ledger ops) := by
  induction ops using List.reverseRecOn with
  | nil => exact orderly_new
  | append_singleton ops op ih =>
    rw [ledger_append]
    exact (ih rarely.before).step op rarely.before

/-- An id that has lost its frame never has one again. -/
theorem lost_for_ever {ops more : List Operation} (rarely : Rarely (ops ++ more))
    (issued : (ledger ops).Issued id) (lost : ¬(ledger ops).heap.contains id) :
    ¬(ledger (ops ++ more)).heap.contains id := by
  rw [rarely.before.orderly.contains_iff rarely.before] at lost
  rw [rarely.orderly.contains_iff rarely]
  have behind := issued.resolve_right lost
  have le := freed_le (ledger ops) more id.index
  rw [← ledger_append] at le
  omega

/-! The numbers of slots. -/

theorem isSome_shape_iff : (h.shape i).isSome ↔ i < h.slots.size := by simp [shape]

theorem size_of_shape (same : ∀ i, (k.shape i).isSome = (h.shape i).isSome) : k.slots.size = h.slots.size :=
  eq_of_forall_lt_iff fun i => by rw [← isSome_shape_iff, same, isSome_shape_iff]

/-- While no slot is free, all of them hold frames. -/
theorem Orderly.crowded (orderly : Orderly l) (free : l.heap.free = []) :
    l.heap.liveFrames = l.heap.slots.size := by
  refine Array.countP_eq_size.mpr fun slot member => ?_
  obtain ⟨i, there⟩ := Array.mem_iff_getElem?.mp member
  by_contra empty
  have vacant : l.heap.shape i = some (slot.generation, false) :=
    shape_eq_some_iff.mpr ⟨slot, there, rfl, Bool.eq_false_iff.mpr empty⟩
  have listed := (orderly.listed i).mpr ⟨_, vacant⟩
  rw [free] at listed
  cases listed

/-- A slot is added only where every other holds a frame. -/
theorem Orderly.size_step (orderly : Orderly l) (op : Operation) (rarely : ∀ i, l.freed i < Nat.pow 2 32) :
    (l.step op).heap.slots.size = l.heap.slots.size ∨
      (l.step op).heap.slots.size = (l.step op).heap.liveFrames := by
  cases op with
  | alloc parent label =>
    cases free : l.heap.free with
    | nil =>
      right
      have full := orderly.crowded free
      unfold liveFrames at full
      simp [Ledger.step, Operation.run, Heap.alloc, free, liveFrames, full]
    | cons index rest =>
      left
      simp [Ledger.step, Operation.run, Heap.alloc, free]
  | define | remove | assignOuter => exact .inl (size_of_shape fun i => by rw [Ledger.step, (run_subject rfl _).1])
  | collect s roots values =>
    obtain ⟨freed, k, step, occupied, shape, -, -⟩ := orderly.collect_slots s roots values rarely
    rw [step]
    refine .inl (size_of_shape fun i => ?_)
    rw [shape]
    split
    · rename_i member
      rw [occupied i member]
      rfl
    · rfl

/-- Slots have numbers below the most frames that were ever alive at once. -/
theorem index_lt_of_liveFrames {ops : List Operation} {n : Nat} (rarely : Rarely ops)
    (few : ∀ first second, first ++ second = ops → (ledger first).heap.liveFrames ≤ n) :
    ∀ id ∈ (ledger ops).made, id.index < n := by
  have size : (ledger ops).heap.slots.size ≤ n := by
    induction ops using List.reverseRecOn with
    | nil => exact Nat.zero_le n
    | append_singleton ops op ih =>
      have before := ih rarely.before fun first second same => few first (second ++ [op]) (by simp [← same])
      have now := few (ops ++ [op]) [] (List.append_nil _)
      rw [ledger_append] at now ⊢
      rcases rarely.before.orderly.size_step op rarely.before with same | full
      · exact same ▸ before
      · exact full ▸ now
  intro id member
  refine Nat.lt_of_lt_of_le (isSome_shape_iff.mp ?_) size
  cases absent : (ledger ops).heap.shape id.index with
  | some _ => rfl
  | none =>
    have never := rarely.orderly.fresh id.index absent
    rcases rarely.orderly.issued id member with behind | ⟨-, holds⟩
    · omega
    · obtain ⟨g, there⟩ := holds_iff.mp holds
      cases absent.symm.trans there

/-- Ids are never confused, as long as no slot is freed so often that its generation starts over: the free list
holds the slots without a frame, each once; a new frame gets an id that none had before it; and once the frame
of an id has been freed, nothing is read or written through that id any more. -/
theorem ids_never_confused (ops : List Operation) (rarely : ∀ i, (ledger ops).freed i < Nat.pow 2 32) :
    (ledger ops).heap.free.Nodup ∧
      (∀ i, i ∈ (ledger ops).heap.free ↔
        ∃ slot, (ledger ops).heap.slots[i]? = some slot ∧ slot.frame = none) ∧
      (∀ parent label, ((ledger ops).heap.alloc parent label).1 ∉ (ledger ops).made) ∧
      ∀ first second third id, ops = first ++ second ++ third → (ledger first).heap.contains id →
        ¬(ledger (first ++ second)).heap.contains id → (ledger ops).heap.Gone id := by
  have orderly : Orderly (ledger ops) := Rarely.orderly rarely
  refine ⟨orderly.distinct, fun i => ?_, fun parent label before => ?_, ?_⟩
  · rw [orderly.listed]
    simp [shape_eq_some_iff]
  · have distinct := (orderly.alloc parent label rarely).unlike
    exact (List.nodup_cons.mp distinct).1 before
  · rintro first second third id rfl alive lost
    have rarely : Rarely (first ++ second ++ third) := rarely
    have start : (ledger first).Issued id :=
      .inr ((rarely.before.before.orderly.contains_iff rarely.before.before).mp alive)
    have issued : (ledger (first ++ second)).Issued id := by
      rw [ledger_append]
      exact start.run second
    exact gone_of_not_contains (lost_for_ever rarely issued lost)

/-- A frame is freed and its slot taken again: the slot's new id is another one, and the old one stays gone. -/
theorem ids_never_confused_reuse :
    let ops : List Operation := [.alloc none none, .alloc (some ⟨0, 0⟩) none, .collect {} [⟨0, 0⟩] [],
      .alloc (some ⟨0, 0⟩) none]
    (∀ i, (ledger ops).freed i < Nat.pow 2 32) ∧ (ledger ops).made = [⟨1, 1⟩, ⟨1, 0⟩, ⟨0, 0⟩] ∧
      ((ledger ops).heap.alloc none none).1 ∉ (ledger ops).made ∧ (ledger ops).heap.Gone ⟨1, 0⟩ := by
  intro ops
  have rarely (i : Nat) : (ledger ops).freed i < Nat.pow 2 32 :=
    Nat.lt_of_le_of_lt (freed_le_length {} ops i) (by decide : 0 + 4 < Nat.pow 2 32)
  obtain ⟨-, -, new, gone⟩ := ids_never_confused ops rarely
  exact ⟨rarely, by decide, new none none,
    gone (ops.take 2) [ops[2]] [ops[3]] ⟨1, 0⟩ rfl (by decide) (by decide)⟩

end Heap
end CallByNeed
