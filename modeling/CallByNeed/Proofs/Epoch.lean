import CallByNeed.Proofs.Collection
import CallByNeed.Proofs.History

/-!
The function epoch. While it stands still, a frame that is alive stays alive, with its parent and with the
functions it binds: binding a function, replacing one and freeing a frame all move it. The version of the
registered methods moves with these in the same way, and a builtin cannot come without a new binding.
-/
namespace CallByNeed

/-- The function that a name is bound to in a frame directly, not through a promise. -/
def Frame.function? (f : Frame) (name : Name) : Option Value :=
  (f.bindings.get? name).filter Value.isFunction

namespace Heap

variable {h k l : Heap} {id other : EnvId} {f : Frame} {name : Name} {v : Value}

/-- The base frame is there, and free slots hold no frames. -/
structure Tidy (h : Heap) : Prop where
  base : h.contains Session.base
  distinct : h.free.Nodup
  vacant : ∀ i ∈ h.free, ∃ slot, h.slots[i]? = some slot ∧ slot.frame = none

/-- Every frame that is alive stays alive, with its parent and the functions it binds. -/
def Stands (h k : Heap) : Prop := ∀ id f, h.frame? id = some f →
  ∃ g, k.frame? id = some g ∧ g.parent = f.parent ∧ ∀ name, g.function? name = f.function? name

/-- What a heap keeps, above all while its function epoch stands still. -/
structure Since (h k : Heap) : Prop where
  epoch : h.functionEpoch ≤ k.functionEpoch
  size : h.slots.size ≤ k.slots.size
  frames : k.functionEpoch = h.functionEpoch → h.Stands k

theorem Since.refl (h : Heap) : h.Since h :=
  ⟨Nat.le_refl _, Nat.le_refl _, fun _ _ f found => ⟨f, found, rfl, fun _ => rfl⟩⟩

theorem Since.trans (first : h.Since k) (second : k.Since l) : h.Since l := by
  refine ⟨Nat.le_trans first.epoch second.epoch, Nat.le_trans first.size second.size,
    fun still id f found => ?_⟩
  have between : k.functionEpoch = h.functionEpoch :=
    Nat.le_antisymm (still ▸ second.epoch) first.epoch
  obtain ⟨g, foundG, parentG, functionsG⟩ := first.frames between id f found
  obtain ⟨e, foundE, parentE, functionsE⟩ := second.frames (still.trans between.symm) id g foundG
  exact ⟨e, foundE, parentE.trans parentG, fun name => (functionsE name).trans (functionsG name)⟩

theorem Since.of_kept (epoch : h.functionEpoch ≤ k.functionEpoch) (size : h.slots.size ≤ k.slots.size)
    (kept : k.functionEpoch = h.functionEpoch → ∀ id f, h.frame? id = some f → k.frame? id = some f) :
    h.Since k :=
  ⟨epoch, size, fun still id f found => ⟨f, kept still id f found, rfl, fun _ => rfl⟩⟩

theorem le_bumpEpoch (changed : Bool) (h : Heap) :
    h.functionEpoch ≤ (h.bumpEpoch changed).functionEpoch := by
  cases changed with
  | false => exact Nat.le_refl _
  | true => exact Nat.le_succ _

theorem unchanged_of_still {changed : Bool}
    (still : (h.bumpEpoch changed).functionEpoch = h.functionEpoch) : changed = false := by
  cases changed with
  | false => rfl
  | true => exact absurd still (Nat.succ_ne_self _)

theorem bumpEpoch_free (changed : Bool) (h : Heap) : (h.bumpEpoch changed).free = h.free := by
  cases changed <;> rfl

theorem bumpEpoch_slots (changed : Bool) (h : Heap) : (h.bumpEpoch changed).slots = h.slots := by
  cases changed <;> rfl

/-! Binding. -/

theorem Since.bind (alive : h.contains id) (name : Name) (v : Value) : h.Since (h.bind id name v) := by
  obtain ⟨f, found⟩ := contains_iff_exists.mp alive
  have size : (h.bind id name v).slots.size = h.slots.size := by rw [slots_bind, Array.size_modify]
  refine ⟨le_bumpEpoch _ (h.updateFrame id _), Nat.le_of_eq size.symm, fun still e g foundG => ?_⟩
  have unchanged := unchanged_of_still (h := h.updateFrame id _) still
  rw [frame_bind found]
  by_cases here : e = id
  · subst here
    cases found.symm.trans foundG
    refine ⟨_, if_pos rfl, rfl, fun other => ?_⟩
    -- Neither what was bound nor what is bound now is a function, or the epoch would have moved.
    obtain ⟨new, old⟩ : v.isFunction = false ∧ (f.bindings.get? name).any Value.isFunction = false := by
      rw [found] at unchanged
      exact Bool.or_eq_false_iff.mp unchanged
    unfold Frame.function?
    rw [Table.get?_insert]
    split
    · rename_i same
      subst same
      cases bound : f.bindings.get? name with
      | none => simp [Option.filter, new]
      | some w =>
        rw [bound] at old
        have old : w.isFunction = false := old
        simp [Option.filter, new, old]
    · rfl
  · exact ⟨g, (if_neg here).trans foundG, rfl, fun _ => rfl⟩

theorem Tidy.bind (tidy : h.Tidy) (alive : h.contains id) (name : Name) (v : Value) :
    (h.bind id name v).Tidy := by
  obtain ⟨f, found⟩ := contains_iff_exists.mp alive
  have free : (h.bind id name v).free = h.free := bumpEpoch_free _ _
  refine ⟨?_, free ▸ tidy.distinct, fun i member => ?_⟩
  · unfold contains
    rw [frame_bind found]
    split
    · rfl
    · exact tidy.base
  · obtain ⟨slot, there, empty⟩ := tidy.vacant i (free ▸ member)
    rw [slots_bind, Array.getElem?_modify, there]
    split
    · exact ⟨_, rfl, by dsimp only; rw [empty]; rfl⟩
    · exact ⟨slot, rfl, empty⟩

/-! New frames. -/

theorem frame?_alloc (vacant : ∀ i ∈ h.free, ∃ slot, h.slots[i]? = some slot ∧ slot.frame = none)
    (parent : Option EnvId) (label : Option Name) (found : h.frame? id = some f) : (h.alloc parent label).2.frame? id = some f := by
  obtain ⟨slot, there, generation, holds⟩ := frame?_eq_some_iff.mp found
  refine frame?_eq_some_iff.mpr ⟨slot, ?_, generation, holds⟩
  unfold alloc
  split
  · have inside : id.index < h.slots.size := (Array.getElem?_eq_some_iff.mp there).1
    rw [Array.getElem?_push_lt inside, ← there, Array.getElem?_eq_getElem inside]
  · rename_i index rest free
    dsimp only
    rw [Array.getElem?_modify, there]
    split
    · rename_i same
      obtain ⟨slot', there', empty⟩ := vacant index (free ▸ List.mem_cons_self)
      rw [same, there] at there'
      cases there'
      simp [empty] at holds
    · rfl

theorem size_alloc (parent : Option EnvId) (label : Option Name) (h : Heap) :
    h.slots.size ≤ (h.alloc parent label).2.slots.size := by
  unfold Heap.alloc
  split
  · exact Array.size_push _ ▸ Nat.le_succ _
  · exact Nat.le_of_eq Array.size_modify.symm

theorem Since.alloc (tidy : h.Tidy) (parent : Option EnvId) (label : Option Name) :
    h.Since (h.alloc parent label).2 := by
  have epoch : (h.alloc parent label).2.functionEpoch = h.functionEpoch := by
    unfold Heap.alloc
    split <;> rfl
  exact .of_kept (Nat.le_of_eq epoch.symm) (size_alloc parent label h) fun _ _ _ found => frame?_alloc tidy.vacant parent label found

theorem Tidy.alloc (tidy : h.Tidy) (parent : Option EnvId) (label : Option Name) :
    (h.alloc parent label).2.Tidy := by
  obtain ⟨base, found⟩ := contains_iff_exists.mp tidy.base
  have alive : (h.alloc parent label).2.contains Session.base :=
    contains_iff_exists.mpr ⟨base, frame?_alloc tidy.vacant parent label found⟩
  cases free : h.free with
  | nil =>
    have empty : (h.alloc parent label).2.free = [] := by simp [Heap.alloc, free]
    exact ⟨alive, empty ▸ .nil, fun i member => by rw [empty] at member; cases member⟩
  | cons index rest =>
    have left : (h.alloc parent label).2.free = rest := by simp [Heap.alloc, free]
    obtain ⟨fresh, distinct⟩ := List.nodup_cons.mp (free ▸ tidy.distinct)
    refine ⟨alive, left ▸ distinct, fun i member => ?_⟩
    rw [left] at member
    obtain ⟨slot, there, empty⟩ := tidy.vacant i (free ▸ List.mem_cons_of_mem _ member)
    have apart : index ≠ i := fun same => fresh (same ▸ member)
    refine ⟨slot, ?_, empty⟩
    simp [Heap.alloc, free, Array.getElem?_modify, apart, there]

/-! Collections. -/

variable {s : Store} {roots : List EnvId} {values : List Value}

theorem size_sweep (freed : List Nat) (slots : Array Slot) : (sweep freed slots).size = slots.size := by
  induction freed generalizing slots with
  | nil => rfl
  | cons i freed ih => exact (ih (slots.modify i freeSlot)).trans Array.size_modify

/-- A heap whose freed slots are given out again, the last one first. -/
def release (h : Heap) (freed : List Nat) : Heap :=
  { h with slots := sweep freed h.slots, free := freed.reverse ++ h.free }

theorem collect_heap (h : Heap) (s : Store) (roots : List EnvId) (values : List Value) :
    let freed := h.garbage (h.reachable s (roots ++ values.flatMap s.environments))
    (h.collect s roots values).2 = (h.release freed).bumpEpoch (!freed.isEmpty) := by
  intro freed
  have free : freed.reverse ++ h.free = freed.foldl (fun free i => i :: free) h.free :=
    List.foldl_flip_cons_eq_append'.symm
  unfold release
  rw [free]
  rfl

theorem Since.collect (h : Heap) (s : Store) (roots : List EnvId) (values : List Value) :
    h.Since (h.collect s roots values).2 := by
  have run := collect_heap h s roots values
  have size : (h.collect s roots values).2.slots.size = h.slots.size := by
    rw [run, bumpEpoch_slots]
    exact size_sweep _ h.slots
  refine .of_kept (run ▸ le_bumpEpoch _ (h.release _)) (Nat.le_of_eq size.symm) fun still id f found => ?_
  -- With the epoch where it was nothing was freed, so every frame alive was marked.
  have nothing : h.garbage (h.reachable s (roots ++ values.flatMap s.environments)) = [] := by
    have unchanged := unchanged_of_still (h := h.release _) (run ▸ still)
    simpa using unchanged
  obtain ⟨slot, there, -, holds⟩ := frame?_eq_some_iff.mp found
  rw [frame?_collect]
  split
  · exact found
  · rename_i unmarked
    have freed := mem_garbage_iff.mpr ⟨⟨slot, there, Option.isSome_iff_exists.mpr ⟨f, holds⟩⟩, unmarked⟩
    rw [nothing] at freed
    cases freed

theorem Tidy.collect (tidy : h.Tidy) (rooted : Session.base ∈ roots) (s : Store) (values : List Value) :
    (h.collect s roots values).2.Tidy := by
  let freed := h.garbage (h.reachable s (roots ++ values.flatMap s.environments))
  have slots : (h.collect s roots values).2.slots = sweep freed h.slots :=
    (congrArg slots (collect_heap h s roots values)).trans (bumpEpoch_slots _ _)
  have free : (h.collect s roots values).2.free = freed.reverse ++ h.free :=
    (congrArg Heap.free (collect_heap h s roots values)).trans (bumpEpoch_free _ _)
  have apart : ∀ i ∈ h.free, i ∉ freed := by
    intro i member garbage
    obtain ⟨⟨slot, there, some⟩, -⟩ := mem_garbage_iff.mp garbage
    obtain ⟨slot', there', empty⟩ := tidy.vacant i member
    rw [there] at there'
    cases there'
    simp [empty] at some
  constructor
  · exact ((collect_exact h s roots values).1 Session.base).mpr (.root rooted tidy.base)
  · rw [free]
    refine List.nodup_append.mpr ⟨List.nodup_reverse.mpr garbage_nodup, tidy.distinct, ?_⟩
    rintro i new j old rfl
    exact apart i old (List.mem_reverse.mp new)
  · intro i member
    rw [free, List.mem_append, List.mem_reverse] at member
    rw [slots]
    rcases member with new | old
    · obtain ⟨⟨slot, there, -⟩, -⟩ := mem_garbage_iff.mp new
      have inside : i < (sweep freed h.slots).size :=
        size_sweep freed h.slots ▸ (Array.getElem?_eq_some_iff.mp there).1
      have left := Array.getElem?_eq_getElem inside
      exact ⟨_, left, sweep_freed h.slots new _ left⟩
    · obtain ⟨slot, there, empty⟩ := tidy.vacant i old
      exact ⟨slot, (sweep_other h.slots (apart i old)).trans there, empty⟩

/-- The epoch stands still at most while no function is bound. -/
theorem plain_of_still (still : (h.bind id name v).functionEpoch = h.functionEpoch) :
    v.isFunction = false :=
  (Bool.or_eq_false_iff.mp (unchanged_of_still (h := h.updateFrame id _) still)).1

end Heap

namespace Session

variable {s t u : Session}

/-- What a session keeps of where methods are found. -/
structure Since (s t : Session) : Prop where
  heap : s.heap.Since t.heap
  version : s.methodsVersion ≤ t.methodsVersion
  methods : t.methodsVersion = s.methodsVersion → t.methods = s.methods
  builtins : t.heap.functionEpoch = s.heap.functionEpoch → t.builtins = s.builtins

theorem Since.of_same (heap : t.heap = s.heap) (methods : t.methods = s.methods)
    (version : t.methodsVersion = s.methodsVersion) (builtins : t.builtins = s.builtins) : s.Since t :=
  ⟨heap ▸ .refl _, Nat.le_of_eq version.symm, fun _ => methods, fun _ => builtins⟩

theorem Since.trans (first : s.Since t) (second : t.Since u) : s.Since u where
  heap := first.heap.trans second.heap
  version := Nat.le_trans first.version second.version
  methods still := by
    have le := first.version
    have le' := second.version
    rw [second.methods (by omega), first.methods (by omega)]
  builtins still := by
    have le := first.heap.epoch
    have le' := second.heap.epoch
    rw [second.builtins (by omega), first.builtins (by omega)]

theorem SameMemory.since (same : s.SameMemory t) (heap : s.heap.Since t.heap)
    (builtins : t.heap.functionEpoch = s.heap.functionEpoch → t.builtins = s.builtins) : s.Since t :=
  ⟨heap, Nat.le_of_eq same.methodsVersion.symm, fun _ => same.methods, builtins⟩

theorem Change.since (change : s.Change t) (tidy : s.heap.Tidy) : s.Since t ∧ t.heap.Tidy := by
  cases change with
  | enters enters heap builtins =>
    refine ⟨?_, heap ▸ tidy⟩
    have kept : s.heap.Since t.heap := heap ▸ .refl _
    cases enters with
    | nothing same => exact same.since kept fun _ => builtins
    | method name f => exact ⟨kept, Nat.le_succ _, fun still => absurd still (Nat.succ_ne_self _), fun _ => builtins⟩
    | generic | formal => exact ⟨kept, Nat.le_refl _, fun _ => rfl, fun _ => builtins⟩
  | consults => exact ⟨.of_same rfl rfl rfl rfl, tidy⟩
  | binds id name v alive same heap builtins =>
    exact ⟨same.since (heap ▸ .bind alive name v) fun _ => builtins, heap ▸ tidy.bind alive name v⟩
  | frames parent label same heap builtins =>
    exact ⟨same.since (heap ▸ .alloc tidy parent label) fun _ => builtins, heap ▸ tidy.alloc parent label⟩
  | collects same heap builtins =>
    exact ⟨same.since (heap ▸ .collect _ _ _ _) fun _ => builtins, heap ▸ tidy.collect (by simp) _ _⟩
  | registers b id alive same heap builtins =>
    refine ⟨same.since (heap ▸ .bind alive _ _) fun still => ?_, heap ▸ tidy.bind alive _ _⟩
    rw [heap] at still
    cases Heap.plain_of_still still

theorem Run.since {o : Session} (run : Run o s t) (tidy : s.heap.Tidy) : s.Since t ∧ t.heap.Tidy := by
  induction run with
  | refl s => exact ⟨.of_same rfl rfl rfl rfl, tidy⟩
  | change _ change ih =>
    obtain ⟨before, tidied⟩ := ih tidy
    obtain ⟨since, kept⟩ := change.since tidied
    exact ⟨before.trans since, kept⟩
  | remembered generic chain scope _ site _ _ _ _ ih =>
    obtain ⟨before, tidied⟩ := ih tidy
    exact ⟨before.trans (.of_same rfl rfl rfl rfl), tidied⟩
  | dispatched chains site _ _ _ _ ih =>
    obtain ⟨before, tidied⟩ := ih tidy
    exact ⟨before.trans (.of_same rfl rfl rfl rfl), tidied⟩

/-! Sessions from the start on. -/

theorem tidy_bindBuiltins (bindings : List (Name × Nat)) {h : Heap} (tidy : h.Tidy) :
    (bindBuiltins bindings h).Tidy := by
  unfold bindBuiltins
  induction bindings generalizing h with
  | nil => exact tidy
  | cons entry rest ih =>
    refine ih ?_
    dsimp only
    cases defined : h.define base entry.1 (.builtin entry.1 entry.2) with
    | error f => exact tidy
    | ok k =>
      obtain ⟨alive, rfl⟩ := Heap.alive_of_define defined
      exact tidy.bind alive _ _

theorem tidy_start (options : Options) : (start options).heap.Tidy := by
  unfold start
  generalize ImplicitClasses.make {} = made
  obtain ⟨implicit, store⟩ := made
  dsimp only
  exact tidy_bindBuiltins _ ⟨rfl, .nil, nofun⟩

/-- Sessions in the history of one started with some options, within evaluations or between them. -/
def Attained (options : Options) (s : Session) : Prop := (start options).Run (start options) s

variable {options : Options}

theorem Attained.tidy (attained : Attained options s) : s.heap.Tidy :=
  (attained.since (tidy_start options)).2

/-- Whatever a host brings about is attained. -/
theorem Reachable.attained (reachable : s.Reachable) : ∃ options, Attained options s := by
  obtain ⟨options, run⟩ := reachable
  refine ⟨options, ?_⟩
  induction run with
  | refl => exact .refl _
  | tail _ step ih => exact Run.trans ih (HostStep.run ih step (Attained.tidy ih).base)

end Session
end CallByNeed
