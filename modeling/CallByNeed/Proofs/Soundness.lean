import CallByNeed.Proofs.Handling
import CallByNeed.Proofs.Running

/-!
Sound sessions. All that a session holds keeps to an ambit: objects, bindings, call records, methods
and caches. The records alive are in order: what runs under one that is flagged for eager evaluation is
flagged itself and is no function. What the single changes of a session keep of this.
-/
namespace CallByNeed

/-- Every method a cache remembers is as stated. -/
structure DispatchCache.All (P : Value → Prop) (c : DispatchCache) : Prop where
  last : ∀ e, c.last = some e → P e.method.method
  named : ∀ e ∈ c.byNames.values, P e.2.method

theorem DispatchCache.All.imp {P Q : Value → Prop} {c : DispatchCache} (all : c.All P)
    (weaker : ∀ v, P v → Q v) : c.All Q :=
  ⟨fun e same => weaker _ (all.last e same), fun e member => weaker _ (all.named e member)⟩

namespace Ambit

variable (A : Ambit)

structure AllowsRecord (n : Nat) (r : Record) : Prop where
  call : ∀ e, r.call = some e → A.Reads n e
  function : A.AdmitsAny n r.function?
  supplied : ∀ s, r.supplied? = some s → A.AdmitsAll n s.values
  object : ∀ d, r.dispatch? = some d → A.Admits n d.object

structure AllowsCache (n : Nat) (c : DispatchCache) : Prop where
  last : ∀ e, c.last = some e → A.Admits n e.method.method
  named : ∀ e ∈ c.byNames.values, A.Admits n e.2.method

variable {A} {n k : Nat}

theorem AllowsRecord.mono {r : Record} (ok : A.AllowsRecord n r) (le : n ≤ k) :
    A.AllowsRecord k r where
  call e same := (ok.call e same).mono le
  function := ok.function.mono le
  supplied s same := (ok.supplied s same).mono le
  object d same := (ok.object d same).mono le

theorem AllowsCache.mono {c : DispatchCache} (ok : A.AllowsCache n c) (le : n ≤ k) :
    A.AllowsCache k c where
  last e same := (ok.last e same).mono le
  named e member := (ok.named e member).mono le

end Ambit

/-- Free slots are there, and what is bound to names of the ambit keeps to it. -/
structure Heap.Sound (A : Ambit) (n : Nat) (h : Heap) : Prop where
  free : ∀ i ∈ h.free, i < h.slots.size
  bindings : ∀ slot ∈ h.slots, ∀ f, slot.frame = some f → ∀ entry ∈ f.bindings.entries,
    A.symbol entry.1 → A.Admits n entry.2

namespace Records

/-- No record is flagged for eager evaluation. -/
def Calm (rs : Records) : Prop := ∀ r ∈ rs.live, r.eagerOnly = false

def Childless (rs : Records) (c : RecordId) : Prop := ∀ r ∈ rs.live, r.parent ≠ some c

/-- Records are numbered in order, and under a flagged one there are flagged ones only, none of them
that of a function. -/
structure Sound (A : Ambit) (n : Nat) (rs : Records) : Prop where
  distinct : (rs.live.map (·.id)).Nodup
  issued : ∀ r ∈ rs.live, r.id.index < rs.next
  parents : ∀ r ∈ rs.live, ∀ p, r.parent = some p → p.index < rs.next
  orderly : ∀ r ∈ rs.live, ∀ p ∈ rs.live, r.parent = some p.id → p.eagerOnly = true →
    r.eagerOnly = true ∧ r.isFunction = false
  within : ∀ r ∈ rs.live, A.AllowsRecord n r

end Records

/-- A promise that is not there or waits to be forced. -/
def Store.Open (s : Store) (id : PromiseId) : Prop :=
  ∀ p, s.promises[id.index]? = some p → ∃ env, p.state = .unevaluated env

namespace Session

/-- The number of vectors. -/
abbrev extent (s : Session) : Nat := s.store.vectors.size

variable (A : Ambit)

/-- All a session holds keeps to an ambit. -/
structure Sound (s : Session) : Prop where
  store : s.store.Sound A
  heap : s.heap.Sound A s.extent
  records : s.records.Sound A s.extent
  methods : A.AdmitsAll s.extent s.methods.values
  tables : ∀ t ∈ s.tables, A.AdmitsAll s.extent t.methods.values
  caches : ∀ site ∈ s.sites.values, A.AllowsCache s.extent site.cache

/-- What an evaluation does to a session, the records apart. -/
structure Evolves (w s : Session) : Prop where
  next : w.records.next ≤ s.records.next
  options : s.options = w.options
  builtins : s.builtins = w.builtins
  frames : ∀ env, w.heap.contains env = true → s.heap.contains env = true
  opens : ∀ id, s.store.Open id → w.store.Open id
  course : A.Course w.store.vectors s.store.vectors

/-- And the records that were alive are, as they were. -/
structure Follows (w s : Session) : Prop extends Evolves A w s where
  live : s.records.live = w.records.live

/-- A session in which a record was opened, and nothing runs under it yet. -/
structure Nests (w s : Session) (r : Record) : Prop extends Evolves A w s where
  live : s.records.live = r :: w.records.live
  childless : s.records.Childless r.id
  depth : ∀ c, r.parent = some c → w.records.contains c = true → r.depth = w.records.depth c + 1

variable {A} {w s t : Session}

theorem Evolves.refl (s : Session) : s.Evolves A s :=
  ⟨Nat.le_refl _, rfl, rfl, fun _ h => h, fun _ h => h, .refl⟩

theorem Evolves.trans (first : w.Evolves A s) (second : s.Evolves A t) : w.Evolves A t where
  next := Nat.le_trans first.next second.next
  options := second.options.trans first.options
  builtins := second.builtins.trans first.builtins
  frames env alive := second.frames env (first.frames env alive)
  opens id waiting := first.opens id (second.opens id waiting)
  course := first.course.trans second.course

theorem Evolves.extent_le (evolves : w.Evolves A s) : w.extent ≤ s.extent :=
  Ambit.Course.size_le evolves.course

theorem Follows.refl (s : Session) : s.Follows A s := ⟨.refl s, rfl⟩

theorem Follows.trans (first : w.Follows A s) (second : s.Follows A t) : w.Follows A t :=
  ⟨first.toEvolves.trans second.toEvolves, second.live.trans first.live⟩

theorem Follows.extent_le (follows : w.Follows A s) : w.extent ≤ s.extent :=
  follows.toEvolves.extent_le

end Session

/-! What single changes keep. -/

namespace Heap.Sound

variable {A : Ambit} {n k : Nat} {h : Heap}

theorem mono (sound : h.Sound A n) (le : n ≤ k) : h.Sound A k :=
  ⟨sound.free, fun slot member f there entry bound allowed =>
    (sound.bindings slot member f there entry bound allowed).mono le⟩

theorem bound (sound : h.Sound A n) {env : EnvId} {f : Frame} (found : h.frame? env = some f)
    {name : Name} {v : Value} (there : f.bindings.get? name = some v) (allowed : A.symbol name) :
    A.Admits n v := by
  unfold Heap.frame? at found
  split at found
  · rename_i slot held
    split at found
    · exact sound.bindings slot (Array.mem_of_getElem? held) f found _ (Table.mem_of_get? there) allowed
    · cases found
  · cases found

end Heap.Sound

namespace Heap

open Ambit

variable {A : Ambit} {n : Nat} {h : Heap}

/-! Reading fails with no signal, and what is read under a name of the ambit keeps to it. -/

theorem fair_frame (h : Heap) (env : EnvId) : Fair (fun _ f => h.frame? env = some f) n (h.frame env) := by
  unfold Heap.frame
  split
  · rename_i f found
    exact found
  · rfl

theorem fair_parent (h : Heap) (env : EnvId) : Fair Any n (h.parent env) :=
  fair_bind (fair_frame h env) fun _ _ => trivial

theorem fair_getLocal (sound : h.Sound A n) (env : EnvId) {name : Name} (allowed : A.symbol name) :
    Fair A.AdmitsAny n (h.getLocal env name) :=
  fair_bind (fair_frame h env) fun _ found _ there => sound.bound found there allowed

theorem fair_anyLocal (h : Heap) (env : EnvId) (name : Name) : Fair Any n (h.getLocal env name) :=
  fair_bind (fair_frame h env) fun _ _ => trivial

theorem fair_lookup (sound : h.Sound A n) (env : EnvId) {name : Name} (allowed : A.symbol name) :
    Fair (fun n found => A.AdmitsAny n (found.map (·.2))) n (h.lookup env name) := by
  unfold Heap.lookup
  induction h.chain env with
  | nil => exact nofun
  | cons env rest ih =>
    refine fair_bind (fair_getLocal sound env allowed) fun found ok => ?_
    cases found with
    | none => exact ih
    | some v =>
      intro w same
      cases same
      exact ok v rfl

theorem fair_anyLookup (h : Heap) (env : EnvId) (name : Name) : Fair Any n (h.lookup env name) := by
  unfold Heap.lookup
  induction h.chain env with
  | nil => trivial
  | cons env rest ih =>
    refine fair_bind (fair_anyLocal h env name) fun found _ => ?_
    cases found with
    | none => exact ih
    | some v => trivial

theorem fair_replacedBinding (h : Heap) (name : Name) (env : EnvId) (outer : Bool) :
    Fair Any n (replacedBinding h name env outer) := by
  cases outer with
  | false => exact fair_anyLocal h env name
  | true =>
    refine fair_bind (fair_parent h env) fun parent _ => ?_
    cases parent with
    | none => trivial
    | some parent => exact fair_bind (fair_anyLookup h parent name) fun _ _ => trivial

theorem fair_versionSnapshot (h : Heap) (env : EnvId) : Fair Any n (h.versionSnapshot env) := by
  unfold Heap.versionSnapshot
  induction h.chain env with
  | nil => trivial
  | cons env rest ih =>
    rw [List.mapM_cons]
    exact fair_bind (fair_bind (R := Any) (fair_frame h env) fun _ _ => trivial) fun _ _ =>
      fair_bind ih fun _ _ => trivial

/-! Binding. -/

theorem contains_iff {env : EnvId} : h.contains env = true ↔
    ∃ slot, h.slots[env.index]? = some slot ∧ slot.generation = env.generation ∧
      slot.frame.isSome = true := by
  unfold Heap.contains Heap.frame?
  cases h.slots[env.index]? with
  | none => simp
  | some slot =>
    by_cases same : slot.generation = env.generation
    · simp [same]
    · simp [same]

/-- A slot that is changed keeps its generation and its frame. -/
theorem contains_modify {h' : Heap} {i : Nat} {g : Slot → Slot} {env : EnvId}
    (slots : h'.slots = h.slots.modify i g) (generation : ∀ slot, (g slot).generation = slot.generation)
    (frame : ∀ slot, slot.frame.isSome = true → (g slot).frame.isSome = true)
    (alive : h.contains env = true) : h'.contains env = true := by
  obtain ⟨slot, found, same, there⟩ := contains_iff.mp alive
  refine contains_iff.mpr ?_
  rw [slots, Array.getElem?_modify, found]
  split
  · exact ⟨g slot, rfl, (generation slot).trans same, frame slot there⟩
  · exact ⟨slot, rfl, same, there⟩

theorem bindings_modify {h' : Heap} {i : Nat} {g : Slot → Slot}
    (slots : h'.slots = h.slots.modify i g) (sound : h.Sound A n)
    (kept : ∀ slot ∈ h.slots, ∀ f, (g slot).frame = some f → ∀ entry ∈ f.bindings.entries,
      A.symbol entry.1 → A.Admits n entry.2) :
    ∀ slot ∈ h'.slots, ∀ f, slot.frame = some f → ∀ entry ∈ f.bindings.entries,
      A.symbol entry.1 → A.Admits n entry.2 := by
  intro slot member f there
  obtain ⟨j, found⟩ := Array.mem_iff_getElem?.mp member
  rw [slots, Array.getElem?_modify] at found
  split at found
  · obtain ⟨old, held, rfl⟩ := Option.map_eq_some_iff.mp found
    exact kept old (Array.mem_of_getElem? held) f there
  · exact sound.bindings slot (Array.mem_of_getElem? found) f there

/-- Free slots are there after a frame was made. -/
theorem free_alloc (free : ∀ i ∈ h.free, i < h.slots.size) (parent : Option EnvId) (label : Option Name) :
    ∀ i ∈ (h.alloc parent label).2.free, i < (h.alloc parent label).2.slots.size := by
  unfold Heap.alloc
  split
  · rename_i full
    simp [full]
  · rename_i index rest reused
    intro i member
    rw [Array.size_modify]
    exact free i (reused ▸ List.mem_cons_of_mem _ member)

/-- A slot after a frame was made is one that was there, or has the new frame. -/
theorem slot_alloc {slot : Slot} {parent : Option EnvId} {label : Option Name}
    (member : slot ∈ (h.alloc parent label).2.slots) :
    slot ∈ h.slots ∨ slot.frame = some ⟨parent, {}, 0, label⟩ := by
  unfold Heap.alloc at member
  split at member
  · rcases Array.mem_push.mp member with old | rfl
    · exact .inl old
    · exact .inr rfl
  · obtain ⟨j, found⟩ := Array.mem_iff_getElem?.mp member
    rw [Array.getElem?_modify] at found
    split at found
    · obtain ⟨_, _, rfl⟩ := Option.map_eq_some_iff.mp found
      exact .inr rfl
    · exact .inl (Array.mem_of_getElem? found)

theorem Sound.alloc (sound : h.Sound A n) (parent : Option EnvId) (label : Option Name) :
    (h.alloc parent label).2.Sound A n := by
  refine ⟨free_alloc sound.free parent label, fun slot member f there => ?_⟩
  rcases slot_alloc member with old | new
  · exact sound.bindings slot old f there
  · rw [new] at there
    cases there
    exact nofun

theorem contains_alloc {parent : Option EnvId} {label : Option Name} {env : EnvId}
    (alive : h.contains env = true) : (h.alloc parent label).2.contains env = true := by
  unfold Heap.alloc
  split
  · obtain ⟨slot, found, same, there⟩ := contains_iff.mp alive
    refine contains_iff.mpr ⟨slot, ?_, same, there⟩
    have inside : env.index < h.slots.size := (Array.getElem?_eq_some_iff.mp found).1
    rw [Array.getElem?_push_lt inside]
    exact (Array.getElem?_eq_some_iff.mp found).2 ▸ rfl
  · exact contains_modify (g := fun slot => { slot with frame := some ⟨parent, {}, 0, label⟩ }) rfl
      (fun _ => rfl) (fun _ _ => rfl) alive

theorem contains_new (free : ∀ i ∈ h.free, i < h.slots.size) (parent : Option EnvId)
    (label : Option Name) : (h.alloc parent label).2.contains (h.alloc parent label).1 = true := by
  unfold Heap.alloc
  split
  · exact contains_iff.mpr ⟨_, Array.getElem?_push_size, rfl, rfl⟩
  · rename_i index rest reused
    have inside : index < h.slots.size := free index (reused ▸ List.mem_cons_self)
    refine contains_iff.mpr ⟨{ h.slots[index] with frame := some ⟨parent, {}, 0, label⟩ }, ?_, ?_, rfl⟩
    · dsimp only
      rw [Array.getElem?_modify]
      simp [inside]
    · simp [inside]

theorem free_bind (free : ∀ i ∈ h.free, i < h.slots.size) (env : EnvId) (name : Name) (v : Value) :
    ∀ i ∈ (h.bind env name v).free, i < (h.bind env name v).slots.size := by
  have same : (h.bind env name v).free = h.free := by
    unfold Heap.bind Heap.bumpEpoch
    dsimp only
    split <;> rfl
  rw [same, slots_bind, Array.size_modify]
  exact free

theorem Sound.bind (sound : h.Sound A n) {v : Value} (env : EnvId) {name : Name}
    (ok : A.symbol name → A.Admits n v) : (h.bind env name v).Sound A n := by
  refine ⟨free_bind sound.free env name v, bindings_modify (slots_bind h env name v) sound
    fun slot member f there entry bound allowed => ?_⟩
  obtain ⟨old, held, rfl⟩ := Option.map_eq_some_iff.mp there
  rcases Table.mem_insert bound with rfl | kept
  · exact ok allowed
  · exact sound.bindings slot member old held entry kept allowed

theorem contains_bind {env other : EnvId} (name : Name) (v : Value) (alive : h.contains other = true) :
    (h.bind env name v).contains other = true := by
  refine contains_modify (slots_bind h env name v) (fun _ => rfl) (fun slot there => ?_) alive
  simpa using there

theorem fair_bindingFrame (h : Heap) (name : Name) (last : EnvId) (chain : List EnvId) :
    Fair Any n (h.bindingFrame name last chain) := by
  induction chain generalizing last with
  | nil => trivial
  | cons env rest ih =>
    refine fair_bind (fair_frame h env) fun f _ => ?_
    split
    · trivial
    · exact ih env

theorem fair_assignOuter (h : Heap) (env : EnvId) (name : Name) (v : Value) :
    Fair (fun _ r => ∃ target, r.2 = h.bind target name v) n (h.assignOuter env name v) :=
  fair_bind (fair_parent h env) fun _ _ => fair_bind (fair_bindingFrame h name _ _) fun target _ =>
    fair_bind (Q := fun _ h' => h' = h.bind target name v)
      (fair_bind (fair_frame h target) fun _ _ => rfl) fun _ same => ⟨target, same⟩

end Heap

namespace Records

variable {A : Ambit} {n k : Nat} {rs : Records} {r : Record} {c : RecordId}

theorem Sound.mono (sound : rs.Sound A n) (le : n ≤ k) : rs.Sound A k :=
  { sound with within := fun r member => (sound.within r member).mono le }

/-- The same records, with more numbers given out. -/
theorem Sound.same {rs' : Records} (sound : rs.Sound A n) (live : rs'.live = rs.live)
    (next : rs.next ≤ rs'.next) : rs'.Sound A n := by
  obtain ⟨distinct, issued, parents, orderly, within⟩ := sound
  constructor
  · rwa [live]
  · rw [live]
    exact fun r member => Nat.lt_of_lt_of_le (issued r member) next
  · rw [live]
    exact fun r member p same => Nat.lt_of_lt_of_le (parents r member p same) next
  · rwa [live]
  · rwa [live]

theorem Sound.get?_of_mem (sound : rs.Sound A n) (member : r ∈ rs.live) : rs.get? r.id = some r := by
  have distinct := sound.distinct
  unfold Records.get?
  revert member distinct
  generalize rs.live = live
  intro member distinct
  induction live with
  | nil => cases member
  | cons first rest ih =>
    rw [List.map_cons, List.nodup_cons] at distinct
    rcases List.mem_cons.mp member with rfl | later
    · simp
    · have apart : first.id ≠ r.id := fun same =>
        distinct.1 (same ▸ List.mem_map_of_mem later)
      simpa [apart] using ih later distinct.2

theorem Sound.eagerOnly_of_mem (sound : rs.Sound A n) (member : r ∈ rs.live) :
    rs.eagerOnly r.id = r.eagerOnly := by
  unfold Records.eagerOnly
  rw [sound.get?_of_mem member]
  rfl

theorem Calm.eagerOnly (calm : rs.Calm) (c : RecordId) : rs.eagerOnly c = false := by
  unfold Records.eagerOnly
  cases found : rs.get? c with
  | none => rfl
  | some r => exact calm r (mem_of_get? found).1

/-- With a record of a new number on top. -/
def opened (r : Record) (rs : Records) : Records := ⟨r :: rs.live, rs.next + 1⟩

theorem Sound.opened (sound : rs.Sound A n) (fresh : r.id = ⟨rs.next⟩)
    (parent : ∀ p, r.parent = some p → p.index < rs.next)
    (orderly : ∀ p ∈ rs.live, r.parent = some p.id → p.eagerOnly = true →
      r.eagerOnly = true ∧ r.isFunction = false) (within : A.AllowsRecord n r) :
    (rs.opened r).Sound A n where
  distinct := by
    refine List.nodup_cons.mpr ⟨fun member => ?_, sound.distinct⟩
    obtain ⟨other, there, same⟩ := List.mem_map.mp member
    have older := sound.issued other there
    rw [same] at older
    change r.id.index < rs.next at older
    rw [fresh] at older
    exact Nat.lt_irrefl _ older
  issued := by
    refine List.forall_mem_cons.mpr ⟨?_, fun other there => Nat.lt_succ_of_lt (sound.issued other there)⟩
    rw [fresh]
    exact Nat.lt_succ_self _
  parents := List.forall_mem_cons.mpr ⟨fun p same => Nat.lt_succ_of_lt (parent p same),
    fun other there p same => Nat.lt_succ_of_lt (sound.parents other there p same)⟩
  orderly := by
    intro child there p above parented flagged
    rcases List.mem_cons.mp there with rfl | old
    · rcases List.mem_cons.mp above with rfl | older
      · have own := parent _ parented
        rw [fresh] at own
        exact absurd own (Nat.lt_irrefl _)
      · exact orderly p older parented flagged
    · rcases List.mem_cons.mp above with rfl | older
      · have own := sound.parents child old _ parented
        rw [fresh] at own
        exact absurd own (Nat.lt_irrefl _)
      · exact sound.orderly child old p older parented flagged
  within := List.forall_mem_cons.mpr ⟨within, sound.within⟩

theorem Sound.childless_opened (sound : rs.Sound A n) (fresh : r.id = ⟨rs.next⟩)
    (parent : ∀ p, r.parent = some p → p.index < rs.next) : (rs.opened r).Childless r.id := by
  intro child there parented
  rw [fresh] at parented
  rcases List.mem_cons.mp there with rfl | old
  · exact absurd (parent _ parented) (Nat.lt_irrefl _)
  · exact absurd (sound.parents child old _ parented) (Nat.lt_irrefl _)

/-- A record flagged as soon as it was opened. -/
theorem Sound.opened_flagged (sound : rs.Sound A n) (fresh : r.id = ⟨rs.next⟩) (flag : Bool) :
    (rs.opened r).setEagerOnly r.id flag = rs.opened { r with eagerOnly := flag } := by
  have others : rs.live.map (fun other => if other.id = r.id then { other with eagerOnly := flag }
      else other) = rs.live := by
    refine (List.map_congr_left fun other member => if_neg fun same => ?_).trans (List.map_id _)
    have older := sound.issued other member
    rw [same, fresh] at older
    exact Nat.lt_irrefl _ older
  unfold setEagerOnly Records.opened
  dsimp only
  rw [List.map_cons, if_pos rfl, others]

/-- The youngest record taken away. -/
theorem Sound.closed {rest : List Record} (sound : rs.Sound A n) (live : rs.live = r :: rest) :
    (rs.release r.id).Sound A n ∧ (rs.release r.id).live = rest := by
  have same : (rs.release r.id).live = rest := by
    unfold Records.release
    simp [live]
  have older {other : Record} (there : other ∈ rest) : other ∈ rs.live := by
    rw [live]
    exact List.mem_cons_of_mem _ there
  refine ⟨⟨?_, ?_, ?_, ?_, ?_⟩, same⟩
  · rw [same]
    have distinct := sound.distinct
    rw [live, List.map_cons, List.nodup_cons] at distinct
    exact distinct.2
  · rw [same]
    exact fun other there => sound.issued other (older there)
  · rw [same]
    exact fun other there => sound.parents other (older there)
  · rw [same]
    exact fun child there p above => sound.orderly child (older there) p (older above)
  · rw [same]
    exact fun other there => sound.within other (older there)

/-- A record without children may be flagged. -/
theorem Sound.flagged (sound : rs.Sound A n) (childless : rs.Childless c) :
    (rs.setEagerOnly c true).Sound A n := by
  have back {r : Record} (member : r ∈ (rs.setEagerOnly c true).live) :
      ∃ old ∈ rs.live, r = { old with eagerOnly := r.eagerOnly } ∧
        (old.eagerOnly = true → r.eagerOnly = true) ∧
        (r.eagerOnly = true → old.eagerOnly = true ∨ old.id = c) := by
    obtain ⟨old, there, rfl⟩ := List.mem_map.mp member
    refine ⟨old, there, ?_⟩
    split
    · rename_i same
      exact ⟨rfl, fun _ => rfl, fun _ => .inr same⟩
    · exact ⟨rfl, fun flag => flag, fun flag => .inl flag⟩
  refine ⟨?_, ?_, ?_, ?_, ?_⟩
  · have ids : (rs.setEagerOnly c true).live.map (·.id) = rs.live.map (·.id) := by
      unfold setEagerOnly
      rw [List.map_map]
      refine List.map_congr_left fun r _ => ?_
      dsimp only [Function.comp]
      split <;> rfl
    rw [ids]
    exact sound.distinct
  · intro r member
    obtain ⟨old, there, same, _⟩ := back member
    rw [same]
    exact sound.issued old there
  · intro r member
    obtain ⟨old, there, same, _⟩ := back member
    rw [same]
    exact sound.parents old there
  · intro r member p above parented flagged
    obtain ⟨old, there, same, up, _⟩ := back member
    obtain ⟨older, there', same', _, down⟩ := back above
    rw [same, same'] at parented
    rcases down flagged with flag | own
    · obtain ⟨raised, kind⟩ := sound.orderly old there older there' parented flag
      refine ⟨up raised, ?_⟩
      rw [same]
      exact kind
    · exact absurd (own ▸ parented) (childless old there)
  · intro r member
    obtain ⟨old, there, same, _⟩ := back member
    rw [same]
    obtain ⟨a, b, d, e⟩ := sound.within old there
    exact ⟨a, b, d, e⟩

/-- The flag put back to what it was. -/
theorem Sound.restored {rs' : Records} (sound : rs.Sound A n)
    (live : rs'.live = (rs.setEagerOnly c true).live) :
    (rs'.setEagerOnly c (rs.eagerOnly c)).live = rs.live := by
  unfold setEagerOnly at live ⊢
  dsimp only at live ⊢
  rw [live, List.map_map]
  refine (List.map_congr_left fun r member => ?_).trans (List.map_id _)
  by_cases same : r.id = c
  · have flag := sound.eagerOnly_of_mem member
    cases same
    simp [flag]
  · simp [same]

end Records

namespace Store

variable {A : Ambit} {s : Store}

/-! Promises. -/

theorem Sound.addPromise {p : Promise} (sound : s.Sound A) (ok : A.AllowsPromise s.vectors.size p) :
    (addPromise p s).2.Sound A := by
  refine ⟨sound.vectors, fun q member => ?_, sound.dots⟩
  rcases Array.mem_push.mp member with old | rfl
  · exact sound.promises q old
  · exact ok

theorem open_addPromise {p : Promise} {id : PromiseId} (waiting : (addPromise p s).2.Open id) :
    s.Open id := by
  intro q found
  refine waiting q ?_
  have inside : id.index < s.promises.size := (Array.getElem?_eq_some_iff.mp found).1
  change (s.promises.push p)[id.index]? = some q
  rw [Array.getElem?_push_lt inside]
  exact (Array.getElem?_eq_some_iff.mp found).2 ▸ rfl

theorem Sound.addDots {d : Dots} (sound : s.Sound A) (ok : A.AdmitsAll s.vectors.size d.values) :
    (addDots d s).2.Sound A := by
  refine ⟨sound.vectors, sound.promises, fun e member => ?_⟩
  rcases Array.mem_push.mp member with old | rfl
  · exact sound.dots e old
  · exact ok

theorem Sound.modifyPromise {f : Promise → Promise} (sound : s.Sound A)
    (ok : ∀ p, A.AllowsPromise s.vectors.size p → A.AllowsPromise s.vectors.size (f p))
    (id : PromiseId) : (s.modifyPromise id f).Sound A := by
  refine ⟨sound.vectors, fun q member => ?_, sound.dots⟩
  obtain ⟨i, found⟩ := Array.mem_iff_getElem?.mp member
  change (s.promises.modify id.index f)[i]? = some q at found
  rw [Array.getElem?_modify] at found
  split at found
  · obtain ⟨p, there, rfl⟩ := Option.map_eq_some_iff.mp found
    exact ok p (sound.promises p (Array.mem_of_getElem? there))
  · exact sound.promises q (Array.mem_of_getElem? found)

/-- A promise that waits after a change of one waited before, if the change makes none wait. -/
theorem open_modifyPromise {f : Promise → Promise} {id other : PromiseId}
    (kept : ∀ p env, (f p).state = .unevaluated env → ∃ env, p.state = .unevaluated env)
    (waiting : (s.modifyPromise id f).Open other) : s.Open other := by
  intro p found
  have there : (s.modifyPromise id f).promises[other.index]? =
      if id.index = other.index then some (f p) else some p := by
    change (s.promises.modify id.index f)[other.index]? = _
    rw [Array.getElem?_modify, found]
    rfl
  split at there
  · obtain ⟨env, state⟩ := waiting (f p) there
    exact kept p env state
  · exact waiting p there

theorem open_modifyPromise_or {f : Promise → Promise} {id other : PromiseId}
    (waiting : (s.modifyPromise id f).Open other) : other = id ∨ s.Open other := by
  by_cases same : id.index = other.index
  · left
    cases id
    cases other
    simpa using same.symm
  · refine .inr fun p found => waiting p ?_
    change (s.promises.modify id.index f)[other.index]? = _
    rw [Array.getElem?_modify, if_neg same]
    exact found

/-- A promise that waits is there. -/
theorem getElem?_of_unevaluated {id : PromiseId} {env : EnvId}
    (waiting : (s.promise id).state = .unevaluated env) :
    s.promises[id.index]? = some (s.promise id) := by
  unfold Store.promise at waiting ⊢
  cases found : s.promises[id.index]? with
  | none =>
    rw [found] at waiting
    cases waiting
  | some p => rfl

theorem open_of_unevaluated {id : PromiseId} {env : EnvId}
    (waiting : (s.promise id).state = .unevaluated env) : s.Open id := by
  intro p found
  rw [getElem?_of_unevaluated waiting] at found
  cases found
  exact ⟨env, waiting⟩

/-- A promise whose evaluation has begun. -/
def begun (s : Store) (id : PromiseId) (env : EnvId) : Store :=
  s.setPromiseState id (.underEvaluation env)

theorem beginEvaluation_apply {id : PromiseId} {env : EnvId}
    (waiting : (s.promise id).state = .unevaluated env) :
    beginEvaluation id s = (.ok (), s.begun id env) := by
  unfold beginEvaluation
  rw [read_apply, waiting]
  rfl

theorem beginEvaluation_refused (id : PromiseId) (s : Store)
    (settled : ∀ env, (s.promise id).state ≠ .unevaluated env) :
    ∃ message, beginEvaluation id s = (.error (.internal message), s) := by
  unfold beginEvaluation
  rw [read_apply]
  cases state : (s.promise id).state with
  | unevaluated env => exact absurd state (settled env)
  | underEvaluation env => exact ⟨_, rfl⟩
  | evaluated v => exact ⟨_, rfl⟩

theorem promise_begun {id : PromiseId} {env : EnvId}
    (waiting : (s.promise id).state = .unevaluated env) :
    (s.begun id env).promise id = { s.promise id with state := .underEvaluation env } := by
  have found := getElem?_of_unevaluated waiting
  generalize s.promise id = p at found
  unfold Store.promise begun setPromiseState Store.modifyPromise
  dsimp only
  rw [Array.getElem?_modify, if_pos rfl, found]
  rfl

theorem not_open_begun {id : PromiseId} {env : EnvId}
    (waiting : (s.promise id).state = .unevaluated env) : ¬(s.begun id env).Open id := by
  intro opened
  have found : (s.begun id env).promises[id.index]? =
      some { s.promise id with state := .underEvaluation env } := by
    change (s.promises.modify id.index _)[id.index]? = _
    rw [Array.getElem?_modify, if_pos rfl, getElem?_of_unevaluated waiting]
    rfl
  obtain ⟨other, same⟩ := opened _ found
  cases same

theorem Sound.resetPromise (sound : s.Sound A) (id : PromiseId) : (s.resetPromise id).Sound A := by
  refine sound.modifyPromise (f := fun p => { p with state := p.state.reset }) (fun p ok => ?_) id
  refine ⟨ok.expr, ?_, ok.eager⟩
  have value := ok.value
  cases state : p.state with
  | unevaluated env | underEvaluation env => exact nofun
  | evaluated v =>
    rw [state] at value
    exact value

theorem Sound.begun (sound : s.Sound A) (id : PromiseId) (env : EnvId) : (s.begun id env).Sound A := by
  refine sound.modifyPromise (f := ({ · with state := .underEvaluation env })) (fun p ok => ?_) id
  refine ⟨ok.expr, fun v same => ?_, ok.eager⟩
  cases same

theorem open_begun {id other : PromiseId} {env : EnvId} (waiting : (s.begun id env).Open other) :
    s.Open other := by
  refine open_modifyPromise (f := ({ · with state := .underEvaluation env })) (fun p _ same => ?_)
    waiting
  cases same

end Store

namespace Session

variable {A : Ambit} {w s t : Session}

/-- A session with other objects of at least as many vectors. -/
theorem Sound.withStore {store : Store} (sound : s.Sound A) (ok : store.Sound A)
    (le : s.extent ≤ store.vectors.size) : ({ s with store } : Session).Sound A where
  store := ok
  heap := sound.heap.mono le
  records := sound.records.mono le
  methods := sound.methods.mono le
  tables t member := (sound.tables t member).mono le
  caches site member := (sound.caches site member).mono le

/-- A session with other objects, among which no promise waits that did not. -/
theorem follows_withStore {store : Store} (opens : ∀ id, store.Open id → s.store.Open id)
    (course : A.Course s.store.vectors store.vectors) : s.Follows A { s with store } :=
  ⟨⟨Nat.le_refl _, rfl, rfl, fun _ alive => alive, opens, course⟩, rfl⟩

theorem follows_grown {store : Store} (grows : s.store.Grows A store) :
    s.Follows A { s with store } := by
  refine follows_withStore (fun id waiting => ?_) grows.course
  unfold Store.Open at waiting ⊢
  rwa [grows.promises] at waiting

/-- A session with another heap, in which the frames that were there are. -/
theorem follows_withHeap {heap : Heap}
    (frames : ∀ env, s.heap.contains env = true → heap.contains env = true) :
    s.Follows A { s with heap } :=
  ⟨⟨Nat.le_refl _, rfl, rfl, frames, fun _ waiting => waiting, .refl⟩, rfl⟩

/-- The parts of a session that hold values and code, with the options. -/
def core (s : Session) : Session where
  store := s.store
  heap := s.heap
  records := s.records
  options := s.options
  builtins := s.builtins
  sites := s.sites
  methods := s.methods
  tables := s.tables

/-- A session that differs only in what holds neither values nor code. -/
theorem Sound.same (sound : s.Sound A) (same : t.core = s.core) : t.Sound A := by
  have ok : s.core.Sound A :=
    ⟨sound.store, sound.heap, sound.records, sound.methods, sound.tables, sound.caches⟩
  rw [← same] at ok
  exact ⟨ok.store, ok.heap, ok.records, ok.methods, ok.tables, ok.caches⟩

theorem follows_same (store : t.store = s.store) (heap : t.heap = s.heap) (records : t.records = s.records)
    (options : t.options = s.options) (builtins : t.builtins = s.builtins) : s.Follows A t := by
  refine ⟨⟨?_, options, builtins, ?_, ?_, ?_⟩, ?_⟩
  · exact Nat.le_of_eq (by rw [records])
  · intro env alive
    rwa [heap]
  · intro id waiting
    rwa [store] at waiting
  · rw [store]
  · rw [records]

/-! What is remembered at call sites. -/

theorem Sound.cache (sound : s.Sound A) (node : NodeId) :
    A.AllowsCache s.extent (s.site node).cache := by
  unfold Session.site
  cases found : s.sites.get? node with
  | none => exact ⟨nofun, nofun⟩
  | some site => exact sound.caches site (Table.mem_values_of_get? found)

theorem Sound.setSite {f : CallSite → CallSite} (node : NodeId) (sound : s.Sound A)
    (ok : A.AllowsCache s.extent (f (s.site node)).cache) : (s.setSite node f).Sound A := by
  refine { sound with caches := fun site member => ?_ }
  rcases Table.mem_values_insert member with rfl | old
  · exact ok
  · exact sound.caches site old

theorem follows_setSite (node : NodeId) (f : CallSite → CallSite) : s.Follows A (s.setSite node f) :=
  follows_same rfl rfl rfl rfl rfl

/-- A new record of a session. -/
def newRecord (s : Session) (parent : Option RecordId) (call : Option Expr) (kind : RecordKind)
    (flag : Bool) : Record :=
  ⟨⟨s.records.next⟩, parent, call, ((parent.bind s.records.get?).map (·.depth + 1)).getD 0, kind, flag⟩

/-- A session with a record opened. -/
def opening (s : Session) (r : Record) : Session := { s with records := s.records.opened r }

variable {parent : Option RecordId} {call : Option Expr} {kind : RecordKind} {flag : Bool}

theorem Sound.opening (sound : s.Sound A) (issued : ∀ p, parent = some p → p.index < s.records.next)
    (orderly : ∀ p ∈ s.records.live, parent = some p.id → p.eagerOnly = true →
      flag = true ∧ (s.newRecord parent call kind flag).isFunction = false)
    (within : A.AllowsRecord s.extent (s.newRecord parent call kind flag)) :
    (s.opening (s.newRecord parent call kind flag)).Sound A :=
  { sound with records := sound.records.opened rfl issued orderly within }

theorem Sound.nests (sound : s.Sound A) (issued : ∀ p, parent = some p → p.index < s.records.next) :
    s.Nests A (s.opening (s.newRecord parent call kind flag)) (s.newRecord parent call kind flag) where
  next := Nat.le_succ _
  options := rfl
  builtins := rfl
  frames _ alive := alive
  opens _ waiting := waiting
  course := .refl
  live := rfl
  childless := sound.records.childless_opened rfl issued
  depth c same alive := by
    change parent = some c at same
    unfold Records.contains at alive
    obtain ⟨above, found⟩ := Option.isSome_iff_exists.mp alive
    simp [newRecord, Records.depth, same, found]

theorem Nests.follow {r : Record} (nests : w.Nests A s r) (follows : s.Follows A t) : w.Nests A t r where
  toEvolves := nests.toEvolves.trans follows.toEvolves
  live := follows.live.trans nests.live
  childless child member := nests.childless child (follows.live ▸ member)
  depth := nests.depth

theorem Follows.get? (follows : w.Follows A s) : s.records.get? = w.records.get? := by
  funext id
  unfold Records.get?
  rw [follows.live]

theorem Follows.eagerOnly (follows : w.Follows A s) (c : RecordId) :
    s.records.eagerOnly c = w.records.eagerOnly c := by
  unfold Records.eagerOnly
  rw [follows.get?]

theorem Follows.childless (follows : w.Follows A s) {c : RecordId} (childless : w.records.Childless c) :
    s.records.Childless c := fun r member => childless r (follows.live ▸ member)

theorem Nests.issued {r : Record} (nests : w.Nests A s r) (sound : s.Sound A) :
    r.id.index < s.records.next := sound.records.issued r (nests.live ▸ List.mem_cons_self)

theorem Follows.nests {u : Session} {r : Record} (follows : w.Follows A s) (nests : s.Nests A u r) :
    w.Nests A u r where
  toEvolves := follows.toEvolves.trans nests.toEvolves
  live := nests.live.trans (by rw [follows.live])
  childless := nests.childless
  depth c same alive := by
    have found := nests.depth c same
    unfold Records.contains at found alive
    unfold Records.depth at found ⊢
    rw [follows.get?] at found
    exact found alive

/-- The record closed again. -/
theorem Nests.closing {r : Record} (nests : w.Nests A s r) (sound : s.Sound A) :
    ({ s with records := s.records.release r.id } : Session).Sound A ∧
      w.Follows A { s with records := s.records.release r.id } := by
  obtain ⟨ok, live⟩ := sound.records.closed nests.live
  refine ⟨{ sound with records := ok }, ?_, live⟩
  exact ⟨nests.next, nests.options, nests.builtins, nests.frames, nests.opens, nests.course⟩

end Session

end CallByNeed
