import CallByNeed.Proofs.Generations
import CallByNeed.Proofs.Standing

/-!
Stale lookups. The versions of the frames on a lookup chain, taken at some time, tell later whether the chain
is still what it was: a frame that is written to gets a higher version and never an old one again, and a frame
that is freed leaves an id without one. While the versions are those taken then, each frame of the chain is the
same, and a name looked up along it is found in the same frame and bound to the same value, or still not found.
-/
namespace CallByNeed
namespace Heap

variable {h k : Heap} {id env : EnvId} {name : Name} {snapshot : List (EnvId × Nat)} {n m : Nat}

/-! Snapshots. -/

/-- A snapshot lists the frames of a chain, which are all alive, with their versions. -/
theorem mapM_version {ids : List EnvId}
    (taken : (ids.mapM fun e => do .ok (e, (← h.frame e).version) : Except Failure _) = .ok snapshot) :
    ids.Forall₂ (fun e p => ∃ f, h.frame? e = some f ∧ p = (e, f.version)) snapshot := by
  induction ids generalizing snapshot with
  | nil =>
    cases taken
    exact .nil
  | cons e ids ih =>
    rw [List.mapM_cons] at taken
    obtain ⟨p, first, taken⟩ := ok_of_bind taken
    obtain ⟨rest, others, taken⟩ := ok_of_bind taken
    cases taken
    obtain ⟨f, found, same⟩ := ok_of_bind first
    cases same
    exact .cons ⟨f, frame?_of_frame found, rfl⟩ (ih others)

/-- A snapshot is current in a heap if the frames of the chain are there with the versions they had. -/
theorem isCurrent_iff (taken : h.versionSnapshot env = .ok snapshot) : k.isCurrent snapshot ↔
    ∀ e ∈ h.chain env, ∃ f g, h.frame? e = some f ∧ k.frame? e = some g ∧ g.version = f.version := by
  have listed := mapM_version taken
  unfold isCurrent
  clear taken
  generalize h.chain env = ids at listed ⊢
  induction listed with
  | nil => simp
  | cons first _ ih =>
    obtain ⟨f, found, rfl⟩ := first
    simp only [List.all_cons, Bool.and_eq_true, ih, List.forall_mem_cons]
    cases later : k.frame? _ <;> simp [found]

/-! Time passing over frames. -/

/-- What is left of an earlier heap: a frame that is still there is the same, or has a higher version. -/
structure Ages (h k : Heap) : Prop where
  size : h.slots.size ≤ k.slots.size
  frames : ∀ id f g, h.frame? id = some f → k.frame? id = some g → g = f ∨ f.version < g.version

theorem ages_of_kept (size : h.slots.size ≤ k.slots.size)
    (kept : ∀ id g, k.frame? id = some g → ∀ f, h.frame? id = some f → g = f) : h.Ages k :=
  ⟨size, fun id f g before after => .inl (kept id g after f before)⟩

/-- A write makes the frame newer and touches no other. -/
theorem ages_of_write {f : Frame} (alive : h.frame? id = some f) (changed : Bool) {change : Frame → Frame}
    (newer : f.version < (change f).version) : h.Ages ((h.updateFrame id change).bumpEpoch changed) := by
  constructor
  · rw [bumpEpoch_slots, updateFrame, Array.size_modify]
  · intro e before after found written
    rw [frame?_bumpEpoch, frame?_updateFrame alive] at written
    split at written
    · rename_i here
      subst here
      cases alive.symm.trans found
      cases written
      exact .inr newer
    · exact .inl (Option.some.inj (written.symm.trans found))

theorem Ages.refl (h : Heap) : h.Ages h :=
  ages_of_kept (Nat.le_refl _) fun _ _ after _ before => Option.some.inj (after.symm.trans before)

theorem ages_bind (alive : h.contains id) (name : Name) (v : Value) : h.Ages (h.bind id name v) := by
  obtain ⟨f, found⟩ := contains_iff_exists.mp alive
  exact ages_of_write found _ (Nat.lt_succ_self f.version)

/-- Every operation makes newer what it writes to. -/
theorem Orderly.ages {l : Ledger} (orderly : Orderly l) (op : Operation) : l.heap.Ages (op.run l.heap) := by
  cases op with
  | alloc parent label =>
    have vacant (i : Nat) (free : i ∈ l.heap.free) :
        ∃ slot, l.heap.slots[i]? = some slot ∧ slot.frame = none := by
      obtain ⟨g, empty⟩ := (orderly.listed i).mp free
      obtain ⟨slot, there, -, none⟩ := shape_eq_some_iff.mp empty
      exact ⟨slot, there, by simpa using none⟩
    apply ages_of_kept (size_alloc parent label l.heap)
    intro id g after f before
    have kept := frame?_alloc vacant parent label before
    exact Option.some.inj (after.symm.trans kept)
  | define id name v =>
    cases defined : l.heap.define id name v with
    | error e => simpa [Operation.run, defined, Except.toOption] using Ages.refl l.heap
    | ok k =>
      obtain ⟨alive, rfl⟩ := alive_of_define defined
      simpa [Operation.run, defined, Except.toOption] using ages_bind alive name v
  | remove id name =>
    cases removed : l.heap.remove id name with
    | error e => simpa [Operation.run, removed, Except.toOption] using Ages.refl l.heap
    | ok result =>
      obtain ⟨f, alive, rest⟩ := ok_of_bind removed
      cases bound : f.bindings.get? name with
      | none =>
        rw [bound] at rest
        cases rest
        simpa [Operation.run, removed, Except.toOption] using Ages.refl l.heap
      | some previous =>
        rw [bound] at rest
        cases rest
        rw [Operation.run, removed]
        exact ages_of_write (frame?_of_frame alive) previous.isFunction (Nat.lt_succ_self f.version)
  | assignOuter id name v =>
    cases assigned : l.heap.assignOuter id name v with
    | error e => simpa [Operation.run, assigned, Except.toOption] using Ages.refl l.heap
    | ok written =>
      obtain ⟨target, k⟩ := written
      obtain ⟨alive, rfl⟩ := alive_of_assignOuter assigned
      simpa [Operation.run, assigned, Except.toOption] using ages_bind alive name v
  | collect s roots values =>
    apply ages_of_kept (Since.collect l.heap s roots values).size
    intro id g after f before
    change (l.heap.collect s roots values).2.frame? id = some g at after
    rw [frame?_collect] at after
    split at after
    · exact Option.some.inj (after.symm.trans before)
    · cases after

/-! Runs. -/

variable {ops more : List Operation}

/-- A frame alive before some operations and after them was alive all the time between. -/
theorem alive_between {later : List Operation} {f g : Frame} (rarely : Rarely (ops ++ more ++ later))
    (before : (ledger ops).heap.frame? id = some f)
    (after : (ledger (ops ++ more ++ later)).heap.frame? id = some g) :
    ∃ e, (ledger (ops ++ more)).heap.frame? id = some e := by
  rw [← contains_iff_exists]
  by_contra lost
  have first := rarely.before.before
  have start : (ledger ops).Issued id :=
    .inr ((first.orderly.contains_iff first).mp (contains_iff_exists.mpr ⟨f, before⟩))
  have issued : (ledger (ops ++ more)).Issued id := by
    rw [ledger_append]
    exact start.run more
  exact lost_for_ever rarely issued lost (contains_iff_exists.mpr ⟨g, after⟩)

/-- However many operations are run, a frame that is still there is the same or has a higher version. -/
theorem ages_run (rarely : Rarely (ops ++ more)) : (ledger ops).heap.Ages (ledger (ops ++ more)).heap := by
  induction more using List.reverseRecOn with
  | nil =>
    rw [List.append_nil]
    exact .refl _
  | append_singleton more op ih =>
    rw [← List.append_assoc] at rarely ⊢
    have earlier := ih rarely.before
    have last : (ledger (ops ++ more)).heap.Ages (ledger (ops ++ more ++ [op])).heap := by
      rw [ledger_append (ops ++ more)]
      exact rarely.before.orderly.ages op
    constructor
    · exact Nat.le_trans earlier.size last.size
    · intro id f g before after
      obtain ⟨e, between⟩ := alive_between rarely before after
      have first := earlier.frames id f e before between
      have second := last.frames id e g between after
      rcases first with rfl | newer
      · exact second
      · rcases second with rfl | newest
        · exact .inr newer
        · exact .inr (Nat.lt_trans newer newest)

/-- With the versions of then the frames of the chain are those of then. -/
theorem Ages.kept (ages : h.Ages k) (taken : h.versionSnapshot env = .ok snapshot)
    (current : k.isCurrent snapshot) : ∀ e ∈ h.chain env, h.contains e ∧ k.frame? e = h.frame? e := by
  intro e member
  obtain ⟨f, g, before, after, same⟩ := (isCurrent_iff taken).mp current e member
  rcases ages.frames e f g before after with rfl | newer
  · exact ⟨contains_iff_exists.mpr ⟨g, before⟩, after.trans before.symm⟩
  · omega

/-! Lookups. -/

theorem lookupAlong_cons (name : Name) (id : EnvId) (rest : List EnvId) :
    h.lookupAlong name (id :: rest) = match h.frame? id with
      | none => .error (collected id)
      | some f => match f.bindings.get? name with
        | some v => .ok (some (id, v))
        | none => h.lookupAlong name rest := by
  rw [lookupAlong, getLocal, frame]
  cases h.frame? id with
  | none => rfl
  | some f =>
    have read : ((·.bindings.get? name) <$> (Except.ok f : Except Failure Frame)) =
      .ok (f.bindings.get? name) := rfl
    simp only [read]
    cases f.bindings.get? name <;> rfl

theorem lookupAlong_none_iff {ids : List EnvId} : h.lookupAlong name ids = .ok none ↔
    ∀ id ∈ ids, ∃ f, h.frame? id = some f ∧ f.bindings.get? name = none := by
  induction ids with
  | nil => simp [lookupAlong]
  | cons id rest ih =>
    rw [lookupAlong_cons, List.forall_mem_cons]
    cases found : h.frame? id with
    | none => simp
    | some f => cases bound : f.bindings.get? name <;> simp [bound, ih]

/-- Once a lookup is decided the rest of the way does not matter. -/
theorem lookupAlong_append {ids : List EnvId} (decided : h.lookupAlong name ids ≠ .ok none)
    (rest : List EnvId) : h.lookupAlong name (ids ++ rest) = h.lookupAlong name ids := by
  induction ids with
  | nil => exact absurd rfl decided
  | cons id ids ih =>
    rw [List.cons_append, lookupAlong_cons, lookupAlong_cons] at *
    cases found : h.frame? id with
    | none => rfl
    | some f =>
      cases bound : f.bindings.get? name with
      | some v => simp [bound]
      | none => simpa [bound] using ih (by simpa [found, bound] using decided)

theorem lookupAlong_alive {ids : List EnvId} (alive : ∀ e ∈ ids, h.contains e) (name : Name) :
    ∃ found, h.lookupAlong name ids = .ok found := by
  induction ids with
  | nil => exact ⟨none, rfl⟩
  | cons id ids ih =>
    obtain ⟨first, others⟩ := List.forall_mem_cons.mp alive
    obtain ⟨f, there⟩ := contains_iff_exists.mp first
    simp only [lookupAlong_cons, there]
    cases f.bindings.get? name with
    | some v => exact ⟨some (id, v), rfl⟩
    | none => exact ih others

theorem lookupAlong_kept {ids : List EnvId} (kept : ∀ e ∈ ids, k.frame? e = h.frame? e) :
    k.lookupAlong name ids = h.lookupAlong name ids := by
  induction ids with
  | nil => rfl
  | cons e rest ih =>
    obtain ⟨first, others⟩ := List.forall_mem_cons.mp kept
    rw [lookupAlong_cons, lookupAlong_cons, first, ih others]

theorem chainUpTo_prefix (le : n ≤ m) (id : EnvId) : h.chainUpTo n id <+: h.chainUpTo m id := by
  induction n generalizing m id with
  | zero => exact List.nil_prefix
  | succ n ih =>
    obtain ⟨m, rfl⟩ := Nat.exists_eq_add_one_of_ne_zero (Nat.ne_zero_of_lt le)
    rw [chainUpTo_succ, chainUpTo_succ, List.cons_prefix_cons]
    cases h.parent? id with
    | none => exact ⟨rfl, List.nil_prefix⟩
    | some q => exact ⟨rfl, ih (Nat.le_of_succ_le_succ le) q⟩

/-- A way longer than the chain leads round in circles and finds nothing new. -/
theorem lookupAlong_chainUpTo (long : h.slots.size + 1 ≤ m) (id : EnvId) (name : Name) :
    h.lookupAlong name (h.chainUpTo m id) = h.lookup id name := by
  obtain ⟨rest, way⟩ := chainUpTo_prefix (h := h) long id
  by_cases undecided : h.lookupAlong name (h.chain id) = .ok none
  · rw [lookup, undecided]
    apply lookupAlong_none_iff.mpr
    intro e member
    exact lookupAlong_none_iff.mp undecided e (chainUpTo_subset_chain m id self_mem_chain e member)
  · rw [← way]
    exact lookupAlong_append undecided rest

/-- A lookup is the same as long as the frames of the chain are. -/
theorem lookup_kept (size : h.slots.size ≤ k.slots.size) (kept : ∀ e ∈ h.chain env, k.frame? e = h.frame? e)
    (name : Name) : k.lookup env name = h.lookup env name := by
  have parents (e : EnvId) (member : e ∈ h.chain env) : k.parent? e = h.parent? e := by
    rw [parent?, parent?, kept e member]
  let m := k.slots.size + 1
  calc k.lookup env name
      = k.lookupAlong name (h.chainUpTo m env) := by
        rw [lookup, chain, chainUpTo_kept parents m env self_mem_chain]
    _ = h.lookupAlong name (h.chainUpTo m env) :=
        lookupAlong_kept fun e member => kept e (chainUpTo_subset_chain m env self_mem_chain e member)
    _ = h.lookup env name := lookupAlong_chainUpTo (Nat.succ_le_succ size) env name

/-- Where the frames of a chain are kept, the chain goes on through frames of its own only. -/
theorem chain_prolonged (size : h.slots.size ≤ k.slots.size)
    (kept : ∀ e ∈ h.chain env, k.frame? e = h.frame? e) :
    ∃ extra, k.chain env = h.chain env ++ extra ∧ extra ⊆ h.chain env := by
  have parents (e : EnvId) (member : e ∈ h.chain env) : k.parent? e = h.parent? e := by
    rw [parent?, parent?, kept e member]
  obtain ⟨extra, way⟩ := chainUpTo_prefix (Nat.succ_le_succ size) env
  refine ⟨extra, ?_, fun e member => ?_⟩
  · unfold chain
    rw [chainUpTo_kept parents _ env self_mem_chain, ← way]
  · refine chainUpTo_subset_chain (k.slots.size + 1) env self_mem_chain e ?_
    rw [← way]
    exact List.mem_append_right _ member

/-- A snapshot of versions guards lookups: whatever is done to the heap after it was taken, as long as no slot is
freed so often that its generation starts over, every name looked up from the environment is found in the frame
and bound to the value it was then, or still not found, if the snapshot is current; and a snapshot that is not
current will never be again. -/
theorem snapshot_guards_lookup (ops more further : List Operation) (env : EnvId)
    (snapshot : List (EnvId × Nat))
    (rarely : ∀ i, (ledger (ops ++ more ++ further)).freed i < Nat.pow 2 32)
    (taken : (ledger ops).heap.versionSnapshot env = .ok snapshot) :
    ((ledger (ops ++ more)).heap.isCurrent snapshot → ∀ name, ∃ found,
        (ledger ops).heap.lookup env name = .ok found ∧
          (ledger (ops ++ more)).heap.lookup env name = .ok found) ∧
      (¬(ledger (ops ++ more)).heap.isCurrent snapshot →
        ¬(ledger (ops ++ more ++ further)).heap.isCurrent snapshot) := by
  have rarely : Rarely (ops ++ more ++ further) := rarely
  constructor
  · intro current name
    have ages := ages_run rarely.before
    have kept := ages.kept taken current
    obtain ⟨found, first⟩ := lookupAlong_alive (fun e member => (kept e member).1) name
    have again := lookup_kept ages.size (fun e member => (kept e member).2) name
    exact ⟨found, first, again.trans first⟩
  · -- A frame with its old version at the end has had it all the time.
    intro stale current
    apply stale
    rw [isCurrent_iff taken] at current ⊢
    intro e member
    obtain ⟨f, g, before, after, same⟩ := current e member
    obtain ⟨between, there⟩ := alive_between rarely before after
    have first := (ages_run rarely.before).frames e f between before there
    have second := (ages_run rarely).frames e between g there after
    refine ⟨f, between, before, there, ?_⟩
    rcases first with rfl | newer
    · rfl
    · rcases second with rfl | newest
      · exact same
      · omega

/-- A bystander is written to and freed, and its slot taken again: the snapshot stays current. A binding that
hides the one found makes it stale, and taking that away does not bring it back. -/
theorem snapshot_guards_lookup_hidden :
    let outer : EnvId := ⟨0, 0⟩
    let inner : EnvId := ⟨1, 0⟩
    let snapshot := [(inner, 0), (outer, 1)]
    let ops : List Operation := [.alloc none none, .alloc (some outer) none, .alloc (some outer) none,
      .define outer "x" .null]
    let beside : List Operation := [.define ⟨2, 0⟩ "x" .missing, .collect {} [inner] [],
      .alloc (some inner) none, .define ⟨2, 1⟩ "x" .missing]
    let hidden : List Operation := beside ++ [.define inner "x" .missing]
    let cleared : List Operation := [.remove inner "x"]
    (∀ i, (ledger (ops ++ hidden ++ cleared)).freed i < Nat.pow 2 32) ∧
      (ledger ops).heap.versionSnapshot inner = .ok snapshot ∧
      (ledger (ops ++ beside)).heap.isCurrent snapshot ∧
      (∃ found, (ledger ops).heap.lookup inner "x" = .ok found ∧
        (ledger (ops ++ beside)).heap.lookup inner "x" = .ok found) ∧
      ¬(ledger (ops ++ hidden)).heap.isCurrent snapshot ∧
      ¬(ledger (ops ++ hidden ++ cleared)).heap.isCurrent snapshot := by
  intro outer inner snapshot ops beside hidden cleared
  have rarely (i : Nat) : (ledger (ops ++ hidden ++ cleared)).freed i < Nat.pow 2 32 :=
    Nat.lt_of_le_of_lt (freed_le_length {} (ops ++ hidden ++ cleared) i) (by decide : 0 + 10 < Nat.pow 2 32)
  have taken : (ledger ops).heap.versionSnapshot inner = .ok snapshot := by decide +kernel
  have current : (ledger (ops ++ beside)).heap.isCurrent snapshot := by decide +kernel
  have stale : ¬(ledger (ops ++ hidden)).heap.isCurrent snapshot := by decide +kernel
  obtain ⟨guarded, -⟩ :=
    snapshot_guards_lookup ops beside [.define inner "x" .missing, .remove inner "x"] inner snapshot rarely taken
  obtain ⟨-, stays⟩ := snapshot_guards_lookup ops hidden cleared inner snapshot rarely taken
  exact ⟨rarely, taken, current, guarded current "x", stale, stays stale⟩

end Heap
end CallByNeed
