import CallByNeed.Proofs.Staleness

/-!
Chains of frames. A frame is made under an id that the heap handed out before and keeps it as its parent. Slots
are used again, but the ids on a chain of parent links are older and older, so a chain passes no frame twice. It
ends in a frame without a parent or at an id whose frame was freed, and the bound on its length plays no part.
Walks up a chain end there too, unless a binding stops them, and an assignment to an outer variable changes the
binding that a lookup from above comes to.
-/
namespace CallByNeed
namespace Heap

variable {h k : Heap} {id e q last target : EnvId} {name : Name} {v : Value} {ids : List EnvId} {n m : Nat}

/-! Parent links. -/

theorem parent?_bumpEpoch {changed : Bool} : (h.bumpEpoch changed).parent? e = h.parent? e := by
  rw [parent?, parent?, frame?_bumpEpoch]

theorem parent?_updateFrame {f : Frame} (alive : h.frame? id = some f) {change : Frame → Frame}
    (keeps : (change f).parent = f.parent) : (h.updateFrame id change).parent? e = h.parent? e := by
  unfold parent?
  rw [frame?_updateFrame alive]
  split
  · rename_i here
    rw [here, alive]
    exact keeps
  · rfl

theorem parent?_bind (alive : h.contains id) : (h.bind id name v).parent? e = h.parent? e := by
  obtain ⟨f, found⟩ := contains_iff_exists.mp alive
  exact parent?_bumpEpoch.trans (parent?_updateFrame found rfl)

theorem frame?_alloc_other (parent : Option EnvId) (label : Option Name)
    (other : e ≠ (h.alloc parent label).1) : (h.alloc parent label).2.frame? e = h.frame? e := by
  cases free : h.free with
  | nil =>
    simp only [alloc, free] at other ⊢
    unfold frame?
    rw [Array.getElem?_push]
    by_cases new : e.index = h.slots.size
    · have apart : ¬0 = e.generation := fun same => other (by cases e; simp_all)
      simp [new, apart]
    · rw [if_neg new]
  | cons index rest =>
    simp only [alloc, free] at other ⊢
    unfold frame?
    rw [Array.getElem?_modify]
    by_cases here : index = e.index
    · subst here
      cases there : h.slots[e.index]? with
      | none => simp
      | some slot =>
        have apart : ¬slot.generation = e.generation := fun same => other (by cases e; simp_all)
        simp [apart]
    · rw [if_neg here]

theorem parent?_alloc_self {parent : Option EnvId} {label : Option Name}
    (above : (h.alloc parent label).2.parent? (h.alloc parent label).1 = some q) : parent = some q := by
  unfold parent? at above
  obtain ⟨f, found, linked⟩ := Option.bind_eq_some_iff.mp above
  obtain ⟨slot, there, -, holds⟩ := frame?_eq_some_iff.mp found
  cases free : h.free with
  | nil =>
    simp only [alloc, free, Array.getElem?_push_size, Option.some.injEq] at there
    subst there
    cases holds
    exact linked
  | cons index rest =>
    simp only [alloc, free, Array.getElem?_modify, if_true] at there
    obtain ⟨old, -, rfl⟩ := Option.map_eq_some_iff.mp there
    cases holds
    exact linked

theorem parent?_remove {result : Option Value × Heap} (removed : h.remove id name = .ok result) :
    result.2.parent? e = h.parent? e := by
  obtain ⟨f, alive, rest⟩ := ok_of_bind removed
  cases bound : f.bindings.get? name with
  | none =>
    rw [bound] at rest
    cases rest
    rfl
  | some previous =>
    rw [bound] at rest
    cases rest
    exact parent?_bumpEpoch.trans (parent?_updateFrame (frame?_of_frame alive) rfl)

/-- A parent link after an operation was there before, or it is that of a new frame. -/
theorem parent?_run (op : Operation) (above : (op.run h).parent? e = some q) :
    h.parent? e = some q ∨ ∃ label, op = .alloc (some q) label ∧ e = (h.alloc (some q) label).1 := by
  cases op with
  | alloc parent label =>
    change (h.alloc parent label).2.parent? e = some q at above
    by_cases new : e = (h.alloc parent label).1
    · subst new
      obtain rfl := parent?_alloc_self above
      exact .inr ⟨label, rfl, rfl⟩
    · rw [parent?, frame?_alloc_other parent label new] at above
      exact .inl above
  | define id name v =>
    refine .inl ?_
    cases written : h.define id name v with
    | error f => simpa [Operation.run, written, Except.toOption] using above
    | ok k =>
      obtain ⟨alive, rfl⟩ := alive_of_define written
      rw [← parent?_bind alive]
      simpa [Operation.run, written, Except.toOption] using above
  | remove id name =>
    refine .inl ?_
    cases removed : h.remove id name with
    | error f => simpa [Operation.run, removed, Except.toOption] using above
    | ok result =>
      rw [← parent?_remove removed]
      simpa [Operation.run, removed, Except.toOption] using above
  | assignOuter id name v =>
    refine .inl ?_
    cases assigned : h.assignOuter id name v with
    | error f => simpa [Operation.run, assigned, Except.toOption] using above
    | ok written =>
      obtain ⟨target, k⟩ := written
      obtain ⟨alive, rfl⟩ := alive_of_assignOuter assigned
      rw [← parent?_bind alive]
      simpa [Operation.run, assigned, Except.toOption] using above
  | collect s roots values =>
    refine .inl ?_
    change ((h.collect s roots values).2.frame? e).bind (·.parent) = some q at above
    rw [frame?_collect] at above
    split at above
    · exact above
    · cases above

/-! The order in which ids were handed out. -/

/-- Every new frame is made under an id that was handed out before it. -/
def Parented (ops : List Operation) : Prop :=
  ∀ i parent label, ops[i]? = some (.alloc (some parent) label) → parent ∈ (ledger (ops.take i)).made

theorem Parented.before {ops more : List Operation} (parented : Parented (ops ++ more)) : Parented ops := by
  intro i parent label there
  obtain ⟨inside, -⟩ := List.getElem?_eq_some_iff.mp there
  have made := parented i parent label (by rw [List.getElem?_append_left inside, there])
  rwa [List.take_append_of_le_length (Nat.le_of_lt inside)] at made

/-- Each parent link leads further back in the list of the ids handed out. -/
def Ledger.Descends (l : Ledger) : Prop :=
  ∀ e q, l.heap.parent? e = some q → l.made.idxOf e < l.made.idxOf q ∧ l.made.idxOf q < l.made.length

theorem Ledger.Descends.step {l : Ledger} (descends : l.Descends) (orderly : Orderly l) {op : Operation}
    (rarely : ∀ i, l.freed i < Nat.pow 2 32)
    (parented : ∀ parent label, op = .alloc (some parent) label → parent ∈ l.made) :
    (l.step op).Descends := by
  intro e q above
  cases op with
  | alloc parent label =>
    obtain ⟨new, -⟩ := List.nodup_cons.mp (orderly.alloc parent label rarely).unlike
    change (_ :: l.made).idxOf e < (_ :: l.made).idxOf q ∧ (_ :: l.made).idxOf q < (_ :: l.made).length
    have shifted {a : EnvId} (other : a ≠ (l.heap.alloc parent label).1) :
        ((l.heap.alloc parent label).1 :: l.made).idxOf a = l.made.idxOf a + 1 :=
      List.idxOf_cons_ne _ (Ne.symm other)
    have older {a : EnvId} (inside : l.made.idxOf a < l.made.length) : a ≠ (l.heap.alloc parent label).1 := by
      rintro rfl
      exact new (List.idxOf_lt_length_iff.mp inside)
    rcases parent?_run _ above with old | ⟨label', same, rfl⟩
    · obtain ⟨further, inside⟩ := descends e q old
      rw [shifted (older (Nat.lt_trans further inside)), shifted (older inside), List.length_cons]
      exact ⟨Nat.succ_lt_succ further, Nat.succ_lt_succ inside⟩
    · cases same
      have inside := List.idxOf_lt_length_iff.mpr (parented q label rfl)
      rw [List.idxOf_cons_self, shifted (older inside), List.length_cons]
      exact ⟨Nat.succ_pos _, Nat.succ_lt_succ inside⟩
  | define | remove | assignOuter | collect =>
    rcases parent?_run _ above with old | ⟨label', same, -⟩
    · exact descends e q old
    · cases same

theorem Parented.descends {ops : List Operation} (parented : Parented ops) (rarely : Rarely ops) :
    (ledger ops).Descends := by
  induction ops using List.reverseRecOn with
  | nil =>
    intro e q above
    simp [ledger, parent?, frame?] at above
  | append_singleton ops op ih =>
    rw [ledger_append]
    refine (ih parented.before rarely.before).step rarely.before.orderly rarely.before fun parent label same => ?_
    have made := parented ops.length parent label (by simp [same])
    rwa [List.take_left] at made

/-! Chains. -/

/-- The parent links from an id lead through different ids to a last one, that of a frame without a parent or
of a frame that was freed. -/
structure LeadsTo (h : Heap) (id last : EnvId) : Prop where
  ends : (h.chain id).getLast? = some last
  distinct : (h.chain id).Nodup
  linked : (h.chain id).IsChain fun e q => h.parent? e = some q
  outermost : h.parent? last = none

theorem linked_chainUpTo (n : Nat) (id : EnvId) :
    (h.chainUpTo n id).IsChain fun e q => h.parent? e = some q := by
  induction n generalizing id with
  | zero => exact .nil
  | succ n ih =>
    rw [chainUpTo_succ]
    cases above : h.parent? id with
    | none => exact .singleton id
    | some q =>
      have further := ih q
      cases n with
      | zero => exact .singleton id
      | succ n =>
        rw [Option.map_some, Option.getD_some, chainUpTo_succ] at *
        exact .cons_cons above further

/-- Where each link leads to a higher rank a chain runs through different ids and is not cut short. -/
theorem exists_leadsTo {rank : EnvId → Nat} (ranked : ∀ e q, h.parent? e = some q → rank e < rank q)
    (id : EnvId) : ∃ last, h.LeadsTo id last := by
  have linked := linked_chainUpTo (h := h) (h.slots.size + 1) id
  have rising : (h.chain id).Pairwise fun e q => rank e < rank q :=
    List.isChain_iff_pairwise.mp (linked.imp fun e q above => ranked e q above)
  obtain ⟨last, ends⟩ : ∃ last, (h.chain id).getLast? = some last :=
    Option.isSome_iff_exists.mp (List.getLast?_isSome.mpr (List.ne_nil_of_mem self_mem_chain))
  obtain ⟨below, split⟩ := List.getLast?_eq_some_iff.mp ends
  refine ⟨last, ends, rising.imp fun le same => ?_, linked, Option.eq_none_iff_forall_not_mem.mpr ?_⟩
  · exact absurd le (same ▸ Nat.lt_irrefl _)
  · -- The parent of the last id would stand on the chain, at a higher rank than all of it.
    intro q above
    have higher := ranked last q above
    have member := parent?_mem_chain (split ▸ List.mem_append_right _ List.mem_cons_self) above
    rw [split] at member rising
    rcases List.mem_append.mp member with before | here
    · have lower := (List.pairwise_append.mp rising).2.2 q before last List.mem_cons_self
      omega
    · rw [List.mem_singleton.mp here] at higher
      omega

/-- A chain that has come to its end gets no longer. -/
theorem chainUpTo_ended (ends : (h.chainUpTo n id).getLast? = some last) (outermost : h.parent? last = none)
    (le : n ≤ m) : h.chainUpTo m id = h.chainUpTo n id := by
  induction n generalizing id m with
  | zero => cases ends
  | succ n ih =>
    obtain ⟨m, rfl⟩ := Nat.exists_eq_add_one_of_ne_zero (Nat.ne_zero_of_lt le)
    rw [chainUpTo_succ] at ends
    rw [chainUpTo_succ, chainUpTo_succ]
    cases above : h.parent? id with
    | none => rfl
    | some q =>
      rw [above, Option.map_some, Option.getD_some] at ends
      rw [Option.map_some, Option.map_some, Option.getD_some, Option.getD_some]
      cases rest : h.chainUpTo n q with
      | nil =>
        rw [rest, List.getLast?_singleton] at ends
        rw [← Option.some.inj ends, above] at outermost
        cases outermost
      | cons e further =>
        rw [rest, List.getLast?_cons_cons, ← rest] at ends
        rw [ih ends (Nat.le_of_succ_le_succ le), rest]

namespace LeadsTo

variable (leads : h.LeadsTo id last)
include leads

theorem whole (long : h.slots.size < m) : h.chainUpTo m id = h.chain id :=
  chainUpTo_ended leads.ends leads.outermost long

/-- All ids before the last one have frames. -/
theorem alive (member : e ∈ h.chain id) (before : e ≠ last) : h.contains e := by
  obtain ⟨below, split⟩ := List.getLast?_eq_some_iff.mp leads.ends
  obtain ⟨first, rest, parts⟩ := List.append_of_mem member
  cases rest with
  | nil =>
    have same := List.append_inj_right' (parts.symm.trans split) rfl
    exact absurd (List.cons.inj same).1 before
  | cons q rest =>
    have linked := leads.linked
    rw [parts] at linked
    have above := (List.isChain_append.mp linked).2.1.rel
    obtain ⟨f, there, -⟩ := Option.bind_eq_some_iff.mp above
    exact contains_iff_exists.mpr ⟨f, there⟩

theorem above (parent : h.parent? id = some q) : h.LeadsTo q last ∧ h.chain id = id :: h.chain q := by
  have chain : h.chain id = id :: h.chainUpTo h.slots.size q := by
    rw [Heap.chain, chainUpTo_succ, parent]
    rfl
  have alive : h.contains id := by
    obtain ⟨f, there, -⟩ := Option.bind_eq_some_iff.mp parent
    exact contains_iff_exists.mpr ⟨f, there⟩
  obtain ⟨size, some⟩ := Nat.exists_eq_add_one_of_ne_zero (Nat.ne_zero_of_lt (index_lt alive))
  have ends : (h.chainUpTo h.slots.size q).getLast? = Option.some last := by
    have whole := leads.ends
    rwa [chain, some, chainUpTo_succ, List.getLast?_cons_cons, ← chainUpTo_succ, ← some] at whole
  have same : h.chain q = h.chainUpTo h.slots.size q := chainUpTo_ended ends leads.outermost (Nat.le_succ _)
  have distinct := leads.distinct
  have linked := leads.linked
  rw [chain, ← same] at distinct linked
  exact ⟨⟨same ▸ ends, (List.nodup_cons.mp distinct).2, linked.tail, leads.outermost⟩, same ▸ chain⟩

end LeadsTo

/-! Walks up a chain. -/

/-- What a name is bound to in a frame. -/
def binding? (h : Heap) (e : EnvId) (name : Name) : Option Value := (h.frame? e).bind (·.bindings.get? name)

/-- The first frame of a list that binds a name. -/
def FirstBinding (h : Heap) (name : Name) (ids : List EnvId) (e : EnvId) (v : Value) : Prop :=
  h.binding? e name = some v ∧
    ∃ below rest, ids = below ++ e :: rest ∧ ∀ b ∈ below, h.contains b ∧ h.binding? b name = none

/-- How a walk up a chain for a name ends: at a binding, in a frame without a parent, or at an id whose frame
was freed. -/
inductive WalkEnds (h : Heap) (name : Name) (ids : List EnvId) (last : EnvId) :
    Except Failure (Option (EnvId × Value)) → Prop
  | found {e : EnvId} {v : Value} (first : h.FirstBinding name ids e v) :
    WalkEnds h name ids last (.ok (some (e, v)))
  | outermost (alive : h.contains last) (unbound : ∀ b ∈ ids, h.binding? b name = none) :
    WalkEnds h name ids last (.ok none)
  | freed (lost : ¬h.contains last) (unbound : ∀ b ∈ ids, h.binding? b name = none) :
    WalkEnds h name ids last (.error (collected last))

theorem FirstBinding.below {b : EnvId} (first : h.FirstBinding name ids e v) (alive : h.contains b)
    (unbound : h.binding? b name = none) : h.FirstBinding name (b :: ids) e v := by
  obtain ⟨bound, below, rest, rfl, others⟩ := first
  exact ⟨bound, b :: below, rest, rfl, List.forall_mem_cons.mpr ⟨⟨alive, unbound⟩, others⟩⟩

theorem WalkEnds.below {found : Except Failure (Option (EnvId × Value))} (ends : h.WalkEnds name ids last found)
    (alive : h.contains e) (unbound : h.binding? e name = none) : h.WalkEnds name (e :: ids) last found := by
  cases ends with
  | found first => exact .found (first.below alive unbound)
  | outermost there others => exact .outermost there (List.forall_mem_cons.mpr ⟨unbound, others⟩)
  | freed lost others => exact .freed lost (List.forall_mem_cons.mpr ⟨unbound, others⟩)

/-- A walk along different ids that all have frames but the last ends so. -/
theorem walkEnds_lookupAlong (ends : ids.getLast? = some last) (distinct : ids.Nodup)
    (alive : ∀ e ∈ ids, e ≠ last → h.contains e) (name : Name) :
    h.WalkEnds name ids last (h.lookupAlong name ids) := by
  induction ids with
  | nil => cases ends
  | cons id rest ih =>
    obtain ⟨first, others⟩ := List.forall_mem_cons.mp alive
    obtain ⟨apart, distinct⟩ := List.nodup_cons.mp distinct
    rw [lookupAlong_cons]
    cases there : h.frame? id with
    | none =>
      have lost : ¬h.contains id := by simp [contains, there]
      obtain rfl : id = last := by_contra fun before => lost (first before)
      refine .freed lost (List.forall_mem_cons.mpr ⟨by rw [binding?, there]; rfl, ?_⟩)
      cases rest with
      | nil => exact fun b member => absurd member List.not_mem_nil
      | cons q rest =>
        rw [List.getLast?_cons_cons] at ends
        exact absurd (List.mem_of_getLast? ends) apart
    | some f =>
      have read : h.binding? id name = f.bindings.get? name := by rw [binding?, there]; rfl
      simp only
      cases held : f.bindings.get? name with
      | some v =>
        exact .found ⟨read.trans held, [], rest, rfl, fun b member => absurd member List.not_mem_nil⟩
      | none =>
        have here := contains_iff_exists.mpr ⟨f, there⟩
        cases rest with
        | nil =>
          obtain rfl : id = last := by simpa using ends
          exact .outermost here (by simpa using read.trans held)
        | cons q rest =>
          rw [List.getLast?_cons_cons] at ends
          exact (ih ends distinct others).below here (read.trans held)

theorem LeadsTo.walkEnds (leads : h.LeadsTo id last) (name : Name) :
    h.WalkEnds name (h.chain id) last (h.lookup id name) :=
  walkEnds_lookupAlong leads.ends leads.distinct (fun _ member => leads.alive member) name

theorem FirstBinding.contains (first : h.FirstBinding name ids e v) : h.contains e := by
  obtain ⟨f, there, -⟩ := Option.bind_eq_some_iff.mp first.1
  exact contains_iff_exists.mpr ⟨f, there⟩

theorem FirstBinding.lookupAlong (first : h.FirstBinding name ids e v) :
    h.lookupAlong name ids = .ok (some (e, v)) := by
  obtain ⟨bound, below, rest, rfl, unbound⟩ := first
  induction below with
  | nil =>
    obtain ⟨f, there, held⟩ := Option.bind_eq_some_iff.mp bound
    rw [List.nil_append, lookupAlong_cons, there]
    simp only [held]
  | cons b below ih =>
    obtain ⟨⟨alive, free⟩, others⟩ := List.forall_mem_cons.mp unbound
    obtain ⟨f, there⟩ := contains_iff_exists.mp alive
    have held : f.bindings.get? name = none := by rwa [binding?, there] at free
    rw [List.cons_append, lookupAlong_cons, there]
    simp only [held]
    exact ih others

/-! Snapshots. -/

theorem exists_mapM_version (alive : ∀ e ∈ ids, h.contains e) : ∃ snapshot : List (EnvId × Nat),
    (ids.mapM fun e => do .ok (e, (← h.frame e).version) : Except Failure _) = .ok snapshot ∧
      snapshot.map (·.1) = ids := by
  induction ids with
  | nil => exact ⟨[], rfl, rfl⟩
  | cons e ids ih =>
    obtain ⟨first, others⟩ := List.forall_mem_cons.mp alive
    obtain ⟨f, there⟩ := contains_iff_exists.mp first
    obtain ⟨snapshot, taken, same⟩ := ih others
    exact ⟨(e, f.version) :: snapshot, by rw [List.mapM_cons, taken, frame, there]; rfl, by simp [same]⟩

/-- A snapshot takes the version of each frame of the chain, or fails at the freed one. -/
theorem LeadsTo.versionSnapshot (leads : h.LeadsTo id last) :
    (h.contains last ∧ ∃ snapshot, h.versionSnapshot id = .ok snapshot ∧ snapshot.map (·.1) = h.chain id) ∨
      ¬h.contains last ∧ h.versionSnapshot id = .error (collected last) := by
  by_cases alive : h.contains last
  · refine .inl ⟨alive, exists_mapM_version fun e member => ?_⟩
    by_cases here : e = last
    · exact here ▸ alive
    · exact leads.alive member here
  · have lost : h.frame? last = none := Option.not_isSome_iff_eq_none.mp alive
    refine .inr ⟨alive, ?_⟩
    obtain ⟨below, split⟩ := List.getLast?_eq_some_iff.mp leads.ends
    have distinct := leads.distinct
    rw [split] at distinct
    have alive (e : EnvId) (member : e ∈ below) : h.contains e := by
      refine leads.alive (split ▸ List.mem_append_left _ member) fun here => ?_
      exact (List.nodup_append.mp distinct).2.2 e member last List.mem_cons_self here
    obtain ⟨snapshot, taken, -⟩ := exists_mapM_version alive
    rw [Heap.versionSnapshot, split, List.mapM_append, taken, List.mapM_cons, frame, lost]
    rfl

/-! Outer assignments. -/

theorem bindingFrame_eq (name : Name) (before : EnvId) (ids : List EnvId) : h.bindingFrame name before ids =
    (fun found => (found.map (·.1)).getD (ids.getLastD before)) <$> h.lookupAlong name ids := by
  induction ids generalizing before with
  | nil => rfl
  | cons id rest ih =>
    rw [lookupAlong_cons, bindingFrame, frame]
    cases there : h.frame? id with
    | none => rfl
    | some f =>
      change (if (f.bindings.get? name).isSome then _ else _) = _
      simp only
      cases held : f.bindings.get? name with
      | some v => rfl
      | none => exact (ih id).trans (by rw [List.getLastD_cons])

/-- Where an assignment from an id starts to look for the name. -/
def outer (h : Heap) (id : EnvId) : EnvId := (h.parent? id).getD id

theorem LeadsTo.start (leads : h.LeadsTo id last) : h.LeadsTo (h.outer id) last := by
  unfold outer
  cases parent : h.parent? id with
  | none => exact leads
  | some q => exact (leads.above parent).1

/-- An outer assignment binds the name where it is found from the parent, or else in the outermost frame. -/
theorem LeadsTo.assignOuter_eq (leads : h.LeadsTo id last) (alive : h.contains id) (name : Name) (v : Value) :
    h.assignOuter id name v = (fun found =>
      let target := (found.map (·.1)).getD last
      (target, h.bind target name v)) <$> h.lookup (h.outer id) name := by
  have start := leads.start
  obtain ⟨f, there⟩ := contains_iff_exists.mp alive
  have parent : h.parent id = .ok (h.parent? id) := by
    rw [Heap.parent, frame, parent?, there]
    rfl
  have whole : h.assignOuter id name v = (do
      let target ← h.bindingFrame name (h.outer id) (h.chain (h.outer id))
      .ok (target, ← h.define target name v)) := by
    rw [Heap.assignOuter, parent]
    rfl
  have written {target : EnvId} (there : h.contains target) :
      (do .ok (target, ← h.define target name v) : Except Failure _) = .ok (target, h.bind target name v) := by
    obtain ⟨g, found⟩ := contains_iff_exists.mp there
    rw [define, frame, found]
    rfl
  rw [whole, bindingFrame_eq, List.getLastD_eq_getLast?, start.ends, Option.getD_some]
  have ends := start.walkEnds name
  unfold lookup at *
  generalize h.lookupAlong name (h.chain (h.outer id)) = found at ends ⊢
  cases ends with
  | found first => exact written first.contains
  | outermost there => exact written there
  | freed lost => rfl

/-- An assignment succeeds, or the freed environment that the chain ends at is in its way. -/
theorem LeadsTo.assignOuter (leads : h.LeadsTo id last) (name : Name) (v : Value) :
    (∃ target k, h.assignOuter id name v = .ok (target, k)) ∨
      ¬h.contains last ∧ h.assignOuter id name v = .error (collected last) := by
  by_cases alive : h.contains id
  · rw [leads.assignOuter_eq alive]
    have ends := leads.start.walkEnds name
    generalize h.lookup (h.outer id) name = found at ends ⊢
    cases ends with
    | found | outermost => exact .inl ⟨_, _, rfl⟩
    | freed lost => exact .inr ⟨lost, rfl⟩
  · have lost : h.frame? id = none := Option.not_isSome_iff_eq_none.mp alive
    obtain rfl : id = last := by_contra fun before => alive (leads.alive self_mem_chain before)
    refine .inr ⟨alive, ?_⟩
    rw [Heap.assignOuter, Heap.parent, frame, lost]
    rfl

/-! What an assignment changes. -/

theorem binding?_bind (alive : h.contains target) (e : EnvId) (n : Name) :
    (h.bind target name v).binding? e n = if e = target ∧ n = name then some v else h.binding? e n := by
  obtain ⟨f, there⟩ := contains_iff_exists.mp alive
  rw [binding?, frame_bind there]
  by_cases here : e = target
  · subst here
    rw [if_pos rfl, binding?, there]
    by_cases same : n = name
    · simp [Table.get?_insert, same]
    · simp [Table.get?_insert, same, Ne.symm same]
  · rw [if_neg here, if_neg fun both => here both.1, binding?]

theorem chain_bind (alive : h.contains target) (e : EnvId) : (h.bind target name v).chain e = h.chain e := by
  have size : (h.bind target name v).slots.size = h.slots.size := by rw [slots_bind, Array.size_modify]
  rw [chain, chain, size]
  exact chainUpTo_kept (fun _ _ => parent?_bind alive) _ e self_mem_chain

/-- A frame that is the first to bind the name once it is bound there. -/
theorem firstBinding_bind (alive : h.contains target)
    (first : ∃ below rest, ids = below ++ target :: rest ∧
      ∀ b ∈ below, b ≠ target ∧ h.contains b ∧ h.binding? b name = none) :
    (h.bind target name v).FirstBinding name ids target v := by
  obtain ⟨below, rest, split, others⟩ := first
  refine ⟨by rw [binding?_bind alive, if_pos ⟨rfl, rfl⟩], below, rest, split, fun b member => ?_⟩
  obtain ⟨apart, there, unbound⟩ := others b member
  constructor
  · rwa [contains_iff_shape, shape_bind, ← contains_iff_shape]
  · rw [binding?_bind alive, if_neg fun both => apart both.1, unbound]

/-- After an assignment the name is looked up in the frame written to. -/
theorem LeadsTo.lookup_bind (leads : h.LeadsTo id last) {found : Option (EnvId × Value)}
    (looked : h.lookup id name = .ok found) (target : EnvId) (here : target = (found.map (·.1)).getD last) :
    h.contains target ∧ (h.bind target name v).lookup id name = .ok (some (target, v)) := by
  have ends := leads.walkEnds name
  rw [looked] at ends
  obtain ⟨alive, first⟩ : h.contains target ∧ ∃ below rest, h.chain id = below ++ target :: rest ∧
      ∀ b ∈ below, b ≠ target ∧ h.contains b ∧ h.binding? b name = none := by
    cases ends with
    | @found e w first =>
      obtain rfl : target = e := here
      obtain ⟨bound, below, rest, split, unbound⟩ := first
      refine ⟨FirstBinding.contains ⟨bound, below, rest, split, unbound⟩, below, rest, split, ?_⟩
      intro b member
      refine ⟨?_, unbound b member⟩
      rintro rfl
      rw [(unbound b member).2] at bound
      cases bound
    | outermost there unbound =>
      obtain rfl : target = last := here
      obtain ⟨below, split⟩ := List.getLast?_eq_some_iff.mp leads.ends
      refine ⟨there, below, [], split, fun b member => ?_⟩
      have distinct := leads.distinct
      rw [split] at distinct
      have apart := (List.nodup_append.mp distinct).2.2 b member target List.mem_cons_self
      have above : b ∈ h.chain id := split ▸ List.mem_append_left _ member
      exact ⟨apart, leads.alive above apart, unbound b above⟩
  refine ⟨alive, ?_⟩
  rw [lookup, chain_bind alive]
  exact (firstBinding_bind alive first).lookupAlong

/-- A name assigned from below is bound where it is found from the parent, or in the outermost frame, and
nothing else is. -/
theorem LeadsTo.assigned {parent : EnvId} (leads : h.LeadsTo id last) (above : h.parent? id = some parent)
    (done : h.assignOuter id name v = .ok (target, k)) :
    ((∃ w, h.lookup parent name = .ok (some (target, w))) ∨
        h.lookup parent name = .ok none ∧ target = last) ∧
      (∀ e n, k.binding? e n = if e = target ∧ n = name then some v else h.binding? e n) ∧
      (∀ e, k.parent? e = h.parent? e) ∧ k.lookup parent name = .ok (some (target, v)) := by
  obtain ⟨f, there, -⟩ := Option.bind_eq_some_iff.mp above
  rw [leads.assignOuter_eq (contains_iff_exists.mpr ⟨f, there⟩), outer, above, Option.getD_some] at done
  cases looked : h.lookup parent name with
  | error f =>
    rw [looked] at done
    cases done
  | ok found =>
    rw [looked] at done
    cases done
    obtain ⟨alive, again⟩ := (leads.above above).1.lookup_bind (v := v) looked _ rfl
    refine ⟨?_, binding?_bind alive, fun e => parent?_bind alive, again⟩
    cases found with
    | none => exact .inr ⟨rfl, rfl⟩
    | some binding => exact .inl ⟨binding.2, rfl⟩

/-- Chains of frames are well-founded: in a heap built by any operations, where each frame is made under an id
handed out before and no slot is freed so often that its generation starts over, the parent links from any id
lead through different frames to a last one, which has no parent or was freed. A lookup, a snapshot of versions
and an assignment come to an end on the way or there, and fail only if it was freed. An assignment from below a
frame changes one binding, that found by a lookup from the frame above or else one in the outermost frame, and
the lookup finds it afterwards. -/
theorem chains_well_founded (ops : List Operation) (rarely : ∀ i, (ledger ops).freed i < Nat.pow 2 32)
    (parented : ∀ i parent label, ops[i]? = some (.alloc (some parent) label) →
      parent ∈ (ledger (ops.take i)).made) :
    let h := (ledger ops).heap
    (WellFounded fun q e => h.parent? e = some q) ∧
    ∀ id, ∃ last, h.LeadsTo id last ∧
      (∀ m, h.slots.size < m → h.chainUpTo m id = h.chain id) ∧
      (∀ name, h.WalkEnds name (h.chain id) last (h.lookup id name)) ∧
      (h.contains last ∧ (∃ snapshot, h.versionSnapshot id = .ok snapshot ∧ snapshot.map (·.1) = h.chain id) ∨
        ¬h.contains last ∧ h.versionSnapshot id = .error (collected last)) ∧
      (∀ name v, (∃ target k, h.assignOuter id name v = .ok (target, k)) ∨
        ¬h.contains last ∧ h.assignOuter id name v = .error (collected last)) ∧
      ∀ parent name v target k, h.parent? id = some parent → h.assignOuter id name v = .ok (target, k) →
        ((∃ w, h.lookup parent name = .ok (some (target, w))) ∨
          h.lookup parent name = .ok none ∧ target = last) ∧
        (∀ e n, k.binding? e n = if e = target ∧ n = name then some v else h.binding? e n) ∧
        (∀ e, k.parent? e = h.parent? e) ∧ k.lookup parent name = .ok (some (target, v)) := by
  intro h
  have descends : (ledger ops).Descends := Parented.descends parented rarely
  refine ⟨?_, fun id => ?_⟩
  · apply Subrelation.wf (r := (measure fun e => (ledger ops).made.length - (ledger ops).made.idxOf e).rel)
    · intro q e above
      have further := descends e q above
      change (ledger ops).made.length - (ledger ops).made.idxOf q < (ledger ops).made.length - _
      omega
    · exact (measure _).wf
  · obtain ⟨last, leads⟩ := exists_leadsTo (fun e q above => (descends e q above).1) id
    exact ⟨last, leads, fun m long => leads.whole long, leads.walkEnds, leads.versionSnapshot, leads.assignOuter,
      fun parent name v target k above done => leads.assigned above done⟩

/-- A slot is used again for a frame between an older one and a newer one, and a frame is made under an id whose
frame was freed. -/
theorem chains_well_founded_reused :
    let outer : EnvId := ⟨0, 0⟩
    let reused : EnvId := ⟨1, 1⟩
    let inner : EnvId := ⟨2, 0⟩
    let ops : List Operation := [.alloc none none, .alloc (some outer) none, .define outer "x" .null,
      .collect {} [outer] [], .alloc (some outer) none, .alloc (some reused) none, .alloc (some ⟨1, 0⟩) none]
    let h := (ledger ops).heap
    (∀ i, (ledger ops).freed i < Nat.pow 2 32) ∧
      (∀ i parent label, ops[i]? = some (.alloc (some parent) label) → parent ∈ (ledger (ops.take i)).made) ∧
      h.chain inner = [inner, reused, outer] ∧
      (∃ k, h.assignOuter inner "x" .missing = .ok (outer, k) ∧
        k.lookup reused "x" = .ok (some (outer, .missing))) ∧
      h.versionSnapshot ⟨3, 0⟩ = .error (collected ⟨1, 0⟩) := by
  intro outer reused inner ops h
  have rarely (i : Nat) : (ledger ops).freed i < Nat.pow 2 32 :=
    Nat.lt_of_le_of_lt (freed_le_length {} ops i) (by decide : 0 + 7 < Nat.pow 2 32)
  have parented (i : Nat) (parent : EnvId) (label : Option Name)
      (there : ops[i]? = some (.alloc (some parent) label)) : parent ∈ (ledger (ops.take i)).made := by
    match i with
    | 1 | 4 | 5 | 6 =>
      cases there
      decide +kernel
    | 0 | 2 | 3 | _ + 7 => cases there
  obtain ⟨-, chains⟩ := chains_well_founded ops rarely parented
  obtain ⟨last, leads, -, -, -, assigns, assigned⟩ := chains inner
  have chain : h.chain inner = [inner, reused, outer] := by decide +kernel
  have above : h.parent? inner = some reused := by decide +kernel
  have alive : h.contains last := by
    have ends := leads.ends
    rw [show (ledger ops).heap.chain inner = _ from chain] at ends
    cases ends
    decide +kernel
  obtain ⟨target, k, done⟩ := (assigns "x" .missing).resolve_right fun lost => lost.1 alive
  obtain ⟨-, -, -, again⟩ := assigned reused "x" .missing target k above done
  have written : (h.assignOuter inner "x" .missing).map (·.1) = .ok outer := by decide +kernel
  obtain rfl : target = outer := by
    rw [show h.assignOuter inner "x" .missing = _ from done] at written
    exact Except.ok.inj written
  exact ⟨rarely, parented, chain, ⟨k, done, again⟩, by decide +kernel⟩

end Heap
end CallByNeed
