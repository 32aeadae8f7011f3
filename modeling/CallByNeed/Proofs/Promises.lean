import CallByNeed.Proofs.Hosting
import CallByNeed.Proofs.PromiseCells

/-!
The life of promises across evaluations. However an evaluation ends, the promises under evaluation are
those that were before, and the cells of promises have taken a course: an evaluated promise keeps its value,
and a promise is fulfilled at most once. The session counts the fulfilments, as many as there are evaluated
promises that did not start out so.
-/
namespace CallByNeed

/-- Whether a promise got its value by being forced. One that starts out evaluated is made under no
record. -/
def Promise.wasForced (p : Promise) : Bool := p.caller.isSome && p.state.value?.isSome

namespace Store

/-- How many promises got their value by being forced. -/
def forcedPromises (s : Store) : Nat := s.promises.toList.countP Promise.wasForced

/-- Every promise that waits for a value was made under a record. -/
def Traced (s : Store) : Prop :=
  ∀ id, (s.promise id).state.value? = none → (s.promise id).caller.isSome

/-! One promise changed, the others as they were. -/

theorem promise_modify (s : Store) (id other : PromiseId) (f : Promise → Promise) :
    (s.modifyPromise id f).promise other =
      if other = id ∧ id.index < s.promises.size then f (s.promise id) else s.promise other := by
  unfold promise modifyPromise
  dsimp only
  rw [Array.getElem?_modify]
  by_cases same : other = id
  · subst same
    by_cases inside : other.index < s.promises.size
    · simp [inside]
    · simp [inside]
  · have apart : id.index ≠ other.index := fun equal => same (by cases other; cases id; simp_all)
    simp [same, apart]

/-- A promise that waits for a value is there. -/
theorem waiting_inside {s : Store} {id : PromiseId} (waiting : (s.promise id).state.value? = none) :
    id.index < s.promises.size := by
  refine Nat.lt_of_not_le fun outside => ?_
  unfold promise at waiting
  rw [Array.getElem?_eq_none outside] at waiting
  cases waiting

theorem countP_modify {α : Type} (p : α → Bool) (f : α → α) (xs : List α) (i : Nat) (x : α)
    (found : xs[i]? = some x) :
    (xs.modify i f).countP p + (if p x then 1 else 0) =
      xs.countP p + (if p (f x) then 1 else 0) := by
  induction xs generalizing i with
  | nil => simp at found
  | cons y rest ih =>
    cases i with
    | zero =>
      obtain rfl : y = x := by simpa using found
      simp only [List.modify_zero_cons, List.countP_cons]
      omega
    | succ i =>
      have step := ih i (by simpa using found)
      simp only [List.modify_succ_cons, List.countP_cons]
      omega

/-- The count of forced promises after one of them changed. -/
theorem forcedPromises_modify (s : Store) (id : PromiseId) (f : Promise → Promise)
    (inside : id.index < s.promises.size) :
    (s.modifyPromise id f).forcedPromises + (if (s.promise id).wasForced then 1 else 0) =
      s.forcedPromises + (if (f (s.promise id)).wasForced then 1 else 0) := by
  have found : s.promises.toList[id.index]? = some (s.promise id) := by
    unfold promise
    simp [inside]
  unfold forcedPromises modifyPromise
  rw [Array.toList_modify]
  exact countP_modify _ _ _ _ _ found

/-! The cells of promises. -/

theorem cells_of_same {s t : Store} (same : t.promises = s.promises) : t.cells = s.cells := by
  unfold cells
  rw [same]

theorem cells_get {s : Store} {id : PromiseId} (inside : id.index < s.promises.size) :
    s.cells[id.index]? = some (s.promise id).state.cells := by
  unfold cells promise
  simp [inside]

theorem cells_get_eq_some {s : Store} {id : PromiseId} {c : PromiseCells}
    (found : s.cells[id.index]? = some c) : (s.promise id).state.cells = c := by
  have inside : id.index < s.promises.size := by
    obtain ⟨inside, -⟩ := Array.getElem?_eq_some_iff.mp found
    simpa [cells] using inside
  exact Option.some.inj ((cells_get inside).symm.trans found)

theorem cells_add (s : Store) (p : Promise) : (addPromise p s).2.cells = s.cells.push p.state.cells := by
  unfold cells addPromise
  simp

/-- A promise that changes changes its cells, and no others. -/
theorem changed_modify {s : Store} {id : PromiseId} {f : Promise → Promise}
    {g : PromiseCells → Option PromiseCells} (inside : id.index < s.promises.size)
    (step : g (s.promise id).state.cells = some (f (s.promise id)).state.cells) :
    CellOp.changed id g s.cells = some (s.modifyPromise id f).cells := by
  unfold CellOp.changed
  rw [cells_get inside, Option.bind_some, step, Option.map_some]
  congr 1
  apply Array.ext_getElem?
  intro i
  unfold promise cells modifyPromise
  rw [Array.getElem?_setIfInBounds, Array.getElem?_map, Array.getElem?_map, Array.getElem?_modify]
  split
  · rename_i same
    subst same
    simp [inside]
  · rfl

theorem perform_begin {s : Store} {id : PromiseId} {env : EnvId}
    (waiting : (s.promise id).state = .unevaluated env) :
    (CellOp.begin id).perform s.cells = some (s.setPromiseState id (.underEvaluation env)).cells := by
  refine changed_modify (waiting_inside (by rw [waiting]; rfl)) ?_
  rw [waiting, PromiseState.cells_beginEvaluation]
  rfl

theorem perform_fulfil {s : Store} {id : PromiseId} (inside : id.index < s.promises.size) (v : Value) :
    (CellOp.fulfil id v).perform s.cells = some (s.fulfil id v).cells :=
  changed_modify inside (congrArg some (PromiseState.cells_fulfil _ v).symm)

theorem perform_reset {s : Store} {id : PromiseId} (inside : id.index < s.promises.size) :
    (CellOp.reset id).perform s.cells = some (s.resetPromise id).cells :=
  changed_modify inside (congrArg some (PromiseState.cells_reset _).symm)

theorem cells_modify {s : Store} {id : PromiseId} {f : Promise → Promise} (same : ∀ p, (f p).state = p.state) :
    (s.modifyPromise id f).cells = s.cells := by
  apply Array.ext_getElem?
  intro i
  unfold cells modifyPromise
  rw [Array.getElem?_map, Array.getElem?_map, Array.getElem?_modify]
  split
  · cases s.promises[i]? <;> simp [same]
  · rfl

theorem coherent_cells (s : Store) : ∀ c ∈ s.cells, c.Coherent := by
  intro c member
  obtain ⟨p, -, rfl⟩ := Array.mem_map.mp member
  exact p.state.coherent_cells

theorem valued_waiting {s : Store} {id : PromiseId} (waiting : (s.promise id).state.value? = none) :
    valued s.cells id = 0 := by
  rw [valued_of_get (cells_get (waiting_inside waiting))]
  cases state : (s.promise id).state with
  | unevaluated | underEvaluation => rfl
  | evaluated =>
    rw [state] at waiting
    cases waiting

end Store

/-- What evaluations keep about promises. -/
structure Disciplined (l m : Ledger) : Prop where
  running : ∀ id env, (m.store.promise id).state = .underEvaluation env ↔
    (l.store.promise id).state = .underEvaluation env
  course : ∃ n, Course l.store.cells m.store.cells n ∧ m.fulfilled = l.fulfilled + n
  counted : l.store.Traced → m.store.Traced ∧
    m.fulfilled + l.store.forcedPromises = l.fulfilled + m.store.forcedPromises

namespace Disciplined

theorem grown {l m : Ledger} (kept : Disciplined l m) : l.store.promises.size ≤ m.store.promises.size := by
  obtain ⟨n, course, -⟩ := kept.course
  simpa [Store.cells] using course.grown

theorem evaluated {l m : Ledger} (kept : Disciplined l m) (id : PromiseId) (v : Value)
    (inside : id.index < l.store.promises.size) (done : (l.store.promise id).state = .evaluated v) :
    (m.store.promise id).state = .evaluated v := by
  obtain ⟨n, course, -⟩ := kept.course
  have found := Store.cells_get inside
  rw [done] at found
  exact PromiseState.cells_injective (Store.cells_get_eq_some (course.evaluated found rfl))

theorem refl (l : Ledger) : Disciplined l l where
  running _ _ := Iff.rfl
  course := ⟨0, .refl _, rfl⟩
  counted traced := ⟨traced, rfl⟩

theorem trans {l m n : Ledger} (first : Disciplined l m) (second : Disciplined m n) :
    Disciplined l n where
  running id env := (second.running id env).trans (first.running id env)
  course := by
    obtain ⟨k, course, count⟩ := first.course
    obtain ⟨j, onward, more⟩ := second.course
    exact ⟨k + j, course.trans onward, by omega⟩
  counted traced := by
    obtain ⟨between, counted⟩ := first.counted traced
    obtain ⟨last, onward⟩ := second.counted between
    exact ⟨last, by omega⟩

theorem of_same {s t : Store} (same : t.promises = s.promises) (n : Nat) :
    Disciplined ⟨s, n⟩ ⟨t, n⟩ := by
  have promise : t.promise = s.promise := by
    funext id
    unfold Store.promise
    rw [same]
  have traced : t.Traced ↔ s.Traced := by
    unfold Store.Traced
    rw [promise]
  refine ⟨?_, ?_, ?_⟩
  · intro id env
    rw [promise]
  · refine ⟨0, ?_, rfl⟩
    rw [Store.cells_of_same same]
    exact .refl _
  · intro before
    refine ⟨traced.mpr before, ?_⟩
    unfold Store.forcedPromises
    rw [same]

theorem promise_add (s : Store) (p : Promise) (id : PromiseId) :
    (Store.addPromise p s).2.promise id =
      if id.index = s.promises.size then p else s.promise id := by
  unfold Store.promise Store.addPromise
  rw [Array.getElem?_push]
  split <;> rfl

theorem course_add (s : Store) (p : Promise) (idle : ∀ env, p.state ≠ .underEvaluation env) :
    Course s.cells (Store.addPromise p s).2.cells 0 := by
  rw [Store.cells_add]
  cases state : p.state with
  | unevaluated env =>
    have made : (CellOp.defer env).perform s.cells = _ := rfl
    exact Course.single made nofun
  | underEvaluation env => exact absurd state (idle env)
  | evaluated v =>
    have made : (CellOp.settle v).perform s.cells = _ := rfl
    exact Course.single made nofun

/-- A new promise is not under evaluation, and waits for a value exactly if it has a record. -/
theorem addPromise (s : Store) (p : Promise) (idle : ∀ env, p.state ≠ .underEvaluation env)
    (record : p.caller.isSome = !p.state.value?.isSome) (n : Nat) :
    Disciplined ⟨s, n⟩ ⟨(Store.addPromise p s).2, n⟩ where
  running id env := by
    dsimp only
    rw [promise_add]
    split
    · rename_i fresh
      constructor
      · intro running
        exact absurd running (idle env)
      · intro running
        have waiting : (s.promise id).state.value? = none := by rw [running]; rfl
        have inside := Store.waiting_inside waiting
        omega
    · rfl
  course := ⟨0, course_add s p idle, rfl⟩
  counted traced := by
    constructor
    · intro id
      dsimp only
      rw [promise_add]
      split
      · intro waiting
        rw [record, waiting]
        rfl
      · exact traced id
    · have unforced : p.wasForced = false := by
        unfold Promise.wasForced
        rw [record]
        cases p.state.value?.isSome <;> rfl
      unfold Store.forcedPromises Store.addPromise
      simp [unforced]

theorem setSharing_promises (f : Sharing → Sharing) (v : Value) (s : Store) :
    (s.setSharing f v).promises = s.promises := by
  cases v <;> rfl

theorem promise_share (v : Value) (s : Store) (id : PromiseId) :
    (s.share v).promise id = s.promise id := by
  unfold Store.promise Store.share
  rw [setSharing_promises]

theorem distrust_promises (site : NodeId) (s : Store) :
    (s.distrust site).promises = s.promises := by
  unfold Store.distrust
  split <;> rfl

instance : Lasting Disciplined where
  refl := refl
  trans := trans
  evolution := {
    refl := fun _ _ => refl _
    trans := fun first second n => (first n).trans (second n)
    addVector := fun _ _ => of_same rfl
    addDots := fun _ _ => of_same rfl
    freshNode := fun _ => of_same rfl
    closure := fun _ _ _ => of_same rfl
    evaluatedPromise := fun _ _ _ s => addPromise s _ nofun rfl
    lazyPromise := fun _ _ _ _ s => addPromise s _ nofun rfl
    raise := fun f _ v s => of_same (setSharing_promises f v s)
    write := fun _ _ _ _ _ _ => of_same rfl }
  eagerPromise _ _ _ _ s := addPromise s _ nofun rfl
  distrust site s := of_same (distrust_promises site s)

/-! A promise that is forced. -/

theorem state_set (s : Store) (id other : PromiseId) (state : PromiseState)
    (inside : id.index < s.promises.size) :
    ((s.setPromiseState id state).promise other).state =
      if other = id then state else (s.promise other).state := by
  unfold Store.setPromiseState
  rw [Store.promise_modify]
  by_cases same : other = id
  · simp [same, inside]
  · simp [same]

theorem caller_set (s : Store) (id other : PromiseId) (state : PromiseState) :
    ((s.setPromiseState id state).promise other).caller = (s.promise other).caller := by
  unfold Store.setPromiseState
  rw [Store.promise_modify]
  split
  · rename_i found
    rw [found.1]
  · rfl

theorem size_set (s : Store) (id : PromiseId) (state : PromiseState) :
    (s.setPromiseState id state).promises.size = s.promises.size := by
  unfold Store.setPromiseState Store.modifyPromise
  rw [Array.size_modify]

theorem not_wasForced {p : Promise} (waiting : p.state.value? = none) : p.wasForced = false := by
  unfold Promise.wasForced
  rw [waiting]
  exact Bool.and_false _

/-- A promise that waits for a value is counted as soon as it has one, if it was made under a record. -/
theorem forcedPromises_set {s : Store} {id : PromiseId} (waiting : (s.promise id).state.value? = none)
    (traced : s.Traced) (state : PromiseState) :
    (s.setPromiseState id state).forcedPromises = s.forcedPromises + state.value?.isSome.toNat := by
  have counted := Store.forcedPromises_modify s id ({ · with state }) (Store.waiting_inside waiting)
  have forced : ({ s.promise id with state } : Promise).wasForced = state.value?.isSome := by
    unfold Promise.wasForced
    rw [traced id waiting]
    rfl
  rw [not_wasForced waiting, forced] at counted
  change (s.modifyPromise id _).forcedPromises = _
  cases valued : state.value?.isSome <;> simpa [valued] using counted

theorem traced_set {s : Store} {id : PromiseId} (waiting : (s.promise id).state.value? = none)
    (traced : s.Traced) (state : PromiseState) : (s.setPromiseState id state).Traced := by
  intro other unfilled
  rw [caller_set]
  rw [state_set s id other state (Store.waiting_inside waiting)] at unfilled
  split at unfilled
  · rename_i same
    rw [same]
    exact traced id waiting
  · exact traced other unfilled

theorem course_fulfil {s : Store} {id : PromiseId} (waiting : (s.promise id).state.value? = none) (v : Value) :
    Course s.cells (s.fulfil id v).cells 1 := by
  refine Course.single (Store.perform_fulfil (Store.waiting_inside waiting) v) fun other same => ?_
  obtain rfl : id = other := by simpa [CellOp.fulfilsAt] using same
  exact Store.valued_waiting waiting

/-- A promise is under evaluation as long as its evaluation goes on. -/
theorem running_within {s t : Store} {id : PromiseId} {env : EnvId} {n k : Nat}
    (waiting : (s.promise id).state = .unevaluated env)
    (during : Disciplined ⟨s.setPromiseState id (.underEvaluation env), n⟩ ⟨t, k⟩) :
    (t.promise id).state = .underEvaluation env := by
  have begun := state_set s id id (.underEvaluation env) (Store.waiting_inside (by rw [waiting]; rfl))
  rw [during.running]
  simpa using begun

/-- A promise that waits for a value may get one, which counts as one fulfilment. -/
theorem fulfil {s : Store} {id : PromiseId} {env : EnvId}
    (waiting : (s.promise id).state = .unevaluated env) (v : Value) (n : Nat) :
    Disciplined ⟨s, n⟩ ⟨s.fulfil id v, n + 1⟩ := by
  have unfilled : (s.promise id).state.value? = none := by rw [waiting]; rfl
  have inside := Store.waiting_inside unfilled
  refine ⟨?_, ⟨1, course_fulfil unfilled v, rfl⟩, ?_⟩
  · intro other within
    dsimp only [Store.fulfil]
    rw [state_set s id other _ inside]
    split
    · rename_i same
      simp [same, waiting]
    · rfl
  · intro traced
    have counted := forcedPromises_set unfilled traced (.evaluated v)
    refine ⟨traced_set unfilled traced _, ?_⟩
    change n + 1 + s.forcedPromises = n + (s.setPromiseState id (.evaluated v)).forcedPromises
    simp only [PromiseState.value?, Option.isSome_some, Bool.toNat_true] at counted
    omega

/-- What holds while a promise is under evaluation holds between the states before that evaluation and
after it, when the promise has its value or waits again. -/
theorem around {s t : Store} {id : PromiseId} {env : EnvId} {n k j : Nat} (state : PromiseState)
    (waiting : (s.promise id).state = .unevaluated env)
    (during : Disciplined ⟨s.setPromiseState id (.underEvaluation env), n⟩ ⟨t, k⟩)
    (idle : ∀ env, state ≠ .underEvaluation env) (ending : Course t.cells (t.setPromiseState id state).cells j)
    (count : state.value?.isSome.toNat = j) : Disciplined ⟨s, n⟩ ⟨t.setPromiseState id state, k + j⟩ := by
  have unfilled : (s.promise id).state.value? = none := by rw [waiting]; rfl
  have begun (other) := state_set s id other (.underEvaluation env) (Store.waiting_inside unfilled)
  have still := running_within waiting during
  have running : (t.promise id).state.value? = none := by rw [still]; rfl
  have ended (other) := state_set t id other state (Store.waiting_inside running)
  refine ⟨?_, ?_, ?_⟩
  · intro other within
    dsimp only
    rw [ended]
    split
    · rename_i same
      rw [same, waiting]
      exact ⟨fun running => absurd running (idle within), nofun⟩
    · rename_i apart
      have kept := during.running other within
      dsimp only at kept
      rw [begun, if_neg apart] at kept
      exact kept
  · obtain ⟨m, course, count⟩ := during.course
    have start := Course.single (Store.perform_begin waiting) nofun
    refine ⟨0 + m + j, (start.trans course).trans ending, ?_⟩
    dsimp only at count ⊢
    omega
  · intro traced
    obtain ⟨last, counted⟩ := during.counted (traced_set unfilled traced _)
    dsimp only at counted ⊢
    rw [forcedPromises_set unfilled traced] at counted
    rw [forcedPromises_set running last]
    refine ⟨traced_set running last _, ?_⟩
    simp only [PromiseState.value?, Option.isSome_none, Bool.toNat_false] at counted
    omega

theorem beginEvaluation_apply (s : Store) (id : PromiseId) :
    Store.beginEvaluation id s = match (s.promise id).state with
      | .unevaluated env => (.ok (), s.setPromiseState id (.underEvaluation env))
      | state =>
        (.error (.internal s!"cannot start evaluating a promise that is {state.name}"), s) := by
  unfold Store.beginEvaluation
  rw [Store.read_apply]
  cases (s.promise id).state <;> rfl

theorem share_set (s : Store) (id : PromiseId) (state : PromiseState) (v : Value) :
    (s.setPromiseState id state).share v = (s.share v).setPromiseState id state := by
  cases v <;> rfl

theorem share (v : Value) (s : Store) (n : Nat) : Disciplined ⟨s, n⟩ ⟨s.share v, n⟩ :=
  of_same (setSharing_promises _ v s) n

/-- A promise is fulfilled, with its value shared, from the state in which it waits. -/
theorem share_fulfil {s : Store} {id : PromiseId} {env : EnvId}
    (waiting : (s.promise id).state = .unevaluated env) (v : Value) (n : Nat) :
    Disciplined ⟨s, n⟩ ⟨(s.share v).fulfil id v, n + 1⟩ := by
  rw [← promise_share v] at waiting
  exact (share v s n).trans (fulfil waiting v n)

/-- An evaluation that comes to a value ends with the promise fulfilled. -/
theorem fulfil_within {s t : Store} {id : PromiseId} {env : EnvId} {n k : Nat}
    (waiting : (s.promise id).state = .unevaluated env)
    (during : Disciplined ⟨s.setPromiseState id (.underEvaluation env), n⟩ ⟨t, k⟩) (v : Value) :
    Disciplined ⟨s, n⟩ ⟨(t.share v).fulfil id v, k + 1⟩ := by
  have running := running_within waiting during
  have unsettled : (t.promise id).state.value? = none := by
    rw [running]
    rfl
  have course := course_fulfil unsettled v
  have filled := around (.evaluated v) waiting during nofun course rfl
  have same : (t.setPromiseState id (.evaluated v)).share v = (t.share v).fulfil id v := share_set _ _ _ _
  exact filled.trans (same ▸ share v _ _)

/-- A promise whose evaluation is given up waits for the next one. -/
theorem reset_running {s : Store} {id : PromiseId} {env : EnvId}
    (running : (s.promise id).state = .underEvaluation env) :
    s.resetPromise id = s.setPromiseState id (.unevaluated env) := by
  have inside : id.index < s.promises.size := Store.waiting_inside (by rw [running]; rfl)
  unfold Store.promise at running
  unfold Store.resetPromise Store.setPromiseState Store.modifyPromise
  congr 1
  apply Array.ext_getElem?
  intro i
  rw [Array.getElem?_modify, Array.getElem?_modify]
  split
  · rename_i same
    subst same
    rw [Array.getElem?_eq_getElem inside] at running ⊢
    simp only [Option.getD_some] at running
    simp [running, PromiseState.reset]
  · rfl

/-- An evaluation that is given up ends with the promise waiting again. -/
theorem reset_within {s t : Store} {id : PromiseId} {env : EnvId} {n k : Nat}
    (waiting : (s.promise id).state = .unevaluated env)
    (during : Disciplined ⟨s.setPromiseState id (.underEvaluation env), n⟩ ⟨t, k⟩) :
    Disciplined ⟨s, n⟩ ⟨t.resetPromise id, k⟩ := by
  have running := running_within waiting during
  have unsettled : (t.promise id).state.value? = none := by
    rw [running]
    rfl
  have inside := Store.waiting_inside unsettled
  have course : Course t.cells (t.resetPromise id).cells 0 :=
    Course.single (Store.perform_reset inside) nofun
  rw [reset_running running] at course ⊢
  exact around (.unevaluated env) waiting during nofun course rfl

/-- To start an evaluation of a promise and to end it, by giving it up or with a value, is to keep the
discipline. -/
theorem keeps_evaluation {α β : Type} (id : PromiseId) {m : Session → EvalM α}
    {k : Except Unwind α → EvalM β} (during : ∀ s, Keeps Disciplined (m s))
    (ending : ∀ r (t : Session), (k r t).2.ledger = ⟨t.store.resetPromise id, t.stats.promisesForced⟩ ∨
      ∃ v, (k r t).2.ledger = ⟨(t.store.share v).fulfil id v, t.stats.promisesForced + 1⟩) :
    Keeps Disciplined (do
      onStore (Store.beginEvaluation id)
      let s ← get
      let r ← observe (m s)
      k r) := by
  intro s
  rw [bind_apply, onStore_apply, beginEvaluation_apply]
  cases state : (s.store.promise id).state with
  | unevaluated env =>
    let begun := { s with store := s.store.setPromiseState id (.underEvaluation env) }
    have run : Disciplined begun.ledger (m begun begun).2.ledger := during begun begun
    change Disciplined s.ledger (k (m begun begun).1 (m begun begun).2).2.ledger
    rcases ending (m begun begun).1 (m begun begun).2 with given | ⟨v, given⟩
    · rw [given]
      exact reset_within state run
    · rw [given]
      exact fulfil_within state run v
  | underEvaluation env => exact refl _
  | evaluated v => exact refl _

theorem keeps_evaluatePromise {ev : Evaluator} (h : (Lasting.rules Disciplined).Evaluates ev)
    (id : PromiseId) (env : EnvId) (caller : RecordId) :
    Keeps Disciplined (evaluatePromise ev id env caller) := by
  refine keeps_evaluation id (fun s => (Lasting.rules Disciplined).holds_underRecord rfl fun _ => h _ _ _)
    fun r t => ?_
  cases r with
  | ok v => exact .inr ⟨v, rfl⟩
  | error u => exact .inl rfl

theorem state_deoptimize (s : Store) (id other : PromiseId) :
    ((s.deoptimize id).promise other).state = (s.promise other).state := by
  unfold Store.deoptimize
  rw [Store.promise_modify]
  split
  · rename_i found
    rw [found.1]
  · rfl

/-- Giving up a value computed ahead changes neither the state of a promise nor its record. -/
theorem deoptimize (s : Store) (id : PromiseId) (n : Nat) :
    Disciplined ⟨s, n⟩ ⟨s.deoptimize id, n⟩ := by
  have state := state_deoptimize s id
  have caller (other : PromiseId) :
      ((s.deoptimize id).promise other).caller = (s.promise other).caller := by
    unfold Store.deoptimize
    rw [Store.promise_modify]
    split
    · rename_i found
      rw [found.1]
    · rfl
  refine ⟨fun other env => by rw [state], ⟨0, ?_, rfl⟩, ?_⟩
  · have same : (s.deoptimize id).cells = s.cells := Store.cells_modify fun _ => rfl
    exact same ▸ .refl _
  · intro traced
    refine ⟨fun other => by rw [state, caller]; exact traced other, ?_⟩
    by_cases inside : id.index < s.promises.size
    · have counted := Store.forcedPromises_modify s id
        (fun p => { p with eager := p.eager.map ({ · with deoptimized := true }) }) inside
      exact congrArg (n + ·) (Nat.add_right_cancel counted).symm
    · have same : s.deoptimize id = s := by
        unfold Store.deoptimize Store.modifyPromise
        simp [Array.modify, Array.modifyM, inside]
      rw [same]

/-- The value computed ahead of a promise that waits for one is its value, or is given up. -/
theorem takeEagerValue {s : Session} {id : PromiseId} {env : EnvId}
    (waiting : (s.store.promise id).state = .unevaluated env) :
    Disciplined s.ledger (takeEagerValue id s).2.ledger := by
  rcases takeEagerValue_cases id s with ⟨_, run⟩ | ⟨eager, _, _, ⟨_, run⟩ | run⟩
  · rw [run]
    exact refl _
  · rw [run]
    exact share_fulfil waiting eager.value _
  · rw [run]
    have given : Disciplined s.ledger ⟨s.store.deoptimize id, s.stats.promisesForced⟩ :=
      deoptimize s.store id _
    exact given.trans (of_same (distrust_promises _ _) _)

/-- The probe marks promises on its way and takes every mark back. -/
theorem keeps_isMissingWithin (steps : Nat) (outermost : Bool) (v : Value) :
    Keeps Disciplined (isMissingWithin steps outermost v) := by
  fun_induction isMissingWithin steps outermost v with
  | case1 | case2 | case3 | case5 => exact keeps_of_same fun _ => rfl
  | case4 steps outermost id ih =>
    refine keeps_get fun s => ?_
    dsimp only
    split
    · exact keeps_of_same fun _ => rfl
    · split
      · exact keeps_of_same fun _ => rfl
      · exact keeps_of_same fun _ => rfl
      · split
        · exact keeps_of_same fun _ => rfl
        · refine keeps_bind ((Lasting.rules Disciplined).holds_promisedBinding _) fun found => ?_
          split
          · exact keeps_of_same fun _ => rfl
          · rename_i inner
            exact keeps_evaluation id (k := fun answer => do
              modifyStore (·.resetPromise id)
              resume answer) (fun _ => ih inner) fun r t => .inl (by cases r <;> rfl)

instance : Lawful Disciplined where
  force {ev} h id caller := by
    intro s
    unfold CallByNeed.force
    rw [get_bind]
    cases state : (s.store.promise id).state with
    | evaluated v => exact refl _
    | underEvaluation env =>
      dsimp only
      split
      · exact (Lasting.rules Disciplined).holds_failAt caller cyclicPromise s
      · exact refl _
    | unevaluated env =>
      refine keeps_bind_at (takeEagerValue state) fun found => ?_
      split
      · exact keeps_of_same fun _ => rfl
      · exact keeps_bind ((Lasting.rules Disciplined).holds_ensureLazy caller) fun _ =>
          keeps_bind (Lasting.rules Disciplined).polling fun _ => keeps_evaluatePromise h id env caller
  missingProbe name env := by
    refine keeps_bind ((Lasting.rules Disciplined).holds_readHeap _) fun found => ?_
    split
    · exact keeps_of_same fun _ => rfl
    · exact keeps_get fun _ => keeps_isMissingWithin _ _ _

end Disciplined

/-- Forcing by the cells: an evaluated promise is asked for its value, and one to be evaluated for its
environment. Where a cell is empty that is an internal failure. -/
def forceByCells (ev : Evaluator) (id : PromiseId) (caller : RecordId) : EvalM Value := do
  let s ← get
  let c := (s.store.promise id).state.cells
  match c.stage with
  | .evaluated =>
    match c.value with
    | some v => pure v
    | none => fail (.internal "evaluated promise without a value")
  | .underEvaluation =>
    if s.options.strictPromiseCycles then failAt caller cyclicPromise else pure .missing
  | .unevaluated =>
    match ← takeEagerValue id with
    | some v => pure v
    | none =>
      ensureLazy caller
      checkInterrupt
      let t ← get
      match (t.store.promise id).state.cells.env with
      | some env => evaluatePromise ev id env caller
      | none => fail (.internal "unevaluated promise without an environment")

/-- Giving up a value computed ahead leaves a promise in its state. -/
theorem takeEagerValue_none {id : PromiseId} {s t : Session} (run : takeEagerValue id s = (.ok none, t)) :
    (t.store.promise id).state = (s.store.promise id).state := by
  rcases takeEagerValue_cases id s with ⟨-, kept⟩ | ⟨eager, -, -, ⟨-, taken⟩ | given⟩
  · rw [kept] at run
    cases run
    rfl
  · rw [taken] at run
    cases run
  · rw [given] at run
    cases run
    have promise (s : Store) : (s.distrust eager.site).promise id = s.promise id := by
      unfold Store.promise
      rw [Disciplined.distrust_promises]
    rw [promise]
    exact Disciplined.state_deoptimize s.store id id

/-- No cell that forcing asks for is empty. -/
theorem force_eq_forceByCells (ev : Evaluator) (id : PromiseId) (caller : RecordId) :
    force ev id caller = forceByCells ev id caller := by
  funext s
  unfold force forceByCells
  rw [get_bind, get_bind]
  cases state : (s.store.promise id).state with
  | evaluated v => rfl
  | underEvaluation env => rfl
  | unevaluated env =>
    simp only [PromiseState.cells, PromiseCells.deferred]
    rw [bind_apply, bind_apply]
    rcases taken : takeEagerValue id s with ⟨u | v, t⟩
    · rfl
    · cases v with
      | some v => rfl
      | none =>
        have still := (takeEagerValue_none taken).trans state
        dsimp only
        rw [bind_apply, bind_apply]
        rcases ensured : ensureLazy caller t with ⟨u | a, w⟩
        · rfl
        · obtain rfl := ensureLazy_state ensured
          dsimp only
          rw [bind_apply, bind_apply]
          rcases polled : checkInterrupt w with ⟨u | a, w⟩
          · rfl
          · obtain rfl := checkInterrupt_state polled
            dsimp only
            rw [get_bind, still]

namespace Session

theorem start_promises (options : Options) : (start options).store.promises = #[] := rfl

theorem start_traced (options : Options) : (start options).store.Traced := by
  intro id waiting
  have inside := Store.waiting_inside waiting
  rw [start_promises] at inside
  exact absurd inside (Nat.not_lt_zero _)

/-- In a session a host can bring about, promises that wait for a value are traced, no promise is under
evaluation, and the fulfilments counted are the promises that got a value by being forced. -/
theorem Reachable.promises {s : Session} (reachable : s.Reachable) :
    s.store.Traced ∧ (∀ id env, (s.store.promise id).state ≠ .underEvaluation env) ∧
      s.stats.promisesForced = s.store.forcedPromises := by
  obtain ⟨options, run⟩ := reachable
  have kept : Disciplined (start options).ledger s.ledger := keeps_hostRun run
  obtain ⟨traced, counted⟩ := kept.counted (start_traced options)
  refine ⟨traced, fun id env state => ?_, ?_⟩
  · have running : ((start options).store.promise id).state = .underEvaluation env :=
      (kept.running id env).mp state
    have inside : id.index < (start options).store.promises.size :=
      Store.waiting_inside (by rw [running]; rfl)
    rw [start_promises] at inside
    exact absurd inside (Nat.not_lt_zero _)
  · have none : (start options).store.forcedPromises = 0 := by
      unfold Store.forcedPromises
      rw [start_promises]
      rfl
    change s.stats.promisesForced + (start options).store.forcedPromises =
      0 + s.store.forcedPromises at counted
    omega

/-- What an evaluation that leads from one session to another keeps of promises. Their cells go through
operations that fulfil no promise twice and leave a value exactly in the promises that are evaluated, and an
environment in the others; every fulfilment is counted. -/
structure KeepsPromises (s t : Session) : Prop where
  running : ∀ id env, (t.store.promise id).state = .underEvaluation env ↔
    (s.store.promise id).state = .underEvaluation env
  evaluated : ∀ id v, id.index < s.store.promises.size →
    (s.store.promise id).state = .evaluated v → (t.store.promise id).state = .evaluated v
  course : ∃ ops, Lives ops s.store.cells t.store.cells ∧
    t.stats.promisesForced = s.stats.promisesForced + ops.countP CellOp.fulfils
  counted : s.store.Traced → t.store.Traced ∧
    t.stats.promisesForced + s.store.forcedPromises = s.stats.promisesForced + t.store.forcedPromises

/-- From any session, within an evaluation or between two, whatever is evaluated, wherever, under whatever
record, to whatever depth and with whatever outcome, keeps the promises. Between evaluations no promise is
under evaluation, and the fulfilments counted are the promises that got a value by being forced. -/
theorem evaluation_keeps_promises (s : Session) :
    (∀ depth e env caller, KeepsPromises s (eval depth e env caller s).2) ∧
      (s.Reachable → (∀ id env, (s.store.promise id).state ≠ .underEvaluation env) ∧
        s.store.Traced ∧ s.stats.promisesForced = s.store.forcedPromises) := by
  constructor
  · intro depth e env caller
    have kept : Disciplined s.ledger (eval depth e env caller s).2.ledger :=
      keeps_eval depth e env caller s
    obtain ⟨n, course, count⟩ := kept.course
    obtain ⟨ops, lives, fulfilled⟩ := course.lives s.store.coherent_cells
    exact {
      running := kept.running
      evaluated := kept.evaluated
      course := ⟨ops, lives, fulfilled ▸ count⟩
      counted := kept.counted }
  · intro reachable
    obtain ⟨traced, idle, counted⟩ := reachable.promises
    exact ⟨idle, traced, counted⟩

/-- A promise that a host made is fulfilled when the variable it is bound to is read. -/
theorem reading_keeps_host_promise :
    let made := (makePromise (.constant ⟨0⟩ .null) global (start {})).2
    let bound := (defineIn global "x" (.promise ⟨0⟩) made).2
    let read := (eval 3 (.symbol ⟨1⟩ "x") global ⟨0⟩ bound).2
    bound.Reachable ∧ read.stats.promisesForced = bound.stats.promisesForced + 1 ∧
      KeepsPromises bound read ∧ bound.stats.promisesForced = bound.store.forcedPromises := by
  intro made bound read
  have reachable : bound.Reachable :=
    ⟨{}, .tail (.single (.makePromise _ _ _)) (.defineIn _ _ _ _)⟩
  obtain ⟨keeps, between⟩ := evaluation_keeps_promises bound
  exact ⟨reachable, by decide +kernel, keeps 3 _ _ _, (between reachable).2.2⟩

end Session
end CallByNeed
