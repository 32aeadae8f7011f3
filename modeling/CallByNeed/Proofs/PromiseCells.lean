import CallByNeed.Proofs.Running
import CallByNeed.Store.PromiseCells

/-!
What becomes of the cells of promises, one operation after the other. A course is made of operations that go
through, and fulfils no promise that has its value already. Along it cells that go together stay together, an
evaluated promise keeps its cells, and no promise is fulfilled twice.
-/
namespace CallByNeed

/-- One operation on the promises of a store. -/
inductive CellOp where
  | defer (env : EnvId)
  | settle (v : Value)
  | begin (id : PromiseId)
  | fulfil (id : PromiseId) (v : Value)
  | reset (id : PromiseId)

namespace CellOp

/-- The cells of one promise changed. -/
def changed (id : PromiseId) (f : PromiseCells → Option PromiseCells) (cs : Array PromiseCells) :
    Option (Array PromiseCells) :=
  (cs[id.index]?.bind f).map (cs.setIfInBounds id.index)

/-- The cells after an operation, or none if there is no such promise or it may not begin. -/
def perform : CellOp → Array PromiseCells → Option (Array PromiseCells)
  | defer env, cs => some (cs.push (.deferred env))
  | settle v, cs => some (cs.push (.settled v))
  | begin id, cs => changed id (·.beginEvaluation.toOption) cs
  | fulfil id v, cs => changed id (some <| ·.fulfil v) cs
  | reset id, cs => changed id (some <| ·.reset) cs

/-- Whether an operation fulfils some promise. -/
def fulfils : CellOp → Bool
  | fulfil _ _ => true
  | _ => false

def fulfilsAt (id : PromiseId) : CellOp → Bool
  | fulfil other _ => other = id
  | _ => false

def performAll : List CellOp → Array PromiseCells → Option (Array PromiseCells)
  | [], cs => some cs
  | op :: rest, cs => (op.perform cs).bind (performAll rest)

end CellOp

/-- One for a promise that is there and has its value, else zero. -/
def valued (cs : Array PromiseCells) (id : PromiseId) : Nat := (cs[id.index]?.any (·.stage = .evaluated)).toNat

variable {cs ds es : Array PromiseCells} {id other : PromiseId} {op : CellOp} {ops rest : List CellOp}

theorem valued_le_one (cs : Array PromiseCells) (id : PromiseId) : valued cs id ≤ 1 := Bool.toNat_le _

theorem valued_of_get {c : PromiseCells} (found : cs[id.index]? = some c) :
    valued cs id = if c.stage = .evaluated then 1 else 0 := by
  unfold valued
  rw [found]
  by_cases done : c.stage = .evaluated <;> simp [done]

theorem valued_congr (same : ds[id.index]? = cs[id.index]?) : valued ds id = valued cs id := by
  unfold valued
  rw [same]

theorem valued_eq_one : valued cs id = 1 ↔ ∃ c, cs[id.index]? = some c ∧ c.stage = .evaluated := by
  unfold valued
  cases cs[id.index]? <;> simp

theorem getElem?_setIfInBounds_index {d : PromiseCells} {c : PromiseCells} (found : cs[id.index]? = some c) :
    (cs.setIfInBounds id.index d)[other.index]? = if other = id then some d else cs[other.index]? := by
  rw [Array.getElem?_setIfInBounds]
  have inside : id.index < cs.size := by
    obtain ⟨inside, -⟩ := Array.getElem?_eq_some_iff.mp found
    exact inside
  by_cases same : other = id
  · simp [same, inside]
  · have apart : id.index ≠ other.index := fun equal => same (by cases other; cases id; simp_all)
    simp [same, apart]

namespace CellOp

/-- A change of one promise finds its cells, and leaves those of the others. -/
theorem changed_eq_some {f : PromiseCells → Option PromiseCells} (run : changed id f cs = some ds) :
    ∃ c d, cs[id.index]? = some c ∧ f c = some d ∧
      ∀ other : PromiseId, ds[other.index]? = if other = id then some d else cs[other.index]? := by
  obtain ⟨d, found, rfl⟩ := Option.map_eq_some_iff.mp run
  obtain ⟨c, found, changed⟩ := Option.bind_eq_some_iff.mp found
  exact ⟨c, d, found, changed, fun other => getElem?_setIfInBounds_index found⟩

theorem coherent_changed {f : PromiseCells → Option PromiseCells} (run : changed id f cs = some ds)
    (kept : ∀ c d, f c = some d → c.Coherent → d.Coherent) (coherent : ∀ c ∈ cs, c.Coherent) :
    ∀ d ∈ ds, d.Coherent := by
  obtain ⟨new, found, rfl⟩ := Option.map_eq_some_iff.mp run
  obtain ⟨old, there, step⟩ := Option.bind_eq_some_iff.mp found
  intro d member
  rcases Array.mem_or_eq_of_mem_setIfInBounds member with before | rfl
  · exact coherent d before
  · exact kept old d step (coherent old (Array.mem_of_getElem? there))

theorem coherent_push {c : PromiseCells} (new : c.Coherent) (coherent : ∀ c ∈ cs, c.Coherent) :
    ∀ d ∈ cs.push c, d.Coherent := by
  intro d member
  rcases Array.mem_push.mp member with before | rfl
  · exact coherent d before
  · exact new

/-- An operation keeps cells together. -/
theorem coherent_perform (run : op.perform cs = some ds) (coherent : ∀ c ∈ cs, c.Coherent) :
    ∀ d ∈ ds, d.Coherent := by
  cases op with
  | defer env =>
    cases run
    exact coherent_push (PromiseCells.coherent_deferred env) coherent
  | settle v =>
    cases run
    exact coherent_push (PromiseCells.coherent_settled v) coherent
  | begin id =>
    refine coherent_changed run (fun c d begun together => ?_) coherent
    cases tried : c.beginEvaluation with
    | error f =>
      rw [tried] at begun
      cases begun
    | ok e =>
      rw [tried] at begun
      cases begun
      exact together.beginEvaluation tried
  | fulfil id v =>
    refine coherent_changed run (fun c d done _ => ?_) coherent
    cases done
    exact PromiseCells.coherent_fulfil v c
  | reset id =>
    refine coherent_changed run (fun c d done together => ?_) coherent
    cases done
    exact together.reset

theorem coherent_performAll (run : performAll ops cs = some ds) (coherent : ∀ c ∈ cs, c.Coherent) :
    ∀ d ∈ ds, d.Coherent := by
  induction ops generalizing cs with
  | nil =>
    cases run
    exact coherent
  | cons op rest ih =>
    obtain ⟨between, first, onward⟩ := Option.bind_eq_some_iff.mp run
    exact ih onward (coherent_perform first coherent)

/-- An evaluated promise keeps its cells as long as it is not fulfilled again. -/
theorem evaluated_perform {c : PromiseCells} (run : op.perform cs = some ds) (found : cs[id.index]? = some c)
    (done : c.stage = .evaluated) (once : op.fulfilsAt id = false) : ds[id.index]? = some c := by
  cases op with
  | defer env | settle v =>
    cases run
    obtain ⟨inside, -⟩ := Array.getElem?_eq_some_iff.mp found
    rw [Array.getElem?_push, if_neg (Nat.ne_of_lt inside)]
    exact found
  | begin other =>
    obtain ⟨old, new, there, begun, cells⟩ := changed_eq_some run
    rw [cells]
    split
    · rename_i same
      subst same
      cases there.symm.trans found
      simp [PromiseCells.beginEvaluation, done, Except.toOption] at begun
    · exact found
  | fulfil other v =>
    obtain ⟨old, new, -, -, cells⟩ := changed_eq_some run
    have apart : id ≠ other := fun same => by simp [fulfilsAt, same] at once
    rw [cells, if_neg apart]
    exact found
  | reset other =>
    obtain ⟨old, new, there, ended, cells⟩ := changed_eq_some run
    rw [cells]
    split
    · rename_i same
      subst same
      cases there.symm.trans found
      cases ended
      simp [PromiseCells.reset, done]
    · exact found

theorem evaluated_performAll {c : PromiseCells} (run : performAll ops cs = some ds)
    (found : cs[id.index]? = some c) (done : c.stage = .evaluated) (once : ops.countP (fulfilsAt id) = 0) :
    ds[id.index]? = some c := by
  induction ops generalizing cs with
  | nil =>
    cases run
    exact found
  | cons op rest ih =>
    obtain ⟨between, first, onward⟩ := Option.bind_eq_some_iff.mp run
    rw [List.countP_cons] at once
    have unfulfilled : op.fulfilsAt id = false := by
      cases holds : op.fulfilsAt id with
      | true => simp [holds] at once
      | false => rfl
    exact ih onward (evaluated_perform first found done unfulfilled) (by omega)

theorem size_changed {f : PromiseCells → Option PromiseCells} (run : changed id f cs = some ds) :
    ds.size = cs.size := by
  obtain ⟨d, -, rfl⟩ := Option.map_eq_some_iff.mp run
  exact Array.size_setIfInBounds

/-- No promise is lost. -/
theorem size_performAll (run : performAll ops cs = some ds) : cs.size ≤ ds.size := by
  induction ops generalizing cs with
  | nil =>
    cases run
    exact Nat.le_refl _
  | cons op rest ih =>
    obtain ⟨between, first, onward⟩ := Option.bind_eq_some_iff.mp run
    refine Nat.le_trans ?_ (ih onward)
    cases op with
    | defer | settle =>
      cases first
      exact Array.size_push _ ▸ Nat.le_succ _
    | begin | fulfil | reset => exact Nat.le_of_eq (size_changed first).symm

/-- A promise that has its value keeps it, and one that is fulfilled gets it. -/
theorem valued_perform (run : op.perform cs = some ds) (id : PromiseId)
    (fresh : op.fulfilsAt id = true → valued cs id = 0) :
    (op.fulfilsAt id).toNat + valued cs id ≤ valued ds id := by
  cases fulfilling : op.fulfilsAt id with
  | false =>
    refine Nat.le_trans (Nat.le_of_eq (Nat.zero_add _)) ?_
    rcases Nat.lt_or_ge 0 (valued cs id) with has | none
    · have one : valued cs id = 1 := Nat.le_antisymm (valued_le_one cs id) has
      obtain ⟨c, found, done⟩ := valued_eq_one.mp one
      rw [one]
      exact Nat.le_of_eq (valued_eq_one.mpr ⟨c, evaluated_perform run found done fulfilling, done⟩).symm
    · omega
  | true =>
    rw [fresh fulfilling]
    cases op with
    | fulfil other v =>
      obtain ⟨old, new, -, done, cells⟩ := changed_eq_some run
      obtain rfl : other = id := by simpa [fulfilsAt] using fulfilling
      cases done
      have found := cells other
      rw [if_pos rfl] at found
      exact Nat.le_of_eq (valued_eq_one.mpr ⟨_, found, rfl⟩).symm
    | defer | settle | begin | reset => cases fulfilling

theorem performAll_append (ops rest : List CellOp) (cs : Array PromiseCells) :
    performAll (ops ++ rest) cs = (performAll ops cs).bind (performAll rest) := by
  induction ops generalizing cs with
  | nil => rfl
  | cons op ops ih =>
    simp only [List.cons_append, performAll, Option.bind_assoc]
    exact congrArg _ (funext ih)

end CellOp

/-- What the promises of a run go through, one operation after the other. -/
structure Lives (ops : List CellOp) (cs ds : Array PromiseCells) : Prop where
  performed : CellOp.performAll ops cs = some ds
  once : ∀ id, ops.countP (CellOp.fulfilsAt id) ≤ 1
  coherent : ∀ before, before <+: ops →
    ∃ between, CellOp.performAll before cs = some between ∧ ∀ c ∈ between, c.Coherent

/-- Operations that go through, as many of them fulfilling a promise as are counted, and each of those a
promise that had no value and has one in the end. -/
def Course (cs ds : Array PromiseCells) (fulfilled : Nat) : Prop :=
  ∃ ops, CellOp.performAll ops cs = some ds ∧ ops.countP CellOp.fulfils = fulfilled ∧
    ∀ id, ops.countP (CellOp.fulfilsAt id) + valued cs id ≤ valued ds id

namespace Course

variable {n k : Nat}

theorem refl (cs : Array PromiseCells) : Course cs cs 0 := ⟨[], rfl, rfl, fun _ => by simp⟩

theorem trans (first : Course cs ds n) (second : Course ds es k) : Course cs es (n + k) := by
  obtain ⟨ops, run, count, once⟩ := first
  obtain ⟨rest, onward, count', once'⟩ := second
  refine ⟨ops ++ rest, ?_, ?_, fun id => ?_⟩
  · rw [CellOp.performAll_append, run]
    exact onward
  · rw [List.countP_append, count, count']
  · have before := once id
    have after := once' id
    rw [List.countP_append]
    omega

theorem single (run : op.perform cs = some ds) (fresh : ∀ id, op.fulfilsAt id = true → valued cs id = 0) :
    Course cs ds op.fulfils.toNat := by
  refine ⟨[op], ?_, ?_, fun id => ?_⟩
  · simp [CellOp.performAll, run]
  · cases op <;> rfl
  · have grown := CellOp.valued_perform run id (fresh id)
    cases holds : op.fulfilsAt id <;> simpa [holds] using grown

theorem evaluated (course : Course cs ds n) {c : PromiseCells} (found : cs[id.index]? = some c)
    (done : c.stage = .evaluated) : ds[id.index]? = some c := by
  obtain ⟨ops, run, -, once⟩ := course
  have bounded := once id
  rw [valued_eq_one.mpr ⟨c, found, done⟩] at bounded
  have most := valued_le_one ds id
  exact CellOp.evaluated_performAll run found done (by omega)

theorem grown (course : Course cs ds n) : cs.size ≤ ds.size := by
  obtain ⟨ops, run, -, -⟩ := course
  exact CellOp.size_performAll run

/-- On a course from cells that go together no promise is fulfilled twice, and the cells of every promise go
together after each operation. -/
theorem lives (course : Course cs ds n) (coherent : ∀ c ∈ cs, c.Coherent) :
    ∃ ops, Lives ops cs ds ∧ ops.countP CellOp.fulfils = n := by
  obtain ⟨ops, run, count, once⟩ := course
  refine ⟨ops, ⟨run, fun id => ?_, ?_⟩, count⟩
  · have bounded := once id
    have most := valued_le_one ds id
    omega
  · rintro before ⟨rest, rfl⟩
    rw [CellOp.performAll_append] at run
    obtain ⟨between, start, -⟩ := Option.bind_eq_some_iff.mp run
    exact ⟨between, start, CellOp.coherent_performAll start coherent⟩

end Course
end CallByNeed
