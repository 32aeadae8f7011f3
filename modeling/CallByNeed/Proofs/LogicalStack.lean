import Mathlib.Data.List.Nodup
import Mathlib.Logic.Relation
import CallByNeed.Proofs.Running

/-!
The logical call stack. A record is made under a parent that is alive, and the forcing of a promise refers besides
to the record the promise was made under, which may be gone by then or go later. Both are older than the record,
so a walk down the logical stack passes older and older records until it comes to a function or to top level, and
the bound on its length plays no part. When records are dropped the walk goes on from the forcing of a promise to
the parent where it went on to the record that is gone; nothing else about it changes.
-/
namespace CallByNeed

/-- The same record, perhaps with another flag. -/
def Record.Alike (r q : Record) : Prop := q.id = r.id ∧ q.parent = r.parent ∧ q.kind = r.kind

namespace Records

/-- What becomes of call records: one is made at top level or under one that is alive, one is flagged, and those
that nothing holds are dropped, many at once or one by one. -/
inductive Step (rs : Records) : Records → Prop
  | topLevel : Step rs (rs.push none none .topLevel).2
  | nested {parent : RecordId} (alive : rs.contains parent) (call : Option Expr) {kind : RecordKind}
    (inner : kind ≠ .topLevel) (made : ∀ q, kind = .promise (some q) → q.index < rs.next) :
    Step rs (rs.push (some parent) call kind).2
  | flags (id : RecordId) (flag : Bool) : Step rs (rs.setEagerOnly id flag)
  | retains (held : List RecordId) : Step rs (rs.retain held)
  | releases {id : RecordId} (unheld : ∀ r ∈ rs.live, r.parent ≠ some id) : Step rs (rs.release id)

/-- Any number of them. -/
abbrev Steps : Records → Records → Prop := Relation.ReflTransGen Step

/-- The records alive are numbered in order of creation, all refer to older ones, and the parents are alive. -/
structure Ordered (rs : Records) : Prop where
  younger : rs.live.Pairwise fun r q => q.id.index < r.id.index
  issued : ∀ r ∈ rs.live, r.id.index < rs.next
  parents : ∀ r ∈ rs.live, ∀ p, r.parent = some p → p.index < r.id.index ∧ ∃ q ∈ rs.live, q.id = p
  outermost : ∀ r ∈ rs.live, r.parent = none ↔ r.kind = .topLevel
  targets : ∀ r ∈ rs.live, ∀ q, r.kind = .promise (some q) → q.index < r.id.index

variable {rs later : Records} {r q old : Record} {id p : RecordId} {steps : Nat}

theorem contains_iff_exists : rs.contains id ↔ ∃ r ∈ rs.live, r.id = id := by
  simp [Records.contains, Records.get?, List.find?_isSome]

/-! What records that are in order stay. -/

theorem ordered_none : Ordered {} where
  younger := .nil
  issued _ member := by cases member
  parents _ member := by cases member
  outermost _ member := by cases member
  targets _ member := by cases member

namespace Ordered

variable (ordered : rs.Ordered)
include ordered

theorem eq_of_id_eq (member : r ∈ rs.live) (other : q ∈ rs.live) (same : r.id = q.id) : r = q := by
  have distinct : (rs.live.map (·.id)).Nodup := by
    refine List.pairwise_map.mpr (ordered.younger.imp fun lt same => ?_)
    rw [same] at lt
    exact Nat.lt_irrefl _ lt
  exact List.inj_on_of_nodup_map distinct member other same

theorem get?_of_mem (member : r ∈ rs.live) : rs.get? r.id = some r := by
  have there : rs.contains r.id := contains_iff_exists.mpr ⟨r, member, rfl⟩
  obtain ⟨q, found⟩ := Option.isSome_iff_exists.mp there
  obtain ⟨other, same⟩ := mem_of_get? found
  rw [found, ordered.eq_of_id_eq other member same]

/-- A new record is the youngest. -/
theorem push {parent : Option RecordId} (call : Option Expr) {kind : RecordKind}
    (alive : ∀ p, parent = some p → rs.contains p) (outermost : parent = none ↔ kind = .topLevel)
    (made : ∀ q, kind = .promise (some q) → q.index < rs.next) : (rs.push parent call kind).2.Ordered where
  younger := .cons ordered.issued ordered.younger
  issued := List.forall_mem_cons.mpr
    ⟨Nat.lt_succ_self _, fun r member => Nat.lt_succ_of_lt (ordered.issued r member)⟩
  parents := by
    refine List.forall_mem_cons.mpr ⟨fun p same => ?_, fun r member p same => ?_⟩
    · obtain ⟨q, there, rfl⟩ := contains_iff_exists.mp (alive p same)
      exact ⟨ordered.issued q there, q, List.mem_cons_of_mem _ there, rfl⟩
    · obtain ⟨older, q, there, same⟩ := ordered.parents r member p same
      exact ⟨older, q, List.mem_cons_of_mem _ there, same⟩
  outermost := List.forall_mem_cons.mpr ⟨outermost, ordered.outermost⟩
  targets := List.forall_mem_cons.mpr ⟨made, ordered.targets⟩

theorem setEagerOnly (id : RecordId) (flag : Bool) : (rs.setEagerOnly id flag).Ordered := by
  have alike (r : Record) : r.Alike (if r.id = id then { r with eagerOnly := flag } else r) := by
    split <;> exact ⟨rfl, rfl, rfl⟩
  unfold Records.setEagerOnly
  constructor
  · refine List.pairwise_map.mpr (ordered.younger.imp fun {r q} lt => ?_)
    rwa [(alike r).1, (alike q).1]
  all_goals
    refine List.forall_mem_map.mpr fun r member => ?_
    obtain ⟨sameId, sameParent, sameKind⟩ := alike r
    simp only [sameId, sameParent, sameKind]
  · exact ordered.issued r member
  · intro p same
    obtain ⟨older, q, there, same⟩ := ordered.parents r member p same
    exact ⟨older, _, List.mem_map_of_mem there, (alike q).1.trans same⟩
  · exact ordered.outermost r member
  · exact ordered.targets r member

/-- Records are left that hold their parents. -/
theorem dropped {left : List Record} (part : left.Sublist rs.live)
    (closed : ∀ r ∈ left, ∀ q ∈ rs.live, r.parent = some q.id → q ∈ left) : Ordered ⟨left, rs.next⟩ where
  younger := ordered.younger.sublist part
  issued r member := ordered.issued r (part.mem member)
  parents r member p same := by
    obtain ⟨older, q, there, rfl⟩ := ordered.parents r (part.mem member) p same
    exact ⟨older, q, closed r member q there same, rfl⟩
  outermost r member := ordered.outermost r (part.mem member)
  targets r member := ordered.targets r (part.mem member)

/-- The parent of a record that is reached is reached as well: the number of steps suffices. -/
theorem parent_mem_ancestry (member : r ∈ rs.live) (parent : r.parent = some p) (room : id.index < steps)
    (reached : r.id ∈ rs.ancestryWithin steps id) : p ∈ rs.ancestryWithin steps id := by
  induction steps generalizing id with
  | zero => cases reached
  | succ steps ih =>
    rw [ancestryWithin] at reached ⊢
    rcases List.mem_cons.mp reached with here | further
    · obtain ⟨older, -⟩ := ordered.parents r member p parent
      obtain ⟨steps, rfl⟩ : ∃ k, steps = k + 1 := ⟨steps - 1, by rw [here] at older; omega⟩
      rw [← here, ordered.get?_of_mem member, Option.bind_some, parent]
      exact List.mem_cons_of_mem _ List.mem_cons_self
    · refine List.mem_cons_of_mem _ ?_
      cases above : (rs.get? id).bind (·.parent) with
      | none =>
        rw [above] at further
        cases further
      | some next =>
        rw [above] at further
        obtain ⟨s, found, parented⟩ := Option.bind_eq_some_iff.mp above
        obtain ⟨there, rfl⟩ := mem_of_get? found
        obtain ⟨older, -⟩ := ordered.parents s there next parented
        exact ih (by omega) further

theorem retain (held : List RecordId) : (rs.retain held).Ordered := by
  refine ordered.dropped List.filter_sublist fun r kept q there parent => ?_
  obtain ⟨member, reached⟩ := List.mem_filter.mp kept
  refine List.mem_filter.mpr ⟨there, ?_⟩
  rw [List.contains_iff_mem, List.mem_flatMap] at reached ⊢
  obtain ⟨id, holder, reached⟩ := reached
  exact ⟨id, holder, ordered.parent_mem_ancestry member parent (Nat.lt_succ_self _) reached⟩

theorem release (unheld : ∀ r ∈ rs.live, r.parent ≠ some id) : (rs.release id).Ordered := by
  have part : (rs.live.eraseP (·.id = id)).Sublist rs.live := List.eraseP_sublist
  refine ordered.dropped part fun r kept q there parent => ?_
  have other : q.id ≠ id := fun same => unheld r (part.mem kept) (same ▸ parent)
  exact (List.mem_eraseP_of_neg (by simpa using other)).mpr there

theorem step (step : rs.Step later) : later.Ordered := by
  cases step with
  | topLevel => exact ordered.push none (fun _ same => nomatch same) (by simp) (fun _ same => nomatch same)
  | nested alive call inner made =>
    exact ordered.push call (fun _ same => Option.some.inj same ▸ alive) (by simpa using inner) made
  | flags id flag => exact ordered.setEagerOnly id flag
  | retains held => exact ordered.retain held
  | releases unheld => exact ordered.release unheld

theorem run (run : rs.Steps later) : later.Ordered := by
  induction run with
  | refl => exact ordered
  | tail _ last ih => exact ih.step last

end Ordered

/-! What is left of records later. -/

/-- Numbers are given out once, and a record that is still there is the same. -/
structure Outlives (rs later : Records) : Prop where
  next : rs.next ≤ later.next
  kept : ∀ r ∈ later.live, r.id.index < rs.next → ∃ old ∈ rs.live, old.Alike r

theorem outlives_part {left : List Record} (part : left.Sublist rs.live) : rs.Outlives ⟨left, rs.next⟩ :=
  ⟨Nat.le_refl _, fun r member _ => ⟨r, part.mem member, rfl, rfl, rfl⟩⟩

theorem outlives_push (parent : Option RecordId) (call : Option Expr) (kind : RecordKind) :
    rs.Outlives (rs.push parent call kind).2 := by
  refine ⟨Nat.le_succ _, fun r member before => ?_⟩
  rcases List.mem_cons.mp member with rfl | there
  · exact absurd before (Nat.lt_irrefl _)
  · exact ⟨r, there, rfl, rfl, rfl⟩

theorem Step.outlives (step : rs.Step later) : rs.Outlives later := by
  cases step with
  | topLevel | nested => exact outlives_push _ _ _
  | flags id flag =>
    refine ⟨Nat.le_refl _, fun r member _ => ?_⟩
    obtain ⟨old, there, rfl⟩ := List.mem_map.mp member
    refine ⟨old, there, ?_⟩
    split <;> exact ⟨rfl, rfl, rfl⟩
  | retains held => exact outlives_part List.filter_sublist
  | releases => exact outlives_part List.eraseP_sublist

theorem Steps.outlives (run : rs.Steps later) : rs.Outlives later := by
  induction run with
  | refl => exact ⟨Nat.le_refl _, fun r member _ => ⟨r, member, rfl, rfl, rfl⟩⟩
  | tail _ last ih =>
    obtain ⟨next, kept⟩ := last.outlives
    refine ⟨Nat.le_trans ih.next next, fun r member before => ?_⟩
    obtain ⟨between, there, sameId, sameParent, sameKind⟩ := kept r member (Nat.lt_of_lt_of_le before ih.next)
    obtain ⟨old, first, id, parent, kind⟩ := ih.kept between there (sameId ▸ before)
    exact ⟨old, first, sameId.trans id, sameParent.trans parent, sameKind.trans kind⟩

/-! Walks. -/

theorem Ordered.logicalNext (ordered : rs.Ordered) (member : r ∈ rs.live) (next : rs.logicalNext r = some p) :
    p.index < r.id.index ∧ ∃ q ∈ rs.live, q.id = p := by
  unfold Records.logicalNext at next
  split at next
  · cases next
  · rename_i logical forcing
    cases target : (logical.bind rs.get?).map (·.id) with
    | none =>
      rw [target] at next
      exact ordered.parents r member p next
    | some q =>
      rw [target] at next
      cases next
      obtain ⟨found, there, same⟩ := Option.map_eq_some_iff.mp target
      obtain ⟨wanted, rfl, got⟩ := Option.bind_eq_some_iff.mp there
      obtain ⟨alive, rfl⟩ := mem_of_get? got
      subst same
      exact ⟨ordered.targets r member _ forcing, found, alive, rfl⟩
  · exact ordered.parents r member p next

/-- A walk down the logical stack from a record: the records it passes, and the function it comes to or none. -/
inductive Walk (rs : Records) : Record → List Record → Option Record → Prop
  | function {r : Record} (function : r.isFunction) : Walk rs r [r] (some r)
  | outermost {r : Record} (top : r.kind = .topLevel) : Walk rs r [r] none
  | onward {r q : Record} {path : List Record} {found : Option Record} (plain : r.isFunction = false)
    (next : rs.logicalNext r = some q.id) (alive : q ∈ rs.live) (rest : Walk rs q path found) :
    Walk rs r (r :: path) found

theorem Ordered.exists_walk (ordered : rs.Ordered) (member : r ∈ rs.live) :
    ∃ path found, rs.Walk r path found := by
  induction age : r.id.index using Nat.strongRecOn generalizing r with
  | ind n ih =>
    cases function : r.isFunction with
    | true => exact ⟨[r], some r, .function function⟩
    | false =>
      cases next : rs.logicalNext r with
      | none =>
        have parent : r.parent = none := by
          unfold Records.logicalNext at next
          split at next
          · exact (ordered.outermost r member).mpr ‹_›
          · exact (Option.or_eq_none_iff.mp next).2
          · exact next
        exact ⟨[r], none, .outermost ((ordered.outermost r member).mp parent)⟩
      | some p =>
        obtain ⟨older, q, there, rfl⟩ := ordered.logicalNext member next
        obtain ⟨path, found, walk⟩ := ih q.id.index (age ▸ older) there rfl
        exact ⟨r :: path, found, .onward function next there walk⟩

namespace Walk

variable {path : List Record} {found : Option Record}

/-- The search for a function takes the walk, given as many steps as records were made. -/
theorem search (walk : rs.Walk r path found) (ordered : rs.Ordered) (member : r ∈ rs.live)
    (room : r.id.index < steps) : rs.functionWithin steps r.id = found := by
  induction walk generalizing steps with
  | function function =>
    obtain ⟨k, rfl⟩ := Nat.exists_eq_add_one_of_ne_zero (Nat.ne_zero_of_lt room)
    rw [functionWithin, ordered.get?_of_mem member, Option.bind_some, if_pos function]
  | outermost top =>
    obtain ⟨k, rfl⟩ := Nat.exists_eq_add_one_of_ne_zero (Nat.ne_zero_of_lt room)
    rw [functionWithin, ordered.get?_of_mem member, Option.bind_some, Record.isFunction, Record.env?,
      Records.logicalNext, top]
    rfl
  | onward plain next alive rest ih =>
    obtain ⟨k, rfl⟩ := Nat.exists_eq_add_one_of_ne_zero (Nat.ne_zero_of_lt room)
    obtain ⟨older, -⟩ := ordered.logicalNext member next
    rw [functionWithin, ordered.get?_of_mem member, Option.bind_some, plain, next]
    exact ih alive (by omega)

theorem le (walk : rs.Walk r path found) (ordered : rs.Ordered) (member : r ∈ rs.live) :
    ∀ q ∈ path, q.id.index ≤ r.id.index := by
  induction walk with
  | function | outermost => simp
  | onward plain next alive rest ih =>
    obtain ⟨older, -⟩ := ordered.logicalNext member next
    exact List.forall_mem_cons.mpr
      ⟨Nat.le_refl _, fun q there => Nat.le_of_lt (Nat.lt_of_le_of_lt (ih alive q there) older)⟩

/-- Each record of a walk was made before the one it is reached from. -/
theorem descends (walk : rs.Walk r path found) (ordered : rs.Ordered) (member : r ∈ rs.live) :
    path.Pairwise fun p q => q.id.index < p.id.index := by
  induction walk with
  | function | outermost => exact List.pairwise_singleton _ _
  | onward plain next alive rest ih =>
    obtain ⟨older, -⟩ := ordered.logicalNext member next
    exact .cons (fun q there => Nat.lt_of_le_of_lt (rest.le ordered alive q there) older) (ih alive)

/-- A walk ends at a function, which it finds, or at top level. -/
theorem ends (walk : rs.Walk r path found) : ∃ last, path.getLast? = some last ∧
    (found = some last ∧ last.isFunction ∨ found = none ∧ last.kind = .topLevel) := by
  induction walk with
  | function function => exact ⟨_, rfl, .inl ⟨rfl, function⟩⟩
  | outermost top => exact ⟨_, rfl, .inr ⟨rfl, top⟩⟩
  | onward plain next alive rest ih =>
    obtain ⟨last, ends, outcome⟩ := ih
    refine ⟨last, ?_, outcome⟩
    rw [List.getLast?_cons, ends]
    rfl

end Walk

/-! Walks later on. -/

/-- Later a record leads on to where it led before, or else to its parent, from the forcing of a promise that was
made under a record which is gone. -/
theorem Ordered.logicalNext_later (ordered : rs.Ordered) (outlives : rs.Outlives later) (member : old ∈ rs.live)
    (alike : old.Alike r) : later.logicalNext r = rs.logicalNext old ∨
      ∃ q, r.kind = .promise (some q) ∧ rs.logicalNext old = some q ∧ ¬later.contains q ∧
        later.logicalNext r = r.parent := by
  obtain ⟨-, parent, kind⟩ := alike
  unfold Records.logicalNext
  rw [← kind, parent]
  cases same : r.kind with
  | topLevel | function | builtin => exact .inl rfl
  | promise logical =>
    cases logical with
    | none => exact .inl rfl
    | some q =>
      have before : rs.get? q = none ∨ ∃ s, rs.get? q = some s ∧ s.id = q := by
        cases found : rs.get? q with
        | none => exact .inl rfl
        | some s => exact .inr ⟨s, rfl, (mem_of_get? found).2⟩
      cases after : later.get? q with
      | none =>
        rcases before with gone | ⟨s, found, rfl⟩
        · exact .inl (by simp [after, gone])
        · exact .inr ⟨s.id, rfl, by simp [found], by simp [Records.contains, after], by simp [after]⟩
      | some s =>
        obtain ⟨there, rfl⟩ := mem_of_get? after
        have older := ordered.targets old member s.id (kind ▸ same)
        have issued := Nat.lt_trans older (ordered.issued old member)
        obtain ⟨first, alive, sameId, -⟩ := outlives.kept s there issued
        have got : rs.get? s.id = some first := by rw [sameId, ordered.get?_of_mem alive]
        exact .inl (by simp [after, got, ← sameId])

/-- A walk is the same later if no record is gone that a promise on the way was made under. -/
theorem Walk.lasts {path : List Record} {found : Option Record} (walk : rs.Walk old path found)
    (ordered : rs.Ordered) (after : later.Ordered) (outlives : rs.Outlives later) (member : old ∈ rs.live)
    (lasting : ∀ p ∈ path, ∀ q, p.kind = .promise (some q) → rs.contains q → later.contains q)
    (there : r ∈ later.live) (alike : old.Alike r) :
    ∃ path' found', later.Walk r path' found' ∧ found'.map (·.id) = found.map (·.id) := by
  induction walk generalizing r with
  | function function =>
    obtain ⟨sameId, -, kind⟩ := alike
    refine ⟨[r], some r, .function ?_, by simp [sameId]⟩
    rwa [Record.isFunction, Record.env?, kind]
  | outermost top => exact ⟨[r], none, .outermost (alike.2.2.trans top), rfl⟩
  | @onward old q path found plain next alive rest ih =>
    have onwards : later.logicalNext r = some q.id := by
      rcases ordered.logicalNext_later outlives member alike with same | ⟨p, forcing, led, gone, -⟩
      · exact same.trans next
      · cases led.symm.trans next
        exact absurd (lasting old List.mem_cons_self q.id (alike.2.2 ▸ forcing)
          (contains_iff_exists.mpr ⟨q, alive, rfl⟩)) gone
    obtain ⟨-, s, there', same⟩ := after.logicalNext there onwards
    obtain ⟨first, before, alike'⟩ := outlives.kept s there' (same ▸ ordered.issued q alive)
    obtain rfl : first = q := ordered.eq_of_id_eq before alive (alike'.1.symm.trans same)
    obtain ⟨path', found', further, outcome⟩ :=
      ih alive (fun p member => lasting p (List.mem_cons_of_mem _ member)) there' alike'
    refine ⟨r :: path', found', .onward ?_ (same ▸ onwards) there' further, outcome⟩
    rwa [Record.isFunction, Record.env?, alike.2.2]

/-- The logical stack is well-founded. However call records were made and dropped, from each that is alive a walk
down the logical stack passes records that were made one before the other, and ends at a function or at top
level; that is what the search for the function returns, with any number of steps from its bound on. The search
for the function that a record was called from is that walk from its parent. And whatever is made and dropped
later, a record that is still there leads on to where it led before, or to its parent if it led to a record that
is gone, and the search comes to the same function if none of those it was led to is. -/
theorem logical_stack_well_founded (rs : Records) (built : Steps {} rs) (r : Record) (alive : r ∈ rs.live) :
    ∃ path, rs.Walk r path (rs.logicalFunction r.id) ∧
      path.Pairwise (fun p q => q.id.index < p.id.index) ∧
      (∃ last, path.getLast? = some last ∧ (rs.logicalFunction r.id = some last ∧ last.isFunction ∨
        rs.logicalFunction r.id = none ∧ last.kind = .topLevel)) ∧
      (∀ steps, r.id.index < steps → rs.functionWithin steps r.id = rs.logicalFunction r.id) ∧
      (r.parent = none ∧ rs.logicalParent r.id = none ∨
        ∃ q ∈ rs.live, r.parent = some q.id ∧ q.id.index < r.id.index ∧
          rs.logicalParent r.id = rs.logicalFunction q.id) ∧
      ∀ later, rs.Steps later → ∀ s ∈ later.live, s.id = r.id →
        (later.logicalNext s = rs.logicalNext r ∨
          ∃ q, r.kind = .promise (some q) ∧ rs.logicalNext r = some q ∧ ¬later.contains q ∧
            later.logicalNext s = r.parent) ∧
        ((∀ p ∈ path, ∀ q, p.kind = .promise (some q) → rs.contains q → later.contains q) →
          (later.logicalFunction s.id).map (·.id) = (rs.logicalFunction r.id).map (·.id)) := by
  have ordered := ordered_none.run built
  obtain ⟨path, found, walk⟩ := ordered.exists_walk alive
  obtain rfl : rs.logicalFunction r.id = found := walk.search ordered alive (Nat.lt_succ_self _)
  refine ⟨path, walk, walk.descends ordered alive, walk.ends, fun _ => walk.search ordered alive, ?_,
    fun later run s there same => ?_⟩
  · cases parent : r.parent with
    | none => exact .inl ⟨rfl, by rw [logicalParent, ordered.get?_of_mem alive, Option.bind_some, parent]; rfl⟩
    | some p =>
      obtain ⟨older, q, above, rfl⟩ := ordered.parents r alive p parent
      refine .inr ⟨q, above, rfl, older, ?_⟩
      rw [logicalParent, ordered.get?_of_mem alive, Option.bind_some, parent]
      rfl
  · have outlives := Steps.outlives run
    have after := ordered.run run
    obtain ⟨first, before, alike⟩ := outlives.kept s there (same ▸ ordered.issued r alive)
    obtain rfl : first = r := ordered.eq_of_id_eq before alive (alike.1.symm.trans same)
    constructor
    · rw [← alike.2.1, ← alike.2.2]
      exact ordered.logicalNext_later outlives alive alike
    · intro lasting
      obtain ⟨path', found', again, outcome⟩ := walk.lasts ordered after outlives alive lasting there alike
      rwa [← again.search after there (Nat.lt_succ_self _)] at outcome

/-- A promise made in a builtin that a function called is forced at top level: the search comes to the function,
and to top level once the builtin and the function are gone. -/
theorem logical_stack_well_founded_forced :
    let f : RecordKind := .function ⟨0, 0⟩ .null {} none
    let top := (Records.push none none .topLevel {}).2
    let called := (Records.push (some ⟨1⟩) none (.builtin "c") (top.push (some ⟨0⟩) none f).2).2
    let forced := (called.push (some ⟨0⟩) none (.promise (some ⟨2⟩))).2
    let left := forced.retain [⟨3⟩]
    ∃ r ∈ forced.live, r.id = ⟨3⟩ ∧ Steps {} forced ∧ Steps forced left ∧
      forced.logicalNext r = some ⟨2⟩ ∧ (forced.logicalFunction r.id).map (·.id) = some ⟨1⟩ ∧
      ∃ s ∈ left.live, s.id = r.id ∧ left.logicalNext s = r.parent ∧ left.logicalFunction s.id = none := by
  intro f top called forced left
  have first : Step {} top := .topLevel
  have second : top.Step (top.push (some ⟨0⟩) none f).2 := .nested rfl none (by simp [f]) (by simp [f])
  have third : (top.push (some ⟨0⟩) none f).2.Step called := .nested rfl none (by simp) (by simp)
  have fourth : called.Step forced := .nested rfl none (by simp) fun q same => by cases same; decide
  have built : Steps {} forced := (((Relation.ReflTransGen.single first).tail second).tail third).tail fourth
  have alive : (⟨⟨3⟩, some ⟨0⟩, none, 1, .promise (some ⟨2⟩), false⟩ : Record) ∈ forced.live := List.mem_cons_self
  have dropped : Steps forced left := .single (.retains _)
  obtain ⟨path, -, -, -, -, -, later⟩ := logical_stack_well_founded forced built _ alive
  have there : (⟨⟨3⟩, some ⟨0⟩, none, 1, .promise (some ⟨2⟩), false⟩ : Record) ∈ left.live := List.mem_cons_self
  obtain ⟨led, -⟩ := later left dropped _ there rfl
  refine ⟨_, alive, rfl, built, dropped, rfl, rfl, _, there, rfl, ?_, rfl⟩
  rcases led with same | ⟨q, -, -, -, up⟩
  · cases same
  · exact up

end Records
end CallByNeed
