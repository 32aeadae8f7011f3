import CallByNeed.Store.Write
import CallByNeed.Proofs.Inheritance

/-!
The two tiers of a method cache. The identity tier repeats an entry of the tier keyed by names, and an entry
about vectors that have been edited since does not fit them any more. So whatever is looked up, inserted and
edited in whatever order, a cache answers as one map from names to the methods inserted last, and without its
identity tier it would answer the same.
-/
namespace CallByNeed
namespace DispatchCache

variable {c : DispatchCache} {generic : Name} {classes : List ClassView} {stamp : Stamp} {m : CachedMethod}

/-! One operation. -/

/-- What the identity tier holds, the other tier holds under the same names. -/
def Backed (c : DispatchCache) : Prop :=
  ∀ entry, c.last = some entry →
    c.byNames.get? (entry.generic, entry.names) = some (entry.stamp, entry.method)

theorem backed_new : ({} : DispatchCache).Backed := by
  intro entry held
  cases held

theorem named?_eq_some_iff : c.named? generic classes stamp = some m ↔
    c.byNames.get? (key generic classes) = some (stamp, m) := by
  unfold named?
  cases c.byNames.get? (key generic classes) with
  | none => simp
  | some found =>
    obtain ⟨held, method⟩ := found
    by_cases same : held = stamp <;> simp [Option.filter, same]

theorem backed_remember (named : c.byNames.get? (key generic classes) = some (stamp, m)) :
    (c.remember generic classes stamp m).Backed := by
  intro entry held
  cases held
  exact named

theorem backed_insert (c : DispatchCache) (generic : Name) (classes : List ClassView) (stamp : Stamp)
    (m : CachedMethod) : (c.insert generic classes stamp m).Backed := by
  intro entry held
  cases held
  change (c.byNames.insert (key generic classes) (stamp, m)).get? (key generic classes) = _
  rw [Table.get?_insert, if_pos rfl]

/-- A lookup hits the identity tier, hits the other one and is remembered, or misses, and in each case answers
what the tier keyed by names holds with this stamp. -/
theorem Backed.lookup_cases (backed : c.Backed) (generic : Name) (classes : List ClassView) (stamp : Stamp) :
    (∃ m, c.named? generic classes stamp = some m ∧
      c.lookup generic classes stamp = (some m, { c with identityHits := c.identityHits + 1 })) ∨
    (∃ m, c.named? generic classes stamp = some m ∧ c.lookup generic classes stamp =
      (some m, { c with nameHits := c.nameHits + 1 }.remember generic classes stamp m)) ∨
    (c.named? generic classes stamp = none ∧
      c.lookup generic classes stamp = (none, { c with misses := c.misses + 1 })) := by
  unfold lookup
  cases seen : c.last.filter (IdentityEntry.fits · generic classes stamp) with
  | some entry =>
    left
    obtain ⟨held, fits⟩ := Option.filter_eq_some_iff.mp seen
    obtain ⟨rfl, names, rfl⟩ := nameLists_of_fits fits
    have named := backed entry held
    rw [names] at named
    exact ⟨entry.method, named?_eq_some_iff.mpr named, rfl⟩
  | none =>
    right
    cases named : c.named? generic classes stamp with
    | some m => exact .inl ⟨m, rfl, rfl⟩
    | none => exact .inr ⟨rfl, rfl⟩

theorem Backed.answer (backed : c.Backed) (generic : Name) (classes : List ClassView) (stamp : Stamp) :
    (c.lookup generic classes stamp).1 = c.named? generic classes stamp := by
  rcases backed.lookup_cases generic classes stamp with ⟨m, named, run⟩ | ⟨m, named, run⟩ | ⟨named, run⟩ <;>
    rw [run, named]

theorem Backed.lookup (backed : c.Backed) (generic : Name) (classes : List ClassView) (stamp : Stamp) :
    (c.lookup generic classes stamp).2.Backed := by
  rcases backed.lookup_cases generic classes stamp with ⟨m, -, run⟩ | ⟨m, named, run⟩ | ⟨-, run⟩
  · rw [run]
    exact backed
  · rw [run]
    exact backed_remember (c := { c with nameHits := c.nameHits + 1 }) (named?_eq_some_iff.mp named)
  · rw [run]
    exact backed

theorem lookup_byNames (c : DispatchCache) (generic : Name) (classes : List ClassView) (stamp : Stamp) :
    (c.lookup generic classes stamp).2.byNames = c.byNames := by
  unfold lookup
  split
  · rfl
  · split <;> rfl

/-- A lookup that answers counts a hit on one of the tiers, and one that does not a miss. -/
theorem lookup_counts (c : DispatchCache) (generic : Name) (classes : List ClassView) (stamp : Stamp) :
    let run := c.lookup generic classes stamp
    run.2.identityHits + run.2.nameHits = c.identityHits + c.nameHits + run.1.isSome.toNat ∧
      run.2.misses = c.misses + run.1.isNone.toNat := by
  intro run
  have tiers : run = c.lookup generic classes stamp := rfl
  unfold lookup at tiers
  split at tiers
  · rw [tiers]
    exact ⟨Nat.add_right_comm _ _ _, rfl⟩
  · split at tiers
    · rw [tiers]
      exact ⟨rfl, rfl⟩
    · rw [tiers]
      exact ⟨rfl, rfl⟩

/-- Exactly one of the counters grows, by one. -/
def CountsOne (c after : DispatchCache) : Prop :=
  let counters := (after.identityHits, after.nameHits, after.misses)
  counters = (c.identityHits + 1, c.nameHits, c.misses) ∨
    counters = (c.identityHits, c.nameHits + 1, c.misses) ∨
    counters = (c.identityHits, c.nameHits, c.misses + 1)

theorem countsOne_lookup (c : DispatchCache) (generic : Name) (classes : List ClassView) (stamp : Stamp) :
    c.CountsOne (c.lookup generic classes stamp).2 := by
  unfold lookup
  split
  · exact .inl rfl
  · split
    · exact .inr (.inl rfl)
    · exact .inr (.inr rfl)

/-- The cache with its identity tier emptied. -/
def nameTier (c : DispatchCache) : DispatchCache := { c with last := none }

theorem backed_nameTier (c : DispatchCache) : c.nameTier.Backed := by
  intro entry held
  cases held

theorem nameTier_lookup_identityHits (c : DispatchCache) (generic : Name) (classes : List ClassView)
    (stamp : Stamp) : (c.nameTier.lookup generic classes stamp).2.identityHits = c.identityHits := by
  unfold lookup
  split
  · rename_i entry held
    obtain ⟨none, -⟩ := Option.filter_eq_some_iff.mp held
    cases none
  · split <;> rfl

/-! Histories. -/

/-- What is done with a cache, and meanwhile to the objects that are class vectors. -/
inductive Step
  | insert (generic : Name) (classes : List VectorId) (stamp : Stamp) (method : CachedMethod)
  | lookup (generic : Name) (classes : List VectorId) (stamp : Stamp)
  | edit (work : StoreM Unit)

/-- A cache in use, beside one whose identity tier is emptied before every lookup. -/
structure Use where
  store : Store
  cache : DispatchCache := {}
  plain : DispatchCache := {}
  /-- What was inserted under the names of the time, the last first. -/
  inserted : List (ClassKey × Stamp × CachedMethod) := []
  /-- What the lookups answered in the one cache and in the other, the last first. -/
  answers : List (Option CachedMethod × Option CachedMethod) := []

namespace Use

/-- The class vectors as a lookup sees them now. -/
def views (u : Use) (classes : List VectorId) : List ClassView :=
  classes.map fun id => ⟨id, (u.store.elements id).strings?⟩

/-- The key of a generic and the names the class vectors hold now. -/
def key (u : Use) (generic : Name) (classes : List VectorId) : ClassKey :=
  DispatchCache.key generic (u.views classes)

def step (u : Use) : Step → Use
  | .insert generic classes stamp m =>
    { u with
      cache := u.cache.insert generic (u.views classes) stamp m
      plain := u.plain.insert generic (u.views classes) stamp m
      inserted := (u.key generic classes, stamp, m) :: u.inserted }
  | .lookup generic classes stamp =>
    let (found, cache) := u.cache.lookup generic (u.views classes) stamp
    let (expected, plain) := u.plain.nameTier.lookup generic (u.views classes) stamp
    { u with cache, plain, answers := (found, expected) :: u.answers }
  | .edit work => { u with store := (work u.store).2 }

/-- The most recent insert under a key was this one. -/
def Latest (u : Use) (key : ClassKey) (stamp : Stamp) (m : CachedMethod) : Prop :=
  ∃ newer older, u.inserted = newer ++ (key, stamp, m) :: older ∧ ∀ e ∈ newer, e.1 ≠ key

/-- The caches agree with each other and with what was inserted. -/
structure Agrees (u : Use) : Prop where
  backed : u.cache.Backed
  byNames : u.plain.byNames = u.cache.byNames
  latest : ∀ k stamp m, u.cache.byNames.get? k = some (stamp, m) ↔ u.Latest k stamp m
  hits : u.plain.nameHits = u.cache.identityHits + u.cache.nameHits
  unused : u.plain.identityHits = 0
  misses : u.plain.misses = u.cache.misses
  answers : ∀ a ∈ u.answers, a.1 = a.2
  counted : u.cache.identityHits + u.cache.nameHits + u.cache.misses = u.answers.length

variable {u : Use}

theorem latest_iff {k : ClassKey} {stamp : Stamp} {m : CachedMethod} : u.Latest k stamp m ↔
    u.inserted.find? (·.1 = k) = some (k, stamp, m) := by
  rw [List.find?_eq_some_iff_append, Latest]
  simp

theorem agrees_new (store : Store) : Agrees { store } where
  backed := backed_new
  byNames := rfl
  latest k stamp m := by
    rw [latest_iff]
    constructor <;> exact nofun
  hits := rfl
  unused := rfl
  misses := rfl
  answers a member := by cases member
  counted := rfl

theorem Agrees.insert (agrees : u.Agrees) (generic : Name) (classes : List VectorId) (stamp : Stamp)
    (m : CachedMethod) : (u.step (.insert generic classes stamp m)).Agrees where
  backed := backed_insert _ _ _ _ _
  byNames := congrArg (·.insert (u.key generic classes) (stamp, m)) agrees.byNames
  latest k stamp' m' := by
    have before := agrees.latest k stamp' m'
    rw [latest_iff] at before ⊢
    change (u.cache.byNames.insert (u.key generic classes) (stamp, m)).get? k = _ ↔
      ((u.key generic classes, stamp, m) :: u.inserted).find? (·.1 = k) = _
    rw [Table.get?_insert, List.find?_cons]
    by_cases same : u.key generic classes = k
    · simp [same]
    · simp [same, before]
  hits := agrees.hits
  unused := agrees.unused
  misses := agrees.misses
  answers := agrees.answers
  counted := agrees.counted

/-- Without its identity tier the cache holds the same under the same names. -/
theorem Agrees.answer_plain (agrees : u.Agrees) (generic : Name) (classes : List ClassView) (stamp : Stamp) :
    (u.plain.nameTier.lookup generic classes stamp).1 = (u.cache.lookup generic classes stamp).1 := by
  rw [agrees.backed.answer, (backed_nameTier u.plain).answer]
  unfold named?
  rw [← agrees.byNames]
  rfl

theorem Agrees.lookup (agrees : u.Agrees) (generic : Name) (classes : List VectorId) (stamp : Stamp) :
    (u.step (.lookup generic classes stamp)).Agrees := by
  let views := u.views classes
  have answer := agrees.answer_plain generic views stamp
  have unused := nameTier_lookup_identityHits u.plain generic views stamp
  obtain ⟨hits, misses⟩ := lookup_counts u.cache generic views stamp
  obtain ⟨hits', misses'⟩ := lookup_counts u.plain.nameTier generic views stamp
  have byNames := lookup_byNames u.cache generic views stamp
  have byNames' := lookup_byNames u.plain.nameTier generic views stamp
  have backed := agrees.backed.lookup generic views stamp
  have step : u.step (.lookup generic classes stamp) =
      { u with
        cache := (u.cache.lookup generic views stamp).2
        plain := (u.plain.nameTier.lookup generic views stamp).2
        answers := ((u.cache.lookup generic views stamp).1, (u.plain.nameTier.lookup generic views stamp).1) ::
          u.answers } := rfl
  rw [step, answer]
  rw [answer] at hits' misses'
  generalize u.cache.lookup generic views stamp = run at *
  generalize u.plain.nameTier.lookup generic views stamp = run' at *
  obtain ⟨found, cache⟩ := run
  obtain ⟨expected, plain⟩ := run'
  dsimp only at hits misses hits' misses' unused
  rw [unused] at hits'
  constructor
  case backed => exact backed
  case byNames => exact byNames'.trans (agrees.byNames.trans byNames.symm)
  case latest =>
    intro k at' m
    exact byNames ▸ agrees.latest k at' m
  case hits =>
    have before := agrees.hits
    dsimp only [nameTier] at hits' ⊢
    omega
  case unused => exact unused.trans agrees.unused
  case misses => exact misses'.trans (misses ▸ congrArg (· + _) agrees.misses)
  case answers => exact List.forall_mem_cons.mpr ⟨rfl, agrees.answers⟩
  case counted =>
    have before := agrees.counted
    have one : found.isSome.toNat + found.isNone.toNat = 1 := by cases found <;> rfl
    dsimp only [List.length_cons]
    omega

theorem Agrees.step (agrees : u.Agrees) (step : Step) : (u.step step).Agrees := by
  cases step with
  | insert generic classes stamp m => exact agrees.insert generic classes stamp m
  | lookup generic classes stamp => exact agrees.lookup generic classes stamp
  | edit work => exact { agrees with }

theorem Agrees.run (agrees : u.Agrees) (steps : List Step) : (steps.foldl Use.step u).Agrees := by
  induction steps generalizing u with
  | nil => exact agrees
  | cons step steps ih => exact ih (agrees.step step)

end Use

/-- The two tiers of a cache equal one map. Whatever was looked up, inserted and edited so far, a lookup answers
a method if and only if the most recent insert for that generic and for the names that the class vectors hold
now was made with the same stamp and with this method. The identity tier has not changed any answer, and does
not change this one, but only which of the two hit counters grows; each lookup makes exactly one of the three
counters grow. -/
theorem lookup_eq_latest_insert (store : Store) (steps : List Step) (generic : Name)
    (classes : List VectorId) (stamp : Stamp) :
    let u := steps.foldl Use.step { store }
    let run := u.cache.lookup generic (u.views classes) stamp
    (∀ m, run.1 = some m ↔ u.Latest (u.key generic classes) stamp m) ∧
      (u.plain.nameTier.lookup generic (u.views classes) stamp).1 = run.1 ∧
      (∀ a ∈ u.answers, a.1 = a.2) ∧
      u.plain.identityHits = 0 ∧ u.plain.nameHits = u.cache.identityHits + u.cache.nameHits ∧
      u.plain.misses = u.cache.misses ∧
      u.cache.CountsOne run.2 ∧
      u.cache.identityHits + u.cache.nameHits + u.cache.misses = u.answers.length := by
  intro u run
  have agrees : u.Agrees := (Use.agrees_new store).run steps
  refine ⟨?_, agrees.answer_plain _ _ _, agrees.answers, agrees.unused, agrees.hits, agrees.misses,
    countsOne_lookup _ _ _ _, agrees.counted⟩
  intro m
  calc run.1 = some m
      ↔ u.cache.named? generic (u.views classes) stamp = some m := by rw [agrees.backed.answer]
    _ ↔ u.cache.byNames.get? (u.key generic classes) = some (stamp, m) := named?_eq_some_iff
    _ ↔ u.Latest (u.key generic classes) stamp m := agrees.latest _ _ _

/-- A class vector edited in place does not hit the identity tier, nor any other until it is edited back. A
distinct vector with the same names hits the other tier. -/
example :
    let vector (name : String) : Container := ⟨.character [name], {}, .temporary⟩
    let store : Store := { vectors := #[vector "a", vector "z", vector "a"] }
    let rename (new : VectorId) : Step := .edit (Store.setElement ⟨0⟩ 0 (.vector new))
    let lookup (id : VectorId) : Step := .lookup "g" [id] ⟨1, []⟩
    let u := [.insert "g" [⟨0⟩] ⟨1, []⟩ ⟨.null, "g.a", 0, none, false⟩, lookup ⟨0⟩, rename ⟨1⟩, lookup ⟨0⟩,
      rename ⟨2⟩, lookup ⟨0⟩, lookup ⟨2⟩].foldl Use.step { store }
    u.answers.map (·.1.isSome) = [true, true, false, true] ∧
      (u.cache.identityHits, u.cache.nameHits, u.cache.misses) = (2, 1, 1) := by
  decide

end DispatchCache
end CallByNeed
