import CallByNeed.Proofs.Keeping
import CallByNeed.Proofs.Untouched

/-!
The places of a vector: what stands at each of them, and what writing to one comes to. A replacement of
an element first settles the place that is meant, which may append a name, and then writes there. When that
fails, what has been done is the name alone.
-/
namespace CallByNeed
namespace Elements

/-- The element at a place, as contents of its own. -/
def at? (xs : Elements) (k : Nat) : Option Elements :=
  match xs with
  | list vs => vs[k]?.map fun v => list [v]
  | xs => xs.singletons[k]?

theorem at?_isSome_iff (xs : Elements) (k : Nat) : (xs.at? k).isSome ↔ k < xs.length := by
  cases xs <;> simp [at?, singletons, length, Option.isSome_map]

/-- Conversion to another atomic type converts each element. -/
theorem at?_widen {xs : Elements} (atomic : xs.isList = false) {rank : Nat} (low : rank < listRank)
    (k : Nat) : (xs.widen rank).at? k = (xs.at? k).map (·.widen rank) := by
  have cases : rank = 0 ∨ rank = 1 ∨ rank = 2 ∨ rank = 3 := by
    unfold listRank at low
    omega
  rcases cases with rfl | rfl | rfl | rfl <;> cases xs <;>
    simp_all [widen, at?, singletons, Elements.rank, isList, texts, Function.comp_def]

theorem getElem?_write_of_ne {α : Type} (xs : List α) {i k : Nat} (x : α) (apart : k ≠ i) :
    (write xs i x)[k]? = xs[k]? := by
  unfold write
  split
  · rw [List.getElem?_append]
    split
    · rfl
    · rw [List.getElem?_eq_none (by simp; omega), List.getElem?_eq_none (by omega)]
  · exact List.getElem?_set_ne (Ne.symm apart)

theorem length_write {α : Type} (xs : List α) {i : Nat} (within : i ≤ xs.length) (x : α) :
    (write xs i x).length = max xs.length (i + 1) := by
  unfold write
  split
  · simp
    omega
  · simp
    omega

/-- A write changes no other place. -/
theorem at?_writeFirst {xs ys zs : Elements} {i k : Nat} (written : xs.writeFirst i ys = some zs)
    (apart : k ≠ i) : zs.at? k = xs.at? k := by
  unfold writeFirst at written
  split at written <;> cases written <;> simp [at?, singletons, getElem?_write_of_ne _ _ apart]

theorem isList_at? {xs e : Elements} {k : Nat} (there : xs.at? k = some e) : e.isList = xs.isList := by
  cases xs with
  | list vs =>
    obtain ⟨v, _, rfl⟩ := Option.map_eq_some_iff.mp there
    rfl
  | logical xs | integer xs | double xs | character xs =>
    obtain ⟨x, _, rfl⟩ := List.mem_map.mp (List.mem_of_getElem? there)
    rfl

theorem widen_of_isList {e : Elements} (list : e.isList = true) (rank : Nat) (bound : rank ≤ listRank) :
    e.widen rank = e := by
  unfold widen
  rw [(isList_iff_rank e).mp list, if_pos bound]

theorem length_writeFirst {xs ys zs : Elements} {i : Nat} (written : xs.writeFirst i ys = some zs)
    (within : i ≤ xs.length) : zs.length = max xs.length (i + 1) := by
  unfold writeFirst at written
  split at written <;> cases written <;> exact length_write _ within _

end Elements

namespace Store

open Elements Scope

theorem getElem?_writeChild (xs : List Value) (i k : Nat) (v : Value) (apart : v.isNull = false → k ≠ i) :
    (writeChild xs i v)[k]? = if v.isNull ∧ i ≤ k then xs[k + 1]? else xs[k]? := by
  unfold writeChild
  cases null : v.isNull with
  | false => simpa using getElem?_write_of_ne xs v (apart null)
  | true =>
    simp only [if_true, true_and]
    rw [List.getElem?_eraseIdx]
    split <;> split <;> first | rfl | omega

theorem length_writeChild (xs : List Value) {i : Nat} (within : i ≤ xs.length) (v : Value) :
    (writeChild xs i v).length =
      if v.isNull then (if i < xs.length then xs.length - 1 else xs.length)
      else max xs.length (i + 1) := by
  unfold writeChild
  cases v.isNull with
  | false => simpa using length_write xs within v
  | true => simp [List.length_eraseIdx]

/-! Fresh vectors for elements. -/

theorem mapM_vector (contents : List Elements) (s : Store) : contents.mapM vector s =
    ((List.range' s.vectors.size contents.length).map fun n => .vector ⟨n⟩,
      { s with vectors := s.vectors ++ (contents.map (Container.mk · {} .temporary)).toArray }) := by
  induction contents generalizing s with
  | nil => simp [pure, StateT.pure]
  | cons xs rest ih =>
    have made : vector xs s = (.vector ⟨s.vectors.size⟩,
      { s with vectors := s.vectors.push ⟨xs, {}, .temporary⟩ }) := rfl
    rw [List.mapM_cons]
    change (let first := vector xs s; let more := rest.mapM vector first.2; (first.1 :: more.1, more.2)) = _
    dsimp only
    rw [made, ih]
    simp [List.range'_succ]

/-- Atomic elements that go into a list become vectors, in places where there was none. -/
theorem coerce_list {xs : Elements} (atomic : xs.isList = false) {rank : Nat} (high : listRank ≤ rank)
    (s : Store) : ∃ fs, (coerce xs rank s).1 = .list fs ∧ fs.length = xs.length ∧
      ∀ k e, xs.at? k = some e → ∃ f, fs[k]? = some (.vector f) ∧ s.vectors.size ≤ f.index ∧
        f.index < (coerce xs rank s).2.vectors.size ∧
        (coerce xs rank s).2.container f = ⟨e, {}, .temporary⟩ := by
  have run : coerce xs rank s =
      (.list ((List.range' s.vectors.size xs.singletons.length).map fun n => .vector ⟨n⟩),
      { s with vectors := s.vectors ++ (xs.singletons.map (Container.mk · {} .temporary)).toArray }) := by
    have plain : coerce xs rank = .list <$> xs.singletons.mapM vector := by
      unfold coerce
      rw [if_neg (by simp [atomic]), if_neg (Nat.not_lt.mpr high)]
      cases xs with
      | list => cases atomic
      | _ => rfl
    rw [plain]
    change (Elements.list (xs.singletons.mapM vector s).1, (xs.singletons.mapM vector s).2) = _
    rw [mapM_vector]
  have single : ∀ k, xs.at? k = xs.singletons[k]? := by
    intro k
    cases xs with
    | list => cases atomic
    | _ => rfl
  have size : xs.singletons.length = xs.length := by
    cases xs with
    | list => cases atomic
    | _ => simp [singletons, Elements.length]
  rw [run]
  refine ⟨_, rfl, by simp [size], fun k e there => ?_⟩
  rw [single] at there
  obtain ⟨within, found⟩ := List.getElem?_eq_some_iff.mp there
  refine ⟨⟨s.vectors.size + k⟩, ?_, Nat.le_add_right _ _, ?_, ?_⟩
  · simp [within]
  · simpa using within
  · simp [container, within, found]

theorem coerce_atomic {xs : Elements} {rank : Nat} (low : rank < listRank) (s : Store) :
    coerce xs rank s = (if xs.isList then xs else xs.widen rank, s) := by
  unfold coerce
  cases xs.isList with
  | true => rfl
  | false =>
    rw [if_neg Bool.false_ne_true, if_pos low]
    rfl

/-! Computations that may fail, and what they have done then. -/

variable {R : Store → Store → Prop} {α β : Type}

/-- A computation that fails has led to a related store. -/
def FailsWithin (R : Store → Store → Prop) (m : StoreM α) : Prop :=
  ∀ s f, (m s).1 = .error f → R s (m s).2

theorem failsWithin_of_moves {m : StoreM α} (moves : Moves R m) : FailsWithin R m :=
  fun s _ _ => moves s

theorem failsWithin_modify (f : Store → Store) : FailsWithin R (modify f : StoreM Unit) :=
  fun _ _ failed => nomatch failed

theorem failsWithin_read {f : Store → StoreM α} (rest : ∀ s, FailsWithin R (f s)) :
    FailsWithin R (get >>= f : StoreM α) := fun s => rest s s

theorem failsWithin_seq [Chained R] {m : StoreM α} {f : α → StoreM β} (first : Moves R m)
    (rest : ∀ a, FailsWithin R (f a)) : FailsWithin R (m >>= f : StoreM β) := by
  intro s f failed
  have reached := first s
  rw [seq_apply] at failed ⊢
  rcases run : m s with ⟨e | a, t⟩
  · rw [run] at reached
    exact reached
  · rw [run] at reached failed
    exact Chained.trans reached (rest a t f failed)

theorem failsWithin_unless [Chained R] (bad : Prop) [Decidable bad] (f : Failure) {k : Unit → StoreM α}
    (rest : ∀ u, FailsWithin R (k u)) :
    FailsWithin R (if bad then (throw f : StoreM Unit) >>= k else k () : StoreM α) := by
  split
  · exact failsWithin_seq (moves_throw (α := Unit) f) rest
  · exact rest ()

theorem moves_ensureWritable [Chained R] (id : VectorId) : Moves R (ensureWritable id) := by
  intro s
  rw [ensureWritable_apply]
  split <;> exact Chained.refl s

/-- A write of an element that fails has written nothing. -/
theorem failsWithin_setElement [Owning R] (id : VectorId) (i : Nat) (v : Value) :
    FailsWithin R (setElement id i v) := by
  refine failsWithin_seq (moves_ensureWritable id) fun _ => failsWithin_read fun s => ?_
  dsimp only
  refine failsWithin_unless _ _ fun _ => ?_
  split
  · exact failsWithin_modify _
  · refine failsWithin_read fun s => ?_
    dsimp only
    split
    · refine failsWithin_unless _ _ fun _ => failsWithin_seq (moves_lift (moves_coerce _ _)) fun xs =>
        failsWithin_seq (moves_lift (moves_coerce _ _)) fun ys => ?_
      split
      · exact failsWithin_modify _
      · exact failsWithin_of_moves (moves_throw _)
    · exact failsWithin_of_moves (moves_throw _)

theorem failsWithin_setAttribute [Chained R] (id : VectorId) (name : Name) (v : Option Value) :
    FailsWithin R (setAttribute id name v) :=
  failsWithin_seq (moves_ensureWritable id) fun _ => failsWithin_modify _

/-- A value shows an element: the value that stands in a list, or else a vector of that one element. -/
def Shows (s : Store) (v : Value) : Elements → Prop
  | .list [w] => v = w
  | e => ∃ f, v = .vector f ∧ s.elements f = e

/-- A value shows what stands at a place: an element, or `NULL` where there is none. -/
def ShowsPlace (s : Store) (v : Value) (e : Option Elements) : Prop := e.elim (v = .null) (s.Shows v)

/-! The outcome of a write. -/

/-- Contents hold an element at a place: the element itself, converted to their type, or, in a list, a vector
that holds it. -/
def Carries (t : Store) (zs : Elements) (k : Nat) (e : Elements) : Prop :=
  if zs.isList && !e.isList then
    ∃ f, zs.at? k = some (.list [.vector f]) ∧ f.index < t.vectors.size ∧ t.elements f = e ∧
      (t.container f).attributes = {}
  else zs.at? k = some (e.widen zs.rank)

/-- From some contents to others by writing to a place, or by removing what stands there. -/
structure Replaced (t : Store) (removed : Bool) (i : Nat) (xs zs : Elements) : Prop where
  length : zs.length = if removed then (if i < xs.length then xs.length - 1 else xs.length)
    else max xs.length (i + 1)
  kept : ∀ k e, k ≠ i → (removed = true → k < i) → xs.at? k = some e → t.Carries zs k e
  moved : removed = true → ∀ k, i ≤ k → zs.at? k = xs.at? (k + 1)

theorem replaced_list (t : Store) (xs : List Value) {i : Nat} (within : i ≤ xs.length) (v : Value) :
    t.Replaced v.isNull i (.list xs) (.list (writeChild xs i v)) := by
  have places (k : Nat) (apart : v.isNull = false → k ≠ i) : (Elements.list (writeChild xs i v)).at? k =
      if v.isNull ∧ i ≤ k then (Elements.list xs).at? (k + 1) else (Elements.list xs).at? k := by
    unfold at?
    dsimp only
    rw [getElem?_writeChild xs i k v apart]
    split <;> rfl
  refine ⟨length_writeChild xs within v, fun k e apart before there => ?_, fun removed k after => ?_⟩
  · have list : e.isList = true := isList_at? there
    unfold Carries
    rw [list, places k fun _ => apart, if_neg (by simp), if_neg, there,
      widen_of_isList list _ (rank_le_listRank _)]
    · rintro ⟨removed, after⟩
      have := before removed
      omega
  · rw [places k fun kept => by simp [kept] at removed, if_pos ⟨removed, after⟩]

theorem replaced_atomic {s : Store} {xs ys zs : Elements} (atomic : xs.isList = false) {rank i : Nat}
    (le : xs.rank ≤ rank) (within : i ≤ xs.length) {t : Store}
    (later : ∀ f, s.vectors.size ≤ f.index → Sparing f (coerce xs rank s).2 t)
    (written : (coerce xs rank s).1.writeFirst i ys = some zs) : t.Replaced false i xs zs := by
  have same := rank_writeFirst written
  by_cases low : rank < listRank
  · rw [coerce_atomic low, atomic, if_neg Bool.false_ne_true] at written same
    have size := length_writeFirst written (by rw [length_widen]; exact within)
    rw [length_widen] at size
    rw [rank_widen le low] at same
    refine ⟨size, fun k e apart _ there => ?_, nofun⟩
    have flat : zs.isList = false := by
      refine Bool.eq_false_iff.mpr fun list => ?_
      have := (isList_iff_rank zs).mp list
      omega
    unfold Carries
    rw [flat, Bool.false_and, if_neg Bool.false_ne_true, at?_writeFirst written apart, at?_widen atomic low,
      there, same]
    rfl
  · obtain ⟨fs, made, size, places⟩ := coerce_list atomic (Nat.not_lt.mp low) s
    rw [made] at written same
    have length := length_writeFirst written (by rw [Elements.length, size]; exact within)
    rw [show (Elements.list fs).length = xs.length from size] at length
    refine ⟨length, fun k e apart _ there => ?_, nofun⟩
    obtain ⟨f, found, new, inside, holds⟩ := places k e there
    have list : zs.isList = true := (isList_iff_rank zs).mpr same
    obtain ⟨still, elements, attributes⟩ := later f new inside
    unfold Carries
    rw [list, isList_at? there, atomic, Bool.not_false, Bool.and_self, if_pos rfl]
    refine ⟨f, ?_, still, ?_, ?_⟩
    · rw [at?_writeFirst written apart]
      simp [at?, found]
    · exact elements.trans (by rw [holds])
    · exact attributes.trans (by rw [holds])

/-- A check that was passed has left the store as it is. -/
theorem unless_ok {bad : Prop} [Decidable bad] {f : Failure} {k : Unit → StoreM α} {s t : Store} {a : α}
    (ok : (if bad then (throw f : StoreM Unit) >>= k else k () : StoreM α) s = (.ok a, t)) :
    ¬ bad ∧ k () s = (.ok a, t) := by
  split at ok
  · obtain ⟨_, _, failed, _⟩ := seq_ok ok
    cases failed
  · rename_i passed
    exact ⟨passed, ok⟩

/-- A vector that is there got other contents. No other vector changed. -/
structure Rewritten (id : VectorId) (zs : Elements) (s t : Store) : Prop where
  elements : t.elements id = zs
  attributes : (t.container id).attributes = (s.container id).attributes
  others : ∀ c, c ≠ id → Sparing c s t
  size : s.vectors.size ≤ t.vectors.size

theorem rewritten_setElements {id : VectorId} {s u : Store} (there : id.index < s.vectors.size)
    (reached : ∀ c, Sparing c s u) (size : s.vectors.size ≤ u.vectors.size) (zs : Elements) :
    Rewritten id zs s (u.setElements id zs) := by
  have inside : id.index < u.vectors.size := Nat.lt_of_lt_of_le there size
  refine ⟨?_, ?_, fun c other => ?_, ?_⟩
  · simp [Store.elements, setElements, container_modify, inside]
  · simp only [setElements, container_modify, inside, and_self, if_true]
    exact (reached id there).2.2
  · exact Chained.trans (reached c) (sparing_modify (Ne.symm other) _ u)
  · simpa [setElements, modifyContainer] using size

/-- A relation that holds across the making of vectors and the rise of sharing states. -/
def Grown (s t : Store) : Prop := (∀ c, Sparing c s t) ∧ s.vectors.size ≤ t.vectors.size

instance : Owning Grown where
  refl s := ⟨fun _ => Chained.refl s, Nat.le_refl _⟩
  trans first second :=
    ⟨fun c => Chained.trans (first.1 c) (second.1 c), Nat.le_trans first.2 second.2⟩
  addVector k s := ⟨fun _ => Owning.addVector k s, by simp [addVector]⟩
  raise f up v s := by
    refine ⟨fun _ => Owning.raise f up v s, ?_⟩
    cases v with
    | vector c => simp [setSharing, modifyContainer]
    | _ => exact Nat.le_refl _

theorem grown_of_same {s t : Store} (same : t.vectors = s.vectors) : Grown s t := by
  have size : s.vectors.size = t.vectors.size := by rw [same]
  refine ⟨fun c => sparing_of_same (Nat.le_of_eq size) fun _ => ?_, Nat.le_of_eq size⟩
  unfold Agrees Store.container
  rw [same]
  exact ⟨rfl, rfl⟩

theorem Carries.later {s t : Store} {zs e : Elements} {k : Nat} (grown : Grown s t)
    (carries : s.Carries zs k e) : t.Carries zs k e := by
  unfold Carries at carries ⊢
  split
  · rename_i converted
    rw [if_pos converted] at carries
    obtain ⟨f, found, inside, holds, bare⟩ := carries
    obtain ⟨still, elements, attributes⟩ := grown.1 f inside
    exact ⟨f, found, still, elements.trans holds, attributes.trans bare⟩
  · rename_i plain
    rw [if_neg plain] at carries
    exact carries

theorem Replaced.later {s t : Store} {removed : Bool} {i : Nat} {xs zs : Elements} (grown : Grown s t)
    (replaced : s.Replaced removed i xs zs) : t.Replaced removed i xs zs where
  length := replaced.length
  kept k e apart before there := (replaced.kept k e apart before there).later grown
  moved := replaced.moved

/-- The element of an atomic vector is written once both it and the vector are of one type. -/
theorem writeAtomic_ok {id : VectorId} {i : Nat} {v : Value} {s t : Store}
    (there : id.index < s.vectors.size) (atomic : (s.elements id).isList = false)
    (within : i ≤ (s.elements id).length) (ok : writeAtomic id i v s = (.ok (), t)) :
    ∃ zs, Rewritten id zs s t ∧ t.Replaced false i (s.elements id) zs := by
  unfold writeAtomic at ok
  rw [read_apply] at ok
  cases v with
  | vector source =>
    obtain ⟨_, rest⟩ := unless_ok ok
    obtain ⟨xs, u, first, rest⟩ := seq_ok rest
    obtain ⟨ys, w, second, rest⟩ := seq_ok rest
    let rank := max (s.elements id).rank (s.elements source).rank
    have made : (coerce (s.elements id) rank s) = (xs, u) := by
      cases first
      rfl
    have grown : Grown s u := by
      have moved := moves_coerce (R := Grown) (s.elements id) rank s
      rwa [made] at moved
    have further : Grown u w := by
      have moved := moves_coerce (R := Grown) (s.elements source) rank u
      cases second
      exact moved
    cases written : xs.writeFirst i ys with
    | none =>
      rw [written] at rest
      cases rest
    | some zs =>
      rw [written] at rest
      cases rest
      have reached : Grown s w := Chained.trans grown further
      refine ⟨zs, rewritten_setElements there reached.1 reached.2 zs, ?_⟩
      refine replaced_atomic atomic (Nat.le_max_left _ _) within (fun f new => ?_)
        (by rw [made]; exact written)
      have apart : id ≠ f := fun same => Nat.not_lt_of_le new (same ▸ there)
      rw [made]
      exact Chained.trans (further.1 f) (sparing_modify apart _ w)
  | _ => cases ok

theorem setElement_ok {id : VectorId} {i : Nat} {v : Value} {s t : Store}
    (there : id.index < s.vectors.size) (ok : setElement id i v s = (.ok (), t)) :
    i ≤ (s.elements id).length ∧ ∃ zs, Rewritten id zs s t ∧
      t.Replaced ((s.elements id).isList && v.isNull) i (s.elements id) zs := by
  obtain ⟨_, u, ensured, rest⟩ := seq_ok ok
  have same : u = s := by
    rw [ensureWritable_apply] at ensured
    split at ensured
    · cases ensured
    · cases ensured
      rfl
  subst same
  rw [read_apply] at rest
  obtain ⟨bound, rest⟩ := unless_ok rest
  have within : i ≤ (u.elements id).length := Nat.not_lt.mp bound
  refine ⟨within, ?_⟩
  cases list : (u.elements id).isList with
  | true =>
    cases contents : u.elements id with
    | list xs =>
      rw [contents] at rest within
      cases rest
      refine ⟨_, rewritten_setElements there (fun _ => Chained.refl u) (Nat.le_refl _) _, ?_⟩
      exact replaced_list _ xs within v
    | _ =>
      rw [contents] at list
      cases list
  | false =>
    refine writeAtomic_ok (v := v) there list within ?_
    cases contents : u.elements id with
    | list xs =>
      rw [contents] at list
      cases list
    | _ =>
      rw [contents] at rest
      exact rest

theorem Rewritten.after {id : VectorId} {zs : Elements} {s t u : Store}
    (there : id.index < s.vectors.size) (first : Grown s t) (second : Rewritten id zs t u) :
    Rewritten id zs s u where
  elements := second.elements
  attributes := second.attributes.trans (first.1 id there).2.2
  others c other := Chained.trans (first.1 c) (second.others c other)
  size := Nat.le_trans first.2 second.size

end Store

namespace Builtins

open Store

theorem put_apply (id : VectorId) (position : Nat) (v : Value) (s : Store) :
    ∃ u, (u = s ∨ u = s.share v) ∧ put id position v s = Store.setElement id position v u := by
  unfold put
  rw [read_apply]
  split
  · exact ⟨s.share v, .inr rfl, rfl⟩
  · exact ⟨s, .inl rfl, rfl⟩

theorem grown_of_owned {s u : Store} {v : Value} (owned : u = s ∨ u = s.share v) : Grown s u := by
  rcases owned with rfl | rfl
  · exact Chained.refl u
  · exact share_moves v s

/-- A write that fails has written nothing. -/
theorem failsWithin_put (id : VectorId) (position : Nat) (v : Value) :
    FailsWithin Grown (put id position v) := by
  intro s f failed
  obtain ⟨u, owned, run⟩ := put_apply id position v s
  rw [run] at failed ⊢
  exact Chained.trans (grown_of_owned owned) (failsWithin_setElement id position v u f failed)

theorem put_ok {id : VectorId} {position : Nat} {v : Value} {s t : Store}
    (there : id.index < s.vectors.size) (ok : put id position v s = (.ok (), t)) :
    position ≤ (s.elements id).length ∧ ∃ zs, Rewritten id zs s t ∧
      t.Replaced ((s.elements id).isList && v.isNull) position (s.elements id) zs := by
  obtain ⟨u, owned, run⟩ := put_apply id position v s
  have grown := grown_of_owned owned
  rw [run] at ok
  obtain ⟨within, zs, rewritten, replaced⟩ := setElement_ok (Nat.lt_of_lt_of_le there grown.2) ok
  have same : u.elements id = s.elements id := (grown.1 id there).2.1
  rw [same] at within replaced
  exact ⟨within, zs, rewritten.after there grown, replaced⟩

/-- The names of a vector with one more, and an empty one for each element that has none. -/
def extendedNames (s : Store) (id : VectorId) (name : String) : List String :=
  (names? s id).getD (List.replicate (s.elements id).length "") ++ [name]

/-- A vector got fresh names. Nothing else about the vectors that were there changed. -/
structure Renamed (id : VectorId) (names : List String) (s t : Store) : Prop where
  elements : t.elements id = s.elements id
  fresh : ∃ m : VectorId, s.vectors.size ≤ m.index ∧ m.index < t.vectors.size ∧
    t.elements m = .character names ∧
    (t.container id).attributes = (s.container id).attributes.insert "names" (.vector m)
  others : ∀ c, c ≠ id → Sparing c s t
  size : s.vectors.size ≤ t.vectors.size

theorem appendName_ok {id : VectorId} {name : String} {s : Store}
    (there : id.index < s.vectors.size) (unshared : (s.container id).sharing.isShared = false) :
    ∃ t, appendName id name s = (.ok (s.elements id).length, t) ∧
      Renamed id (extendedNames s id name) s t ∧
      (t.container id).sharing.isShared = false := by
  let fresh : Container := ⟨.character (extendedNames s id name), {}, .temporary⟩
  let u := (addVector fresh s).2
  have grown : Grown s u := Owning.addVector fresh s
  have kept : u.container id = s.container id := by
    rw [container_addVector, if_neg (Nat.ne_of_lt there)]
  have run : appendName id name s = (Store.setAttribute id "names" (some (.vector ⟨s.vectors.size⟩)) >>=
      fun _ => pure (s.elements id).length : StoreM Nat) u := rfl
  rw [run, seq_apply, setAttribute_apply, kept, unshared]
  have inside : id.index < u.vectors.size := Nat.lt_of_lt_of_le there grown.2
  have apart : (⟨s.vectors.size⟩ : VectorId) ≠ id := fun same => by
    rw [← same] at there
    exact Nat.lt_irrefl _ there
  refine ⟨_, rfl, ⟨?_, ⟨⟨s.vectors.size⟩, Nat.le_refl _, ?_, ?_, ?_⟩, fun c other => ?_, ?_⟩, ?_⟩
  · simp [Store.elements, container_modify, inside, kept]
  · simp [modifyContainer, u, addVector]
  · simp [Store.elements, container_modify, apart, u, container_addVector, fresh]
  · simp [container_modify, inside, kept, Option.filter, Value.isNull]
  · exact Chained.trans (grown.1 c) (sparing_modify (Ne.symm other) _ u)
  · simp [modifyContainer, u, addVector]
  · simp [container_modify, inside, kept, unshared]

section Place

variable {id : VectorId} {index : Value} {s : Store}

theorem place_resolved {position : Nat}
    (resolved : resolveIndex s id index true = .ok (some position)) :
    place id index s = (.ok position, s) := by
  unfold place
  rw [read_apply, resolved]
  rfl

theorem place_invalid {f : Failure} (invalid : resolveIndex s id index true = .error f) :
    place id index s = (.error f, s) := by
  unfold place
  rw [read_apply, invalid]
  rfl

theorem place_absent (absent : resolveIndex s id index true = .ok none) :
    place id index s = (match s.string? index with
      | some name => appendName id name
      | none => throw .outOfBounds : StoreM Nat) s := by
  unfold place
  rw [read_apply, absent]
  rfl

/-- A place was found, or a name was appended. -/
theorem place_ok {position : Nat} {t : Store} (there : id.index < s.vectors.size)
    (unshared : (s.container id).sharing.isShared = false)
    (ok : place id index s = (.ok position, t)) :
    (resolveIndex s id index true = .ok (some position) ∧ t = s) ∨
    ∃ name, resolveIndex s id index true = .ok none ∧ s.string? index = some name ∧
      position = (s.elements id).length ∧ Renamed id (extendedNames s id name) s t ∧
      (t.container id).sharing.isShared = false := by
  cases resolved : resolveIndex s id index true with
  | error f =>
    rw [place_invalid resolved] at ok
    cases ok
  | ok found =>
    cases found with
    | some i =>
      rw [place_resolved resolved] at ok
      cases ok
      exact .inl ⟨rfl, rfl⟩
    | none =>
      rw [place_absent resolved] at ok
      cases text : s.string? index with
      | none =>
        rw [text] at ok
        cases ok
      | some name =>
        rw [text] at ok
        dsimp only at ok
        obtain ⟨u, appended, renamed, still⟩ := appendName_ok there unshared
        rw [appended] at ok
        cases ok
        exact .inr ⟨name, rfl, rfl, rfl, renamed, still⟩

end Place

/-- The vector that a replacement writes to holds what its target holds. It is the target itself unless that
is shared. -/
theorem replacementTarget_ok {c : VectorId} {s : Store} (there : c.index < s.vectors.size) :
    ∃ id t, replacementTarget (.vector c) s = (.ok id, t) ∧ Grown s t ∧
      id.index < t.vectors.size ∧ (t.container id).sharing.isShared = false ∧
      t.elements id = s.elements c ∧ (t.container id).attributes = (s.container c).attributes ∧
      (id = c ∧ t = s ∧ (s.container c).sharing.isShared = false ∨
        s.vectors.size ≤ id.index ∧ (s.container c).sharing.isShared = true) := by
  have run : replacementTarget (.vector c) s = (.ok (makeMutable c s).1, (makeMutable c s).2) := rfl
  cases shared : (s.container c).sharing.isShared with
  | false =>
    rw [run, makeMutable_unshared shared]
    exact ⟨c, s, rfl, Chained.refl s, there, shared, rfl, rfl, .inl ⟨rfl, rfl, rfl⟩⟩
  | true =>
    let u := s.shareAll ((s.container c).elements.children ++ (s.container c).attributes.values)
    let copy : Container := { s.container c with sharing := .temporary }
    have made : makeMutable c s = (⟨u.vectors.size⟩, (addVector copy u).2) := by
      change (if (s.container c).sharing.isShared then duplicate c else pure c : Alloc VectorId) s = _
      rw [if_pos shared]
      rfl
    have grown : Grown s (addVector copy u).2 :=
      Chained.trans (shareAll_moves _ s) (Owning.addVector copy u)
    have holds : (addVector copy u).2.container ⟨u.vectors.size⟩ = copy := by
      rw [container_addVector, if_pos rfl]
    rw [run, made]
    refine ⟨_, _, rfl, grown, ?_, ?_, ?_, ?_, .inr ⟨?_, rfl⟩⟩
    · simp [addVector]
    · rw [holds]
      rfl
    · rw [Store.elements, holds]
      rfl
    · rw [holds]
    · exact Nat.le_of_eq (shareAll_size _ s).symm

/-! Reading. -/

theorem shows_adjustChild {s : Store} {owner child v : Value} {e : Elements} (shows : s.Shows v e) :
    (s.adjustChild owner child).Shows v e := by
  have same (f : VectorId) : (s.adjustChild owner child).elements f = s.elements f := by
    unfold adjustChild
    split
    · split
      · rfl
      · unfold Store.elements setSharing
        dsimp only
        rw [container_modify]
        split
        · rename_i found
          rw [found.1]
        · rfl
    · rfl
  unfold Shows at shows ⊢
  split at shows
  · exact shows
  · obtain ⟨f, rfl, holds⟩ := shows
    exact ⟨f, rfl, (same f).trans holds⟩

theorem element_at (id : VectorId) (k : Nat) (s : Store) :
    (Store.element id k s).2.ShowsPlace ((Store.element id k s).1.getD .null) ((s.elements id).at? k) := by
  have run : Store.element id k s = (match s.elements id with
    | .list xs => pure xs[k]?
    | xs => xs.singletons[k]?.mapM vector : Alloc (Option Value)) s := rfl
  rw [run]
  cases contents : s.elements id with
  | list xs =>
    dsimp only [Elements.at?]
    cases xs[k]? with
    | none => rfl
    | some v => rfl
  | logical xs | integer xs | double xs | character xs =>
    dsimp only [Elements.at?, Elements.singletons]
    rw [List.getElem?_map]
    cases xs[k]? with
    | none => rfl
    | some x =>
      refine ⟨⟨s.vectors.size⟩, rfl, ?_⟩
      exact congrArg Container.elements ((container_addVector s _ _).trans (if_pos rfl))

/-- Reading an element by a name gives what stands at the place of the first such name. -/
theorem element_named {id : VectorId} {index : Value} {name : String} {k : Nat} {s : Store}
    (text : s.string? index = some name)
    (found : ((names? s id).getD []).findIdx? (· = name) = some k) :
    ∃ v t, element ⟨[none, none], [.vector id, index]⟩ s = (.ok v, t) ∧ Grown s t ∧
      t.ShowsPlace v ((s.elements id).at? k) := by
  have place : resolveIndex s id index false = .ok (some k) := by
    unfold resolveIndex
    rw [text]
    exact congrArg Except.ok found
  have grown := moves_element (R := Grown) ⟨[none, none], [.vector id, index]⟩ s
  cases index with
  | vector i =>
    let read (k : Nat) : StoreM Value := do
      let v ← Store.element id k
      modify (·.adjustChild (.vector id) (v.getD .null))
      pure (v.getD .null)
    have run : element ⟨[none, none], [.vector id, .vector i]⟩ s = read k s := by
      change (liftM (resolveIndex s id (.vector i) false) >>= _ : StoreM Value) s = _
      rw [place]
      rfl
    rw [run] at grown ⊢
    have stands := element_at id k s
    rcases taken : Store.element id k s with ⟨v, t⟩
    have answer : read k s = (.ok (v.getD .null), t.adjustChild (.vector id) (v.getD .null)) := by
      have lifted : (liftM (Store.element id k) : StoreM (Option Value)) s = (.ok v, t) := by
        change (Except.ok (Store.element id k s).1, (Store.element id k s).2) = _
        rw [taken]
      change (liftM (Store.element id k) >>= _ : StoreM Value) s = _
      rw [seq_apply, lifted]
      rfl
    refine ⟨_, _, answer, ?_, ?_⟩
    · exact (congrArg (Grown s) (congrArg Prod.snd answer)).mp grown
    · rw [taken] at stands
      cases there : (s.elements id).at? k with
      | none =>
        rw [there] at stands
        exact stands
      | some e =>
        rw [there] at stands
        exact shows_adjustChild stands
  | _ => cases text

end Builtins
end CallByNeed
