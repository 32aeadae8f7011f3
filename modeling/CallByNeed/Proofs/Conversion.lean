import CallByNeed.Proofs.Places

/-!
Elements of one type in contents of another. A table says what an element becomes in the types above its
own, and converting contents as a whole converts each element by this table. A write of an element brings
a vector and the element to the higher of their types before it writes, so that both fit, and fails before
anything is written.
-/
namespace CallByNeed

namespace Elements

/-- Each element as contents of its own. -/
def entries : Elements → List Elements
  | list vs => vs.map fun v => list [v]
  | xs => xs.singletons

theorem at?_eq (xs : Elements) (k : Nat) : xs.at? k = xs.entries[k]? := by
  cases xs with
  | list vs => simp [at?, entries]
  | _ => rfl

theorem length_entries (xs : Elements) : xs.entries.length = xs.length := by
  cases xs <;> simp [entries, singletons, length]

theorem isList_eq_true {xs : Elements} : xs.isList = true ↔ ∃ vs, xs = list vs := by
  cases xs <;> simp [isList]

/-- An element is of the type of the contents it stands in. -/
theorem rank_of_mem_entries {xs e : Elements} (member : e ∈ xs.entries) : e.rank = xs.rank := by
  cases xs <;> obtain ⟨x, -, rfl⟩ := List.mem_map.mp member <;> rfl

theorem entries_widen {xs : Elements} (atomic : xs.isList = false) {rank : Nat} (low : rank < listRank) :
    (xs.widen rank).entries = xs.entries.map (·.widen rank) := by
  refine List.ext_getElem? fun k => ?_
  rw [← at?_eq, at?_widen atomic low, List.getElem?_map, at?_eq]

/-- What an element becomes in atomic contents of a rank. Against a lower rank it stays what it is. -/
inductive Becomes : Nat → Elements → Elements → Prop
  | same {rank : Nat} {e : Elements} (high : rank ≤ e.rank) : Becomes rank e e
  | integer (b : Bool) : Becomes 1 (.logical [b]) (.integer [if b then 1 else 0])
  | number (b : Bool) : Becomes 2 (.logical [b]) (.double [if b then 1 else 0])
  | double (n : Int64) : Becomes 2 (.integer [n]) (.double [n.toFloat])
  | word (b : Bool) : Becomes 3 (.logical [b]) (.character [if b then "TRUE" else "FALSE"])
  | digits (n : Int64) : Becomes 3 (.integer [n]) (.character [toString n.toInt])
  | decimal (x : Float) : Becomes 3 (.double [x]) (.character [Decimal.text x])

/-- The table has a line for each two atomic types. -/
theorem becomes_widen {xs e : Elements} (member : e ∈ xs.entries) {rank : Nat} (le : xs.rank ≤ rank)
    (low : rank < listRank) : Becomes rank e (e.widen rank) := by
  have same (high : rank ≤ e.rank) : Becomes rank e (e.widen rank) := by
    rw [show e.widen rank = e from if_pos high]
    exact .same high
  have ranks : rank = 0 ∨ rank = 1 ∨ rank = 2 ∨ rank = 3 := by
    unfold listRank at low
    omega
  cases xs with
  | logical xs =>
    obtain ⟨b, -, rfl⟩ := List.mem_map.mp member
    rcases ranks with rfl | rfl | rfl | rfl
    · exact same (Nat.le_refl 0)
    · exact .integer b
    · exact .number b
    · exact .word b
  | integer xs =>
    obtain ⟨n, -, rfl⟩ := List.mem_map.mp member
    rcases ranks with rfl | rfl | rfl | rfl
    · cases le
    · exact same (Nat.le_refl 1)
    · exact .double n
    · exact .digits n
  | double xs =>
    obtain ⟨x, -, rfl⟩ := List.mem_map.mp member
    rcases ranks with rfl | rfl | rfl | rfl
    · cases le
    · exact absurd (show 2 ≤ 1 from le) (by decide)
    · exact same (Nat.le_refl 2)
    · exact .decimal x
  | character xs =>
    obtain ⟨w, -, rfl⟩ := List.mem_map.mp member
    exact same (Nat.le_of_lt_succ low)
  | list vs => exact absurd le (Nat.not_le_of_lt low)

end Elements

namespace Store

open Elements Scope

/-- What an element becomes in contents of a rank: in a list, a new vector that holds it, unless it was in a
list before. -/
inductive Converts (s t : Store) : Nat → Elements → Elements → Prop
  | plain {rank : Nat} {e e' : Elements} (becomes : Becomes rank e e') : Converts s t rank e e'
  | boxed {e : Elements} {f : VectorId} (atomic : e.isList = false) (new : s.vectors.size ≤ f.index)
    (inside : f.index < t.vectors.size) (holds : t.elements f = e)
    (bare : (t.container f).attributes = {}) : Converts s t listRank e (.list [.vector f])

variable {s t u : Store}

/-- What is new stays what it is while it is spared. -/
theorem Converts.later {rank : Nat} {e e' : Elements} (converts : Converts s t rank e e')
    (spares : ∀ f, s.vectors.size ≤ f.index → Sparing f t u) : Converts s u rank e e' := by
  cases converts with
  | plain becomes => exact .plain becomes
  | boxed atomic new inside holds bare =>
    obtain ⟨still, elements, attributes⟩ := spares _ new inside
    exact .boxed atomic new still (elements.trans holds) (attributes.trans bare)

/-- What is new in a larger store is new in a smaller one. -/
theorem Converts.earlier {rank : Nat} {e e' : Elements} (converts : Converts t u rank e e')
    (le : s.vectors.size ≤ t.vectors.size) : Converts s u rank e e' := by
  cases converts with
  | plain becomes => exact .plain becomes
  | boxed atomic new inside holds bare => exact .boxed atomic (Nat.le_trans le new) inside holds bare

/-- Converting contents converts each element, and changes nothing that was there. -/
theorem converts_coerce {xs : Elements} {rank : Nat} (le : xs.rank ≤ rank) (bound : rank ≤ listRank)
    (s : Store) : (coerce xs rank s).1.rank = rank ∧
      List.Forall₂ (Converts s (coerce xs rank s).2 rank) xs.entries (coerce xs rank s).1.entries := by
  have alike {ys : Elements} {t : Store} (each : ∀ e ∈ ys.entries, Converts s t rank e e) :
      List.Forall₂ (Converts s t rank) ys.entries ys.entries :=
    List.forall₂_same.mpr each
  cases list : xs.isList with
  | true =>
    have run : coerce xs rank s = (xs, s) := by
      unfold coerce
      rw [if_pos list]
      rfl
    have same : xs.rank = rank := Nat.le_antisymm le (((isList_iff_rank xs).mp list).symm ▸ bound)
    rw [run]
    exact ⟨same, alike fun e member => .plain (.same (by rw [rank_of_mem_entries member, same]))⟩
  | false =>
    by_cases low : rank < listRank
    · rw [coerce_atomic low, list, if_neg Bool.false_ne_true]
      refine ⟨rank_widen le low, ?_⟩
      rw [entries_widen list low, List.forall₂_map_right_iff]
      exact List.forall₂_same.mpr fun e member => .plain (becomes_widen member le low)
    · have top : rank = listRank := Nat.le_antisymm bound (Nat.le_of_not_lt low)
      subst top
      obtain ⟨fs, made, size, places⟩ := coerce_list list (Nat.le_refl _) s
      rw [made]
      refine ⟨rfl, List.forall₂_iff_get.mpr ⟨?_, fun k first second => ?_⟩⟩
      · simp [length_entries, Elements.length, size]
      · have there : xs.at? k = some (xs.entries.get ⟨k, first⟩) := by
          rw [at?_eq]
          exact List.getElem?_eq_getElem first
        obtain ⟨f, found, new, inside, holds⟩ := places k _ there
        have placed : (Elements.list fs).entries.get ⟨k, second⟩ = .list [.vector f] := by
          have at_k : (Elements.list fs).entries[k]? = some (.list [.vector f]) := by
            simp [entries, found]
          exact Option.some.inj ((List.getElem?_eq_getElem second).symm.trans at_k)
        rw [placed]
        refine .boxed ?_ new inside (congrArg Container.elements holds) (congrArg Container.attributes holds)
        rw [isList_at? there, list]

/-! Writing an element. -/

/-- New vectors were made, and nothing else happened. -/
structure Extends (s t : Store) : Prop where
  old : ∀ c : VectorId, c.index < s.vectors.size → t.container c = s.container c
  size : s.vectors.size ≤ t.vectors.size
  rest : t = { s with vectors := t.vectors }

instance : Allocating Extends where
  refl _ := ⟨fun _ _ => rfl, Nat.le_refl _, rfl⟩
  trans first second := by
    refine ⟨fun c there => ?_, Nat.le_trans first.size second.size, ?_⟩
    · rw [second.old c (Nat.lt_of_lt_of_le there first.size), first.old c there]
    · rw [second.rest, first.rest]
  vector xs s := by
    refine ⟨fun c there => ?_, ?_, rfl⟩
    · exact (container_addVector s _ c).trans (if_neg (Nat.ne_of_lt there))
    · exact Nat.le_of_lt (Nat.lt_of_lt_of_eq (Nat.lt_succ_self _) (Array.size_push _).symm)

/-- What of a value is written into contents: into a list the value itself, into atomic contents the element
of a vector of one. -/
def Offers (s : Store) (xs : Elements) (v : Value) (y : Elements) : Prop :=
  if xs.isList then y = .list [v] else ∃ c, v = .vector c ∧ (s.elements c).entries = [y]

/-- A value cannot be written to a place: it is beyond the end, or the value is no vector of one element and
the contents are atomic. -/
def Rejects (s : Store) (xs : Elements) (i : Nat) (v : Value) : Prop :=
  xs.length < i ∨ xs.isList = false ∧ ¬∃ c, v = .vector c ∧ (s.elements c).length = 1

/-- What is said about a write that was rejected. -/
def rejection (s : Store) (xs : Elements) (i : Nat) (v : Value) : String :=
  if xs.length < i then "subscript out of bounds"
  else if v.vector?.isSome then "more elements supplied than there are to replace"
  else s!"cannot store a {s.typeName v} in a {xs.typeName} vector"

/-- Contents have an element at a place, as it is in contents of their type. -/
def Carrying (s t : Store) (zs : Elements) (k : Nat) (e : Elements) : Prop :=
  ∃ e', zs.at? k = some e' ∧ Converts s t zs.rank e e'

/-- From some contents to others by writing an element to a place. Both are converted to the higher of their
types. -/
structure Written (s t : Store) (i : Nat) (xs y zs : Elements) : Prop where
  rank : zs.rank = max xs.rank y.rank
  length : zs.length = max xs.length (i + 1)
  placed : Carrying s t zs i y
  kept : ∀ k e, k ≠ i → xs.at? k = some e → Carrying s t zs k e

/-- From some contents to others by taking an element out, if there is one at the place. -/
structure Removed (i : Nat) (xs zs : Elements) : Prop where
  rank : zs.rank = xs.rank
  length : zs.length = if i < xs.length then xs.length - 1 else xs.length
  places : ∀ k, zs.at? k = if k < i then xs.at? k else xs.at? (k + 1)

/-- A vector got other contents. Its attributes and its sharing state stay, and so do all other vectors. -/
structure Overwritten (id : VectorId) (zs : Elements) (s t : Store) : Prop where
  target : t.container id = { s.container id with elements := zs }
  others : ∀ c : VectorId, c ≠ id → c.index < s.vectors.size → t.container c = s.container c
  size : s.vectors.size ≤ t.vectors.size
  rest : t = { s with vectors := t.vectors }

theorem Extends.overwritten {id : VectorId} (there : id.index < s.vectors.size) (extended : Extends s t)
    (zs : Elements) : Overwritten id zs s (t.setElements id zs) := by
  have inside : id.index < t.vectors.size := Nat.lt_of_lt_of_le there extended.size
  refine ⟨?_, fun c apart old => ?_, ?_, ?_⟩
  · simp [setElements, container_modify, inside, extended.old id there]
  · simp [setElements, container_modify, apart, extended.old c old]
  · simpa [setElements, modifyContainer] using extended.size
  · rw [extended.rest]
    rfl

theorem write_map {α β : Type} (f : α → β) (xs : List α) (i : Nat) (x : α) :
    Elements.write (xs.map f) i (f x) = (Elements.write xs i x).map f := by
  unfold Elements.write
  rw [List.length_map]
  split
  · simp
  · rw [List.map_set]

theorem entries_writeFirst {xs ys zs : Elements} {i : Nat} (written : xs.writeFirst i ys = some zs) :
    ∃ y rest, ys.entries = y :: rest ∧ zs.entries = Elements.write xs.entries i y := by
  unfold writeFirst at written
  split at written <;> cases written <;> exact ⟨_, _, rfl, (write_map _ _ _ _).symm⟩

theorem getElem?_write_self {α : Type} (xs : List α) {i : Nat} (within : i ≤ xs.length) (x : α) :
    (Elements.write xs i x)[i]? = some x := by
  unfold Elements.write
  split
  · rename_i last
    rw [last, List.getElem?_append_right (Nat.le_refl _), Nat.sub_self]
    rfl
  · rw [List.getElem?_set_self (by omega)]

theorem forall₂_write {α β : Type} {R : α → β → Prop} {xs : List α} {ys : List β}
    (related : List.Forall₂ R xs ys) {x : α} {y : β} (new : R x y) (i : Nat) :
    List.Forall₂ R (Elements.write xs i x) (Elements.write ys i y) := by
  have set (i : Nat) : List.Forall₂ R (xs.set i x) (ys.set i y) := by
    induction related generalizing i with
    | nil => exact .nil
    | cons first rest ih =>
      cases i with
      | zero => exact .cons new rest
      | succ i => exact .cons first (ih i)
  unfold Elements.write
  rw [related.length_eq]
  split
  · exact List.rel_append related (.cons new .nil)
  · exact set i

theorem getElem?_of_forall₂ {α β : Type} {R : α → β → Prop} {xs : List α} {ys : List β}
    (related : List.Forall₂ R xs ys) {k : Nat} {x : α} (there : xs[k]? = some x) :
    ∃ y, ys[k]? = some y ∧ R x y := by
  obtain ⟨inside, rfl⟩ := List.getElem?_eq_some_iff.mp there
  have inside' : k < ys.length := related.length_eq ▸ inside
  exact ⟨ys[k], List.getElem?_eq_getElem inside', (List.forall₂_iff_get.mp related).2 k inside inside'⟩

/-- What is written element by element is written. -/
theorem written_of_entries {i : Nat} {xs y zs : Elements} (within : i ≤ xs.length)
    (rank : zs.rank = max xs.rank y.rank)
    (each : List.Forall₂ (Converts s t zs.rank) (Elements.write xs.entries i y) zs.entries) :
    Written s t i xs y zs := by
  have within' : i ≤ xs.entries.length := by rw [length_entries]; exact within
  have carries {k : Nat} {e : Elements} (there : (Elements.write xs.entries i y)[k]? = some e) :
      Carrying s t zs k e := by
    obtain ⟨e', found, converts⟩ := getElem?_of_forall₂ each there
    exact ⟨e', (at?_eq zs k).trans found, converts⟩
  refine ⟨rank, ?_, carries (getElem?_write_self _ within' y), fun k e apart there => carries ?_⟩
  · rw [← length_entries, ← each.length_eq, length_write _ within', length_entries]
  · rw [getElem?_write_of_ne _ _ apart, ← at?_eq, there]

/-- In a list nothing is converted: all elements stay the same objects. -/
theorem written_list (s t : Store) {vs : List Value} {i : Nat} (within : i ≤ vs.length) (v : Value) :
    Written s t i (.list vs) (.list [v]) (.list (Elements.write vs i v)) := by
  refine written_of_entries within rfl ?_
  have same : Elements.write (Elements.list vs).entries i (.list [v]) =
      (Elements.list (Elements.write vs i v)).entries := write_map (fun v => Elements.list [v]) vs i v
  rw [same]
  exact List.forall₂_same.mpr fun e member => .plain (.same (Nat.le_of_eq (rank_of_mem_entries member).symm))

theorem removed_list {vs : List Value} {i : Nat} :
    Removed i (.list vs) (.list (vs.eraseIdx i)) := by
  refine ⟨rfl, List.length_eraseIdx, fun k => ?_⟩
  unfold at?
  dsimp only
  rw [List.getElem?_eraseIdx]
  split <;> rfl

section Write

variable {id : VectorId} {i : Nat} {v : Value}

theorem setElement_writable (writable : (s.container id).sharing.isShared = false) :
    setElement id i v s =
      if (s.elements id).length < i then (.error (.invalidArgument (s.rejection (s.elements id) i v)), s)
      else if (s.elements id).isList then
        (.ok (), s.setElements id (.list (writeChild (s.elements id).children i v)))
      else writeAtomic id i v s := by
  unfold setElement
  rw [seq_apply, ensureWritable_apply, writable]
  dsimp only
  rw [if_neg Bool.false_ne_true]
  dsimp only
  rw [read_apply]
  split
  · rename_i beyond
    unfold rejection
    rw [if_pos beyond]
    rfl
  · cases s.elements id <;> rfl

/-- A value that offers no element is rejected before anything is done. -/
theorem writeAtomic_rejected (within : ¬(s.elements id).length < i)
    (none : ¬∃ c, v = .vector c ∧ (s.elements c).length = 1) :
    writeAtomic id i v s = (.error (.invalidArgument (s.rejection (s.elements id) i v)), s) := by
  unfold writeAtomic rejection
  rw [read_apply, if_neg within]
  cases v with
  | vector c =>
    dsimp only
    rw [if_pos fun one => none ⟨c, rfl, one⟩]
    rfl
  | _ => rfl

theorem alloc_seq {α β : Type} (m : Alloc α) (f : α → StoreM β) (s : Store) :
    ((liftM m : StoreM α) >>= f) s = f (m s).1 (m s).2 := rfl

/-- The element of a vector of one is written: it fits once both vectors are of one type. -/
theorem writeAtomic_written {c : VectorId} {y : Elements} (there : id.index < s.vectors.size)
    (within : i ≤ (s.elements id).length) (only : (s.elements c).entries = [y]) :
    ∃ t zs, writeAtomic id i (.vector c) s = (.ok (), t) ∧ Overwritten id zs s t ∧
      Written s t i (s.elements id) y zs := by
  have one : (s.elements c).length = 1 := by rw [← length_entries, only]; rfl
  have typed : y.rank = (s.elements c).rank := rank_of_mem_entries (only ▸ List.mem_singleton_self y)
  let rank := max (s.elements id).rank (s.elements c).rank
  have bound : rank ≤ listRank := Nat.max_le.mpr ⟨rank_le_listRank _, rank_le_listRank _⟩
  -- The vector is converted first, and then the element, in the store that this leads to.
  obtain ⟨first, each⟩ := converts_coerce (Nat.le_max_left _ _ : (s.elements id).rank ≤ rank) bound s
  have extended : Extends s (coerce (s.elements id) rank s).2 := moves_coerce _ _ s
  rcases made : coerce (s.elements id) rank s with ⟨xs, u⟩
  rw [made] at first each extended
  obtain ⟨second, offered⟩ := converts_coerce (Nat.le_max_right _ _ : (s.elements c).rank ≤ rank) bound u
  have further : Extends u (coerce (s.elements c) rank u).2 := moves_coerce _ _ u
  have spares (f : VectorId) : Sparing f u (coerce (s.elements c) rank u).2 := moves_coerce _ _ u
  rcases made' : coerce (s.elements c) rank u with ⟨ys, w⟩
  rw [made'] at second offered further spares
  have size : ys.length = 1 := by rw [← length_entries, ← offered.length_eq, length_entries, one]
  obtain ⟨zs, fits⟩ := Option.ne_none_iff_exists'.mp (writeFirst_of_rank i (first.trans second.symm) size)
  have run : writeAtomic id i (.vector c) s = (.ok (), w.setElements id zs) := by
    unfold writeAtomic
    rw [read_apply]
    dsimp only
    rw [if_neg (not_not_intro one), alloc_seq, made, alloc_seq, made']
    dsimp only
    rw [fits]
    rfl
  refine ⟨_, zs, run, (Chained.trans extended further : Extends s w).overwritten there zs, ?_⟩
  have apart (f : VectorId) (new : s.vectors.size ≤ f.index) : id ≠ f := fun same =>
    Nat.not_lt_of_le new (same ▸ there)
  have written (f : VectorId) (new : s.vectors.size ≤ f.index) : Sparing f w (w.setElements id zs) :=
    sparing_modify (apart f new) _ w
  obtain ⟨y', rest, head, entries⟩ := entries_writeFirst fits
  rw [only, head] at offered
  obtain ⟨converts, -⟩ := List.forall₂_cons.mp offered
  refine written_of_entries within (typed ▸ (rank_writeFirst fits).trans first) ?_
  rw [entries, (rank_writeFirst fits).trans first]
  have kept := each.imp fun e e' old => old.later fun f new => Chained.trans (spares f) (written f new)
  exact forall₂_write kept ((converts.earlier extended.size).later written) i

/-- Writing an element in place, where that is allowed. Either the value is rejected, and nothing has
happened, or the vector alone got other contents: with the value in its place, or, where `NULL` goes into a
list, without what stood there. -/
theorem setElement_contract (there : id.index < s.vectors.size)
    (writable : (s.container id).sharing.isShared = false) (apart : v ≠ .vector id) :
    match setElement id i v s with
    | (.error f, t) => s.Rejects (s.elements id) i v ∧
        f = .invalidArgument (s.rejection (s.elements id) i v) ∧ t = s
    | (.ok (), t) => ¬s.Rejects (s.elements id) i v ∧ ∃ zs, Overwritten id zs s t ∧
        (∀ c, v = .vector c → c.index < s.vectors.size → t.container c = s.container c) ∧
        if (s.elements id).isList ∧ v.isNull then Removed i (s.elements id) zs
        else ∃ y, s.Offers (s.elements id) v y ∧ Written s t i (s.elements id) y zs := by
  have untouched {t : Store} {zs : Elements} (changed : Overwritten id zs s t) :
      ∀ c, v = .vector c → c.index < s.vectors.size → t.container c = s.container c :=
    fun c same => changed.others c fun equal => apart (same.trans (congrArg Value.vector equal))
  rw [setElement_writable writable]
  by_cases beyond : (s.elements id).length < i
  · rw [if_pos beyond]
    exact ⟨.inl beyond, rfl, rfl⟩
  rw [if_neg beyond]
  have within : i ≤ (s.elements id).length := Nat.le_of_not_lt beyond
  cases list : (s.elements id).isList with
  | true =>
    obtain ⟨vs, contents⟩ := isList_eq_true.mp list
    rw [contents] at within ⊢
    rw [if_pos rfl]
    have changed (zs : Elements) : Overwritten id zs s (s.setElements id zs) :=
      (Chained.refl s : Extends s s).overwritten there zs
    refine ⟨?_, _, changed _, untouched (changed _), ?_⟩
    · rintro (far | ⟨atomic, -⟩)
      · exact Nat.not_lt_of_le within far
      · cases atomic
    unfold writeChild
    cases null : v.isNull with
    | true =>
      rw [if_pos ⟨rfl, rfl⟩, if_pos rfl]
      exact removed_list
    | false =>
      rw [if_neg fun both => Bool.false_ne_true both.2, if_neg Bool.false_ne_true]
      exact ⟨.list [v], (rfl : Elements.list [v] = .list [v]), written_list s _ within v⟩
  | false =>
    rw [if_neg Bool.false_ne_true]
    by_cases one : ∃ c, v = .vector c ∧ (s.elements c).length = 1
    · obtain ⟨c, rfl, single⟩ := one
      obtain ⟨y, only⟩ := List.length_eq_one_iff.mp ((length_entries _).trans single)
      obtain ⟨t, zs, run, changed, written⟩ := writeAtomic_written there within only
      rw [run]
      refine ⟨?_, zs, changed, untouched changed, ?_⟩
      · rintro (far | ⟨-, none⟩)
        · exact beyond far
        · exact none ⟨c, rfl, single⟩
      · rw [if_neg fun both => Bool.false_ne_true both.1]
        refine ⟨y, ?_, written⟩
        unfold Offers
        rw [list]
        exact ⟨c, rfl, only⟩
    · rw [writeAtomic_rejected beyond one]
      exact ⟨.inr ⟨list, one⟩, rfl, rfl⟩

/-- A list of one is appended to integers: these become vectors in a list, and the list's child goes behind
them as it is. -/
theorem setElement_appends_child :
    let s : Store := { vectors := #[⟨.integer [7], {}, .nonShared⟩, ⟨.list [.missing], {}, .shared⟩] }
    (0 < s.vectors.size ∧ (s.container ⟨0⟩).sharing.isShared = false ∧ Value.vector ⟨1⟩ ≠ .vector ⟨0⟩) ∧
      ∃ t zs, setElement ⟨0⟩ 1 (.vector ⟨1⟩) s = (.ok (), t) ∧ Overwritten ⟨0⟩ zs s t ∧
        Written s t 1 (.integer [7]) (.list [.missing]) zs := by
  intro s
  have there : 0 < s.vectors.size := by decide
  have apart : Value.vector ⟨1⟩ ≠ .vector ⟨0⟩ := by simp
  have contract := setElement_contract (s := s) (i := 1) there rfl apart
  refine ⟨⟨there, rfl, apart⟩, ?_⟩
  rcases run : setElement ⟨0⟩ 1 (.vector ⟨1⟩) s with ⟨f | _, t⟩
  · rw [run] at contract
    obtain ⟨beyond | ⟨-, none⟩, -⟩ := contract
    · exact absurd beyond (by decide)
    · exact absurd ⟨⟨1⟩, rfl, rfl⟩ none
  · rw [run] at contract
    obtain ⟨-, zs, changed, -, written⟩ := contract
    rw [if_neg fun both => Bool.false_ne_true both.1] at written
    obtain ⟨y, ⟨c, same, only⟩, written⟩ := written
    cases same
    cases only
    exact ⟨t, zs, rfl, changed, written⟩

end Write

end Store
end CallByNeed
