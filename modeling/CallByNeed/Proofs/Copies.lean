import CallByNeed.Proofs.Handling
import CallByNeed.Proofs.Untouched

/-!
Copies and the containers they hold together with the original. Making a copy gives each of them one
owner more for every place it stands in, so that a container whose sharing state is that of a fresh one
ends shared if it stands in two places, and writable in place if it stands in one. Use of the copy, that
is writes through what is taken from it and made writable, keeps the contents of what the original holds
exactly if there is no such container.
-/
namespace CallByNeed

open Relation (ReflTransGen)

namespace Sharing

/-- Two owners make a container shared, counting from the state it has. -/
theorem isShared_promotions (s : Sharing) (owners : Nat) :
    (promoted^[owners] s).isShared = true ↔ shared.rank ≤ s.rank + owners := by
  induction owners generalizing s with
  | zero => exact isShared_iff s
  | succ owners ih =>
    rw [Function.iterate_succ_apply, ih]
    cases s <;> simp [promoted, rank] <;> omega

end Sharing

theorem Container.held_sharing (c : Container) (state : Sharing) :
    ({ c with sharing := state } : Container).held = c.held := rfl

/-- The number of places in which a container holds another. -/
def Container.places (c : Container) (k : VectorId) : Nat := c.held.countP (·.vector? = some k)

theorem Container.places_pos_iff {c : Container} {k : VectorId} :
    0 < c.places k ↔ .vector k ∈ c.held := by
  unfold places
  rw [List.countP_pos_iff]
  constructor
  · rintro ⟨v, held, same⟩
    cases v with
    | vector other =>
      cases of_decide_eq_true same
      exact held
    | _ => cases of_decide_eq_true same
  · intro held
    exact ⟨_, held, by simp [Value.vector?]⟩

namespace Store

variable {s t : Store} {id k w : VectorId}

theorem share_container (v : Value) (there : k.index < s.vectors.size) :
    (s.share v).container k = { s.container k with
      sharing := if v.vector? = some k then (s.container k).sharing.promoted
        else (s.container k).sharing } := by
  cases v with
  | vector c =>
    unfold share setSharing
    dsimp only
    rw [container_modify]
    by_cases same : k = c
    · subst same
      simp [there, Value.vector?]
    · simp [same, Ne.symm same, Value.vector?]
  | _ => rfl

/-- Each value of a list is one owner more of the container it is. -/
theorem shareAll_container (vs : List Value) (there : k.index < s.vectors.size) :
    (s.shareAll vs).container k = { s.container k with
      sharing := Sharing.promoted^[vs.countP (·.vector? = some k)] (s.container k).sharing } := by
  induction vs generalizing s with
  | nil => rfl
  | cons v rest ih =>
    have size : (s.share v).vectors.size = s.vectors.size := shareAll_size [v] s
    change ((s.share v).shareAll rest).container k = _
    rw [ih (size ▸ there), share_container v there, List.countP_cons]
    by_cases same : v.vector? = some k
    · simp [same, Function.iterate_succ_apply]
    · simp [same]

theorem duplicate_apply (id : VectorId) (s : Store) :
    duplicate id s = (⟨s.vectors.size⟩,
      (addVector { s.container id with sharing := .temporary } (s.shareAll (s.container id).held)).2) := by
  have size := shareAll_size (s.container id).held s
  change ((⟨(s.shareAll (s.container id).held).vectors.size⟩ : VectorId), _) = _
  rw [size]
  rfl

/-- The copy is new and temporary, and holds what the original holds. -/
theorem duplicate_copy (id : VectorId) (s : Store) :
    (duplicate id s).2.container (duplicate id s).1 = { s.container id with sharing := .temporary } := by
  rw [duplicate_apply, container_addVector, if_pos (shareAll_size _ s).symm]

/-- All other containers are as they were, other than that those held gained an owner for each place. -/
theorem duplicate_container (id : VectorId) (there : k.index < s.vectors.size) :
    (duplicate id s).2.container k = { s.container k with
      sharing := Sharing.promoted^[(s.container id).places k] (s.container k).sharing } := by
  rw [duplicate_apply, container_addVector, shareAll_size, if_neg (Nat.ne_of_lt there),
    shareAll_container _ there]
  rfl

theorem duplicate_size (id : VectorId) (s : Store) :
    (duplicate id s).2.vectors.size = s.vectors.size + 1 := by
  rw [duplicate_apply]
  simp [addVector, shareAll_size]

/-- A container that is held is shared after the copy was made, unless it was temporary and stands in one
place only. -/
theorem duplicate_shares_iff (there : k.index < s.vectors.size)
    (held : .vector k ∈ (s.container id).held) :
    ((duplicate id s).2.container k).sharing.isShared ↔
      ¬ ((s.container k).sharing = .temporary ∧ (s.container id).places k = 1) := by
  have places := Container.places_pos_iff.mpr held
  rw [duplicate_container id there]
  dsimp only
  rw [Sharing.isShared_promotions]
  cases (s.container k).sharing <;> simp [Sharing.rank] <;> omega

/-! Use of a copy. -/

/-- One step in the use of a copy `w`: something it holds is taken from it, adjusted to it as its owner
and made writable; what was made writable is written to; or some value gains an owner. The list is of the
containers made writable so far. A write that fails is a step as well. -/
inductive Use (w : VectorId) : Store × List VectorId → Store × List VectorId → Prop
  | take {k : VectorId} (s : Store) (writable : List VectorId)
    (held : .vector k ∈ (s.container w).held) : Use w (s, writable)
      ((makeMutable k (s.adjustChild (.vector w) (.vector k))).2,
        (makeMutable k (s.adjustChild (.vector w) (.vector k))).1 :: writable)
  | setElement {m : VectorId} (s : Store) (writable : List VectorId) (taken : m ∈ writable) (i : Nat)
    (v : Value) : Use w (s, writable) ((Store.setElement m i v s).2, writable)
  | setAttribute {m : VectorId} (s : Store) (writable : List VectorId) (taken : m ∈ writable)
    (name : Name) (v : Option Value) :
    Use w (s, writable) ((Store.setAttribute m name v s).2, writable)
  | share (s : Store) (writable : List VectorId) (v : Value) : Use w (s, writable) (s.share v, writable)

abbrev Uses (w : VectorId) : Store × List VectorId → Store × List VectorId → Prop := ReflTransGen (Use w)

/-- The changes of a store in which containers are made, gain owners, or are written to if they are not
among the first `n`. What was shared stays so. -/
def Later (n : Nat) (s t : Store) : Prop :=
  (∀ c, c.index < n → Sparing c s t) ∧
    ∀ c, (s.container c).sharing.isShared → (t.container c).sharing.isShared

instance (n : Nat) : Owning (Later n) where
  refl s := ⟨fun c _ => Chained.refl (R := Sparing c) s, fun _ shared => shared⟩
  trans first second := ⟨fun c old => Chained.trans (first.1 c old) (second.1 c old),
    fun c shared => second.2 c (first.2 c shared)⟩
  addVector c s := ⟨fun _ _ => Owning.addVector c s, fun d shared => (Frozen.addVector c s 0 d shared).1⟩
  raise f up v s :=
    ⟨fun _ _ => Owning.raise f up v s, fun d shared => (Frozen.raise up v s 0 d shared).1⟩

theorem later_writes {n : Nat} {m : VectorId} (new : n ≤ m.index) : Writes (Later n) m := by
  intro f _ s unshared _
  refine ⟨fun c old => sparing_modify (fun same => ?_) f s,
    fun d shared => (Frozen.write unshared 0 d shared).1⟩
  rw [same] at new
  omega

/-- What use of a copy keeps while all it holds is shared: whatever is made writable is a new copy, so
what was there when the first copy was made is not written to. -/
structure Isolated (t : Store) (u : Store × List VectorId) : Prop where
  later : Later t.vectors.size t u.1
  newer : ∀ m ∈ u.2, t.vectors.size ≤ m.index

theorem Isolated.step {a b : Store × List VectorId} (last : w.index + 1 = t.vectors.size)
    (all : ∀ k, .vector k ∈ (t.container w).held → (t.container k).sharing.isShared)
    (isolated : Isolated t a) (use : Use w a b) : Isolated t b := by
  have inside : w.index < t.vectors.size := by omega
  obtain ⟨later, newer⟩ := isolated
  cases use with
  | @take k s writable held =>
    obtain ⟨there, elements, attributes⟩ := later.1 w inside inside
    have same : (s.container w).held = (t.container w).held := by
      unfold Container.held
      rw [elements, attributes]
    have adjusted : Later t.vectors.size s (s.adjustChild (.vector w) (.vector k)) :=
      adjustChild_moves _ _ s
    have shared := adjusted.2 k (later.2 k (all k (same ▸ held)))
    refine ⟨Chained.trans later (Chained.trans adjusted (moves_makeMutable k _)), fun m member => ?_⟩
    rcases List.mem_cons.mp member with rfl | old
    · have size := (adjusted.1 w inside there).1
      rw [makeMutable_shared shared]
      omega
    · exact newer m old
  | setElement s writable taken i v =>
    exact ⟨Chained.trans later (moves_setElement (later_writes (newer _ taken)) i v s), newer⟩
  | setAttribute s writable taken name v =>
    exact ⟨Chained.trans later (moves_setAttribute (later_writes (newer _ taken)) name v s), newer⟩
  | share s writable v => exact ⟨Chained.trans later (share_moves v s), newer⟩

theorem Isolated.run {b : Store × List VectorId} (last : w.index + 1 = t.vectors.size)
    (all : ∀ k, .vector k ∈ (t.container w).held → (t.container k).sharing.isShared)
    (uses : Uses w (t, []) b) : Isolated t b := by
  induction uses with
  | refl => exact ⟨Chained.refl t, nofun⟩
  | tail _ use ih => exact ih.step last all use

theorem reaches_of_held {v : Value} {c : VectorId} (held : v ∈ (s.container id).held)
    (further : s.Reaches v c) : s.Reaches (.vector id) c := by
  rcases List.mem_append.mp held with child | attached
  · exact .child child further
  · obtain ⟨a, member, rfl⟩ := List.mem_map.mp attached
    exact .attached member further

/-- An owner that is temporary leaves its children as they are. -/
theorem adjustChild_temporary (v : Value) (temporary : (s.container w).sharing = .temporary) :
    s.adjustChild (.vector w) v = s := by
  cases v with
  | vector k =>
    unfold adjustChild
    dsimp only
    split
    · rfl
    · have same : s.modifyContainer k (fun c => { c with
          sharing := Sharing.childOf (s.container w).sharing c.sharing }) =
          s.modifyContainer k fun c => c := by
        refine modifyContainer_congr ?_
        simp [Sharing.childOf, temporary]
      refine same.trans ?_
      unfold modifyContainer
      congr 1
      apply Array.ext_getElem?
      intro i
      rw [Array.getElem?_modify]
      simp
  | _ => rfl

/-- What the copy holds and is not shared can be written to through the copy. -/
theorem exists_use {k : VectorId} (inside : k.index < t.vectors.size)
    (temporary : (t.container w).sharing = .temporary) (held : .vector k ∈ (t.container w).held)
    (unshared : (t.container k).sharing.isShared = false) :
    ∃ u writable, Uses w (t, []) (u, writable) ∧ ¬ t.SameContents (.vector k) u (.vector k) := by
  obtain ⟨name, fresh⟩ := exists_fresh_name (t.container k).attributes
  have taken := Use.take (w := w) t [] held
  rw [adjustChild_temporary _ temporary, makeMutable_unshared unshared] at taken
  refine ⟨_, _, .tail (.single taken) (.setAttribute t [k] (List.mem_singleton.mpr rfl) name
    (some (.vector k))), not_sameContents_self ?_⟩
  rw [setAttribute_apply, unshared, if_neg Bool.false_ne_true, container_modify, if_pos ⟨rfl, inside⟩]
  change (Table.insert (t.container k).attributes name (.vector k)).entries.length ≠ _
  rw [Table.length_insert_fresh fresh]
  exact Nat.succ_ne_self _

/-- The contents of a vector whose containers are all there, in a store where all that is there is as it
was. -/
theorem sameContents_of_spares {v : Value} (bounded : ∀ c, s.Reaches v c → c.index < s.vectors.size)
    (spares : ∀ c, c.index < s.vectors.size → Sparing c s t) : s.SameContents v t v :=
  sameContents_of_agrees fun c reaches => (spares c (bounded c reaches) (bounded c reaches)).2

/-- A copy is a new temporary container that holds what the original holds. What both hold is shared from
then on, other than a container that was temporary and stands in one place only. There is no such
container exactly if every use of the copy keeps the contents of all that the original holds. -/
theorem copy_isolates_iff (s : Store) (id : VectorId)
    (bounded : ∀ c, s.Reaches (.vector id) c → c.index < s.vectors.size) :
    let w := (duplicate id s).1
    let t := (duplicate id s).2
    let held := (s.container id).held
    t.container w = { s.container id with sharing := .temporary } ∧
    (∀ c, c.index < s.vectors.size → t.container c = { s.container c with
      sharing := Sharing.promoted^[(s.container id).places c] (s.container c).sharing }) ∧
    (∀ k, .vector k ∈ held → ((t.container k).sharing.isShared ↔
      ¬ ((s.container k).sharing = .temporary ∧ (s.container id).places k = 1))) ∧
    ((∀ k, .vector k ∈ held →
        ¬ ((s.container k).sharing = .temporary ∧ (s.container id).places k = 1)) ↔
      ∀ u writable, Uses w (t, []) (u, writable) → ∀ v ∈ held, s.SameContents v u v) := by
  intro w t held
  have inside (k : VectorId) (member : .vector k ∈ held) : k.index < s.vectors.size :=
    bounded k (reaches_of_held member (.self k))
  have shares (k : VectorId) (member : .vector k ∈ held) := duplicate_shares_iff (inside k member) member
  have copied : t.container w = { s.container id with sharing := .temporary } := duplicate_copy id s
  have size : t.vectors.size = s.vectors.size + 1 := duplicate_size id s
  have grown : Later s.vectors.size s t := moves_duplicate id s
  have contents {u : Store} (spares : ∀ c, c.index < s.vectors.size → Sparing c t u) (v : Value)
      (member : v ∈ held) : s.SameContents v u v :=
    sameContents_of_spares (fun c reaches => bounded c (reaches_of_held member reaches)) fun c there =>
      Chained.trans (grown.1 c there) (spares c there)
  have same : (t.container w).held = held := by
    rw [copied, Container.held_sharing]
  refine ⟨copied, fun c there => duplicate_container id there, shares, ?_, ?_⟩
  · intro owned u writable uses
    have last : w.index + 1 = t.vectors.size := by
      rw [size]
      exact congrArg (fun r => r.1.index + 1) (duplicate_apply id s)
    have isolated := Isolated.run last
      (fun k member => (shares k (same ▸ member)).mpr (owned k (same ▸ member))) uses
    exact contents fun c there => isolated.later.1 c (by omega)
  · intro stable k member single
    have unshared : (t.container k).sharing.isShared = false :=
      Bool.eq_false_iff.mpr fun shared => (shares k member).mp shared single
    have there : k.index < t.vectors.size := Nat.lt_trans (inside k member) (by omega)
    obtain ⟨u, writable, uses, changed⟩ :=
      exists_use there (by rw [copied]) (same.symm ▸ member) unshared
    refine changed fun depth => ?_
    have before := contents (fun c _ => Chained.refl (R := Sparing c) t) _ member depth
    exact (stable u writable uses _ member depth).trans before.symm

/-- Whether all containers that are held are there. -/
def holdsOnlyPresent (s : Store) : Bool :=
  s.vectors.all fun c => c.held.all fun v => v.vector?.all (·.index < s.vectors.size)

theorem present_of_held {v : Value} (closed : s.holdsOnlyPresent)
    (held : v ∈ (s.container id).held) : v.vector?.all (·.index < s.vectors.size) := by
  by_cases there : id.index < s.vectors.size
  · have found : s.container id = s.vectors[id.index] := by
      unfold container
      simp [there]
    rw [found] at held
    exact List.all_eq_true.mp (Array.all_eq_true.mp closed id.index there) v held
  · rw [container_outside (Nat.le_of_not_lt there)] at held
    cases held

/-- Contents lead to nothing that is not there. -/
theorem reaches_present {v : Value} {c : VectorId} (closed : s.holdsOnlyPresent)
    (reaches : s.Reaches v c) (start : v.vector?.all (·.index < s.vectors.size)) :
    c.index < s.vectors.size := by
  induction reaches with
  | self id => simpa [Value.vector?] using start
  | @child id _ v member _ ih =>
    exact ih (present_of_held closed (List.mem_append_left _ member))
  | @attached id _ a member _ ih =>
    exact ih (present_of_held closed (List.mem_append_right _ (List.mem_map_of_mem member)))

end Store

namespace Session

/-- A session in which two variables are bound to one list with names. -/
def copiedList : Session :=
  let list : Expr := .call ⟨2⟩ (.symbol ⟨1⟩ "list") [⟨some "a", .constant ⟨3⟩ .null⟩]
  let bound := (evalIn (.assign ⟨4⟩ (.symbol ⟨0⟩ "x") list false) global (start {})).2
  (evalIn (.assign ⟨7⟩ (.symbol ⟨5⟩ "y") (.symbol ⟨6⟩ "x") false) global bound).2

set_option maxRecDepth 10000 in
/-- The names of a list are temporary, so the copy that is made for a writer of one of its two variables
has them in common with the list of the other one, open to be written to. -/
theorem copied_names_writable :
    let s := copiedList.store
    let w := (Store.duplicate ⟨11⟩ s).1
    let t := (Store.duplicate ⟨11⟩ s).2
    (s.container ⟨11⟩).sharing = .shared ∧ (s.container ⟨10⟩).sharing = .temporary ∧
      (∀ c, s.Reaches (.vector ⟨11⟩) c → c.index < s.vectors.size) ∧
      .vector ⟨10⟩ ∈ (s.container ⟨11⟩).held ∧ .vector ⟨10⟩ ∈ (t.container w).held ∧
      (t.container ⟨10⟩).sharing.isShared = false ∧
      ∃ u writable, Store.Uses w (t, []) (u, writable) ∧
        ∃ v ∈ (s.container ⟨11⟩).held, ¬ s.SameContents v u v := by
  intro s w t
  have closed : s.holdsOnlyPresent := by decide +kernel
  have bounded (c : VectorId) (reaches : s.Reaches (.vector ⟨11⟩) c) : c.index < s.vectors.size :=
    Store.reaches_present closed reaches (by decide +kernel)
  have single : (s.container ⟨10⟩).sharing = .temporary ∧ (s.container ⟨11⟩).places ⟨10⟩ = 1 := by
    decide +kernel
  have held : .vector ⟨10⟩ ∈ (s.container ⟨11⟩).held :=
    Container.places_pos_iff.mp (by rw [single.2]; exact Nat.one_pos)
  obtain ⟨copied, _, shares, isolates⟩ := Store.copy_isolates_iff s ⟨11⟩ bounded
  refine ⟨by decide +kernel, single.1, bounded, held, by rwa [copied, Container.held_sharing], ?_, ?_⟩
  · exact Bool.eq_false_iff.mpr fun shared => (shares ⟨10⟩ held).mp shared single
  · refine Classical.byContradiction fun none => ?_
    refine isolates.mpr (fun u writable uses v member => ?_) ⟨10⟩ held single
    refine Classical.byContradiction fun changed => none ⟨u, writable, uses, v, member, changed⟩

end Session
end CallByNeed
