import CallByNeed.Proofs.Frozen

/-!
Class chains in the course of evaluations. A vector that is written to in place is converted upwards only, and
none but a list gets shorter, so a class chain keeps its length or gets longer, as long as it is one of names.
The chains made for values without a class of their own are shared and stay as they are, so there is a class to
every value.
-/
namespace CallByNeed

/-- The contents of each vector have been widened. -/
def Widening (l m : Ledger) : Prop := ∀ id, (l.store.elements id).Widens (m.store.elements id)

namespace Widening

theorem of_container {s t : Store} (same : ∀ id, (t.container id).elements = (s.container id).elements)
    (n : Nat) : Widening ⟨s, n⟩ ⟨t, n⟩ := by
  intro id
  unfold Store.elements
  rw [same id]
  exact .refl _

theorem of_same {s t : Store} (same : t.vectors = s.vectors) (n : Nat) : Widening ⟨s, n⟩ ⟨t, n⟩ :=
  of_container (fun id => by unfold Store.container; rw [same]) n

theorem addVector (c : Container) (s : Store) (n : Nat) : Widening ⟨s, n⟩ ⟨(Store.addVector c s).2, n⟩ := by
  intro id
  unfold Store.elements
  dsimp only
  rw [Store.container_addVector]
  split
  · rename_i new
    -- Nothing is known of an id without a vector.
    have none : s.container id = default := by
      rw [Store.container, Array.getElem?_eq_none (Nat.le_of_eq new.symm)]
      rfl
    rw [none]
    exact ⟨Nat.zero_le _, .inl (Nat.zero_le _)⟩
  · exact .refl _

theorem raise (f : Sharing → Sharing) (v : Value) (s : Store) (n : Nat) :
    Widening ⟨s, n⟩ ⟨s.setSharing f v, n⟩ := by
  cases v with
  | vector c =>
    refine of_container (fun id => ?_) n
    unfold Store.setSharing
    rw [Store.container_modify]
    split
    · rename_i found
      rw [found.1]
    · rfl
  | _ => exact of_same rfl n

theorem write {f : Container → Container} {s : Store} {c : VectorId}
    (wider : (s.elements c).Widens (f (s.container c)).elements) (n : Nat) :
    Widening ⟨s, n⟩ ⟨s.modifyContainer c f, n⟩ := by
  intro id
  change (s.elements id).Widens ((s.modifyContainer c f).container id).elements
  rw [Store.container_modify]
  split
  · rename_i found
    rw [found.1]
    exact wider
  · exact .refl _

instance : Indifferent Widening where
  refl _ _ := .refl _
  trans first second id := (first id).trans (second id)
  evolution := {
    refl := fun _ _ _ => .refl _
    trans := fun first second n id => (first n id).trans (second n id)
    addVector := addVector
    addDots := fun _ _ => of_same rfl
    freshNode := fun _ => of_same rfl
    closure := fun _ _ _ => of_same rfl
    evaluatedPromise := fun _ _ _ _ => of_same rfl
    lazyPromise := fun _ _ _ _ _ => of_same rfl
    raise := fun f _ => raise f
    write := fun _ _ _ _ _ wider => write wider }
  eagerPromise _ _ _ _ _ := of_same rfl
  distrust site s := of_same (Frozen.distrust_vectors site s)
  life _ _ _ := of_same rfl
  uncounted _ _ _ _ := .refl _

/-- A class chain that still is one has not got shorter. -/
theorem classNames {l m : Ledger} (widening : Widening l m) (chain : VectorId) :
    m.store.classNames chain = [] ∨
      (l.store.classNames chain).length ≤ (m.store.classNames chain).length := by
  obtain ⟨rank, length⟩ := widening chain
  unfold Store.classNames
  cases before : l.store.elements chain with
  | character xs =>
    cases after : m.store.elements chain with
    | character ys =>
      rw [before, after] at length
      exact .inr (length.resolve_right nofun)
    | _ => exact .inl rfl
  | _ => exact .inr (Nat.zero_le _)

end Widening

/-- The class chains made for values without a class of their own. -/
def ImplicitClasses.chains (c : ImplicitClasses) : List VectorId :=
  [c.logical, c.integer, c.double, c.character, c.list, c.function, c.null, c.environment, c.language, c.missing]

theorem ImplicitClasses.ofValue_mem (c : ImplicitClasses) (s : Store) (v : Value) : c.ofValue s v ∈ c.chains := by
  unfold ofValue ofElements chains
  split
  · split <;> simp
  all_goals simp

namespace Session

/-- The class chains of values without a class of their own are shared and name classes. -/
def Classed (s : Session) : Prop :=
  ∀ id ∈ s.implicit.chains, (s.store.container id).sharing.isShared ∧ s.store.classNames id ≠ []

/-- What is shared has stayed as it was, and the chains in use are the same. -/
structure Undisturbed (s t : Session) : Prop where
  implicit : t.implicit = s.implicit := by rfl
  frozen : Frozen s.ledger t.ledger

variable {s t : Session}

theorem Undisturbed.of_same (store : t.store = s.store) (implicit : t.implicit = s.implicit) :
    s.Undisturbed t := by
  refine ⟨implicit, ?_⟩
  intro id shared
  change (t.store.container id).sharing.isShared ∧ s.store.Agrees t.store id
  rw [store]
  exact ⟨shared, rfl, rfl⟩

theorem Classed.undisturbed (classed : s.Classed) (undisturbed : s.Undisturbed t) : t.Classed := by
  intro id member
  rw [undisturbed.implicit] at member
  obtain ⟨shared, names⟩ := classed id member
  obtain ⟨still, elements, -⟩ := undisturbed.frozen id shared
  refine ⟨still, ?_⟩
  unfold Store.classNames Store.elements at names ⊢
  exact elements ▸ names

/-- There is a class to every value. -/
theorem Classed.classNames_ne_nil (classed : s.Classed) (v : Value) : s.store.classNames (s.classOf v) ≠ [] := by
  unfold classOf Store.classOf
  cases own : s.store.explicitClass? v with
  | none => exact (classed _ (s.implicit.ofValue_mem s.store v)).2
  | some chain =>
    obtain ⟨id, -, known⟩ := Option.bind_eq_some_iff.mp own
    unfold Store.classAttribute? at known
    split at known
    · split at known
      · rename_i held
        cases known
        rw [Option.getD_some, Store.classNames, held]
        exact List.cons_ne_nil _ _
      · cases known
    · cases known

theorem classed_start (options : Options) : (start options).Classed := by
  have store : (start options).store = (ImplicitClasses.make {}).2 := rfl
  have implicit : (start options).implicit = (ImplicitClasses.make {}).1 := rfl
  unfold Classed
  rw [store, implicit]
  decide +kernel

end Session
end CallByNeed
