import CallByNeed.Interpreter

/-!
The contents of a value: the tree of data and attributes that it stands for in a store, looked into to
any depth. Contents are the same at every depth when the containers they are made of are, and they
differ when an attribute was added to one of them.
-/
namespace CallByNeed

inductive Contents where
  /-- Deeper than was looked. -/
  | beyond
  | plain (v : Value)
  | vector (atoms : Elements) (children : List Contents) (attributes : List (Name × Contents))

/-- The elements that are not values of their own. -/
def Elements.atoms : Elements → Elements
  | .list _ => .list []
  | xs => xs

namespace Store

def contents (s : Store) : Nat → Value → Contents
  | 0, _ => .beyond
  | depth + 1, .vector id =>
    .vector (s.elements id).atoms ((s.elements id).children.map (s.contents depth))
      ((s.container id).attributes.entries.map fun a => (a.1, s.contents depth a.2))
  | _ + 1, v => .plain v

/-- Two values with the same contents, each in its store. -/
def SameContents (s : Store) (v : Value) (t : Store) (w : Value) : Prop :=
  ∀ depth, t.contents depth w = s.contents depth v

/-- The containers that the contents of a value are made of. -/
inductive Reaches (s : Store) : Value → VectorId → Prop
  | self (id : VectorId) : Reaches s (.vector id) id
  | child {id c : VectorId} {v : Value} (member : v ∈ (s.elements id).children)
    (further : Reaches s v c) : Reaches s (.vector id) c
  | attached {id c : VectorId} {a : Name × Value}
    (member : a ∈ (s.container id).attributes.entries) (further : Reaches s a.2 c) :
    Reaches s (.vector id) c

/-- The containers outside of a collection that the contents of a value lead to through containers of it. -/
inductive Meets (s : Store) (kept : VectorId → Prop) : Value → VectorId → Prop
  | self {id : VectorId} (outside : ¬ kept id) : Meets s kept (.vector id) id
  | child {id c : VectorId} {v : Value} (within : kept id) (member : v ∈ (s.elements id).children)
    (further : Meets s kept v c) : Meets s kept (.vector id) c
  | attached {id c : VectorId} {a : Name × Value} (within : kept id)
    (member : a ∈ (s.container id).attributes.entries) (further : Meets s kept a.2 c) :
    Meets s kept (.vector id) c

/-- A container holds the same data and attributes in two stores. -/
def Agrees (s t : Store) (id : VectorId) : Prop :=
  (t.container id).elements = (s.container id).elements ∧
    (t.container id).attributes = (s.container id).attributes

variable {s t : Store}

/-- A container that is not there has neither elements nor attributes. -/
theorem container_outside {id : VectorId} (outside : s.vectors.size ≤ id.index) :
    s.container id = default := by
  unfold container
  rw [Array.getElem?_eq_none outside]
  rfl

theorem shared_inside {s : Store} {id : VectorId} (shared : (s.container id).sharing.isShared) :
    id.index < s.vectors.size := by
  refine Nat.lt_of_not_le fun outside => ?_
  rw [container_outside outside] at shared
  cases shared

theorem inside_of_child {id : VectorId} {v : Value} (member : v ∈ (s.elements id).children) :
    id.index < s.vectors.size := by
  refine Nat.lt_of_not_le fun outside => ?_
  unfold elements at member
  rw [container_outside outside] at member
  cases member

theorem inside_of_attribute {id : VectorId} {a : Name × Value}
    (member : a ∈ (s.container id).attributes.entries) : id.index < s.vectors.size := by
  refine Nat.lt_of_not_le fun outside => ?_
  rw [container_outside outside] at member
  cases member

theorem SameContents.child {id : VectorId} {v : Value} (agrees : s.Agrees t id)
    (same : s.SameContents (.vector id) t (.vector id)) (member : v ∈ (s.elements id).children) :
    s.SameContents v t v := by
  intro depth
  have level := same (depth + 1)
  simp only [contents, Contents.vector.injEq, Store.elements, agrees.1] at level
  exact List.map_inj_left.mp level.2.1 v member

theorem SameContents.attached {id : VectorId} {a : Name × Value} (agrees : s.Agrees t id)
    (same : s.SameContents (.vector id) t (.vector id))
    (member : a ∈ (s.container id).attributes.entries) : s.SameContents a.2 t a.2 := by
  intro depth
  have level := same (depth + 1)
  simp only [contents, Contents.vector.injEq, agrees.2] at level
  exact (Prod.mk.inj (List.map_inj_left.mp level.2.2 a member)).2

/-- Contents are the same if and only if those of the changed containers they lead to are. -/
theorem sameContents_iff_meets {kept : VectorId → Prop} (agree : ∀ c, kept c → s.Agrees t c)
    (v : Value) : s.SameContents v t v ↔
      ∀ c, s.Meets kept v c → s.SameContents (.vector c) t (.vector c) := by
  constructor
  · intro same c meets
    induction meets with
    | self outside => exact same
    | child within member _ ih => exact ih (same.child (agree _ within) member)
    | attached within member _ ih => exact ih (same.attached (agree _ within) member)
  · intro met depth
    induction depth generalizing v with
    | zero => rfl
    | succ depth ih =>
      cases v with
      | vector id =>
        by_cases within : kept id
        · obtain ⟨elements, attributes⟩ := agree id within
          unfold contents Store.elements
          rw [elements, attributes]
          congr 1
          · refine List.map_congr_left fun x member => ih x fun c meets => ?_
            exact met c (.child within member meets)
          · refine List.map_congr_left fun a member => ?_
            rw [ih a.2 fun c meets => met c (.attached within member meets)]
        · exact met id (.self within) (depth + 1)
      | _ => rfl

theorem Meets.reaches {kept : VectorId → Prop} {v : Value} {c : VectorId} (meets : s.Meets kept v c) :
    s.Reaches v c ∧ ¬ kept c := by
  induction meets with
  | self outside => exact ⟨.self _, outside⟩
  | child _ member _ ih => exact ⟨.child member ih.1, ih.2⟩
  | attached _ member _ ih => exact ⟨.attached member ih.1, ih.2⟩

theorem sameContents_of_agrees {v : Value} (agree : ∀ c, s.Reaches v c → s.Agrees t c) :
    s.SameContents v t v := by
  refine (sameContents_iff_meets (fun _ agrees => agrees) v).mpr fun c meets => ?_
  obtain ⟨reaches, changed⟩ := meets.reaches
  exact absurd (agree c reaches) changed

theorem not_sameContents_self {c : VectorId}
    (added : (t.container c).attributes.entries.length ≠ (s.container c).attributes.entries.length) :
    ¬ s.SameContents (.vector c) t (.vector c) := by
  intro same
  have level := same 1
  simp only [contents, Contents.vector.injEq] at level
  have lengths := congrArg List.length level.2.2
  simp only [List.length_map] at lengths
  exact added lengths

/-- Contents differ once an attribute was added to a container they are made of, while the other
containers of the store are as they were. -/
theorem not_sameContents_of_added {v : Value} {c : VectorId} (reaches : s.Reaches v c)
    (others : ∀ id, id ≠ c → id.index < s.vectors.size → s.Agrees t id)
    (added :
      (t.container c).attributes.entries.length ≠ (s.container c).attributes.entries.length) :
    ¬ s.SameContents v t v := by
  -- on the way to the container, the first one met that changed is the container itself
  induction reaches with
  | self id => exact not_sameContents_self added
  | @child id c v member further ih =>
    intro same
    by_cases met : id = c
    · subst met
      exact not_sameContents_self added same
    · have agrees := others id met (inside_of_child member)
      exact ih others added (same.child agrees member)
  | @attached id c a member further ih =>
    intro same
    by_cases met : id = c
    · subst met
      exact not_sameContents_self added same
    · have agrees := others id met (inside_of_attribute member)
      exact ih others added (same.attached agrees member)

end Store
end CallByNeed
