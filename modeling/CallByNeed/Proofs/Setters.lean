import CallByNeed.Proofs.Contents
import CallByNeed.Proofs.Evolution

/-!
The builtins that replace an element, an attribute or the class of a vector. They write into the vector
itself exactly if it is not shared and into a copy otherwise, and spare every other container there is.
-/
namespace CallByNeed

/-- The parts of a vector that can be read and replaced. -/
inductive Accessor where
  | element
  | attributeOf
  | classOf

namespace Accessor

def name : Accessor → Name
  | element => "[["
  | attributeOf => "attr"
  | classOf => "class"

/-- The operation that replaces the part. -/
def operation : Accessor → StrictOp
  | element => .setElement
  | attributeOf => .setAttribute
  | classOf => .setClassOf

def replaceIn : Accessor → Arguments → StoreM Value
  | element => Builtins.setElement
  | attributeOf => Builtins.setAttribute
  | classOf => Builtins.setClassOf

theorem runStrict_operation (a : Accessor) (ev : Evaluator) (c : StrictCall) :
    runStrict ev a.operation c = onStore (a.replaceIn c.args) := by
  cases a <;> rfl

theorem replaceIn_missing (a : Accessor) {args : Arguments} (absent : args.get? "x" 0 = none)
    (s : Store) : a.replaceIn args s = (.error (.missingArgument "x"), s) := by
  cases a with
  | element => exact Builtins.required_absent absent _ s
  | attributeOf => exact Builtins.required_absent absent _ s
  | classOf => exact Builtins.required_absent absent _ s

end Accessor

namespace Store

/-- If a container is there, it stays there with the same data and attributes. -/
def Sparing (c : VectorId) (s t : Store) : Prop :=
  c.index < s.vectors.size → c.index < t.vectors.size ∧ s.Agrees t c

theorem sparing_of_same {c : VectorId} {s t : Store} (size : s.vectors.size ≤ t.vectors.size)
    (same : c.index < s.vectors.size → s.Agrees t c) : Sparing c s t :=
  fun there => ⟨Nat.lt_of_lt_of_le there size, same there⟩

instance (c : VectorId) : Owning (Sparing c) where
  refl _ there := ⟨there, rfl, rfl⟩
  trans first second there := by
    obtain ⟨between, elements, attributes⟩ := first there
    obtain ⟨last, elements', attributes'⟩ := second between
    exact ⟨last, elements'.trans elements, attributes'.trans attributes⟩
  addVector k s := by
    refine sparing_of_same ?_ fun there => ?_
    · simp [addVector]
    · unfold Agrees
      rw [container_addVector, if_neg (Nat.ne_of_lt there)]
      exact ⟨rfl, rfl⟩
  raise f _ v s := by
    cases v with
    | vector d =>
      refine sparing_of_same ?_ fun _ => ?_
      · simp [setSharing, modifyContainer]
      · unfold Agrees
        dsimp only [setSharing]
        rw [container_modify]
        split
        · rename_i found
          rw [found.1]
          exact ⟨rfl, rfl⟩
        · exact ⟨rfl, rfl⟩
    | _ => exact fun there => ⟨there, rfl, rfl⟩

/-- A change of another container spares one. -/
theorem sparing_modify {c id : VectorId} (apart : id ≠ c) (f : Container → Container) (s : Store) :
    Sparing c s (s.modifyContainer id f) := by
  refine sparing_of_same ?_ fun _ => ?_
  · simp [modifyContainer]
  · unfold Agrees
    rw [container_modify, if_neg fun found => apart found.1.symm]
    exact ⟨rfl, rfl⟩

theorem sparing_writes {c id : VectorId} (apart : id ≠ c) : Writes (Sparing c) id :=
  fun f _ s _ _ => sparing_modify apart f s

/-! The container a replacement writes into. -/

theorem shareAll_size (vs : List Value) (s : Store) :
    (s.shareAll vs).vectors.size = s.vectors.size := by
  induction vs generalizing s with
  | nil => rfl
  | cons v rest ih =>
    change ((s.share v).shareAll rest).vectors.size = _
    rw [ih]
    cases v with
    | vector id => simp [share, setSharing, modifyContainer]
    | _ => rfl

/-- The copy of a shared container is a new one. -/
theorem makeMutable_shared {s : Store} {c : VectorId}
    (shared : (s.container c).sharing.isShared) :
    (makeMutable c s).1.index = s.vectors.size := by
  change (Prod.fst ((if (s.container c).sharing.isShared then duplicate c else pure c :
    Alloc VectorId) s)).index = _
  rw [shared]
  exact shareAll_size _ s

/-- How the container to write into is picked: the target itself if it is not shared, else a new one. -/
def Picks (target : Value) (s : Store) (id : VectorId) : Prop :=
  (target = .vector id ∧ (s.container id).sharing.isShared = false) ∨
    (s.vectors.size ≤ id.index ∧ ∀ c, target = .vector c → (s.container c).sharing.isShared)

theorem picks_makeMutable (c : VectorId) (s : Store) : Picks (.vector c) s (makeMutable c s).1 := by
  cases shared : (s.container c).sharing.isShared with
  | false =>
    rw [makeMutable_unshared shared]
    exact .inl ⟨rfl, shared⟩
  | true =>
    refine .inr ⟨Nat.le_of_eq (makeMutable_shared shared).symm, ?_⟩
    intro d same
    cases same
    exact shared

theorem picks_replacementTarget {v : Value} {s : Store} {id : VectorId}
    (picked : (Builtins.replacementTarget v s).1 = .ok id) : Picks v s id := by
  cases v with
  | vector c =>
    cases picked
    exact picks_makeMutable c s
  | null =>
    cases picked
    exact .inr ⟨Nat.le_refl _, nofun⟩
  | _ => cases picked

theorem picks_attributeTarget {v : Value} {s : Store} {id : VectorId}
    (picked : (Builtins.attributeTarget v s).1 = .ok id) : Picks v s id := by
  cases v with
  | vector c =>
    cases picked
    exact picks_makeMutable c s
  | _ => cases picked

theorem Picks.apart {target : Value} {s : Store} {id c : VectorId} (picks : Picks target s id)
    (there : c.index < s.vectors.size)
    (shared : target = .vector c → (s.container c).sharing.isShared) : id ≠ c := by
  intro same
  subst same
  rcases picks with ⟨itself, unshared⟩ | ⟨new, _⟩
  · rw [shared itself] at unshared
    cases unshared
  · omega

theorem Picks.itself_iff {s : Store} {id c : VectorId} (picks : Picks (.vector c) s id) :
    id = c ↔ (s.container c).sharing.isShared = false := by
  rcases picks with ⟨itself, unshared⟩ | ⟨new, shared⟩
  · cases itself
    exact ⟨fun _ => unshared, fun _ => rfl⟩
  · constructor
    · intro same
      subst same
      have there := shared_inside (shared id rfl)
      omega
    · intro unshared
      rw [shared c rfl] at unshared
      cases unshared

/-! The replacements. -/

theorem seq_answer {α β : Type} {m : StoreM α} {f : α → StoreM β} {s : Store} {b : β}
    (answer : ((m >>= f : StoreM β) s).1 = .ok b) :
    ∃ a, (m s).1 = .ok a ∧ (f a (m s).2).1 = .ok b := by
  obtain ⟨a, t, first, rest⟩ := seq_ok (t := ((m >>= f : StoreM β) s).2) (Prod.ext answer rfl)
  exact ⟨a, by rw [first], by rw [first, rest]⟩

/-- What a replacement does to the containers that are there, and what it gives. -/
structure Replacing (target : Value) (s : Store) (r : Except Failure Value × Store) : Prop where
  spares : ∀ c, (target = .vector c → (s.container c).sharing.isShared) → Sparing c s r.2
  inPlace : ∀ c u, target = .vector c → r.1 = .ok u →
    (u = .vector c ↔ (s.container c).sharing.isShared = false)

theorem replacing_failed (target : Value) (s : Store) (f : Failure) :
    Replacing target s (.error f, s) :=
  ⟨fun _ _ => Chained.refl s, nofun⟩

/-- A replacement picks the container to write into, writes into it, and gives it. -/
theorem replacing_picked {target : Value} {pick : StoreM VectorId} {rest : VectorId → StoreM Value}
    (picks : ∀ s id, (pick s).1 = .ok id → Picks target s id)
    (picking : ∀ c, Moves (Sparing c) pick)
    (writing : ∀ id c, id ≠ c → Moves (Sparing c) (rest id))
    (gives : ∀ id s u, (rest id s).1 = .ok u → u = .vector id) (s : Store) :
    Replacing target s ((pick >>= rest : StoreM Value) s) := by
  constructor
  · intro c shared there
    have picked := picking c s
    rw [seq_apply]
    rcases run : pick s with ⟨e | id, t⟩
    · rw [run] at picked
      exact picked there
    · rw [run] at picked
      have apart := (picks s id (by rw [run])).apart there shared
      exact Chained.trans picked (writing id c apart t) there
  · intro c u same answer
    obtain ⟨id, picked, given⟩ := seq_answer answer
    have itself := picks s id picked
    rw [same] at itself
    rw [gives id _ u given, ← itself.itself_iff]
    exact ⟨fun h => by cases h; rfl, fun h => by rw [h]⟩

/-- Every answer of an operation is one value. -/
def Gives (u : Value) (m : StoreM Value) : Prop := ∀ s v, (m s).1 = .ok v → v = u

theorem gives_pure (u : Value) : Gives u (pure u) := by
  intro s v answer
  cases answer
  rfl

theorem gives_seq {α : Type} {u : Value} {m : StoreM α} {f : α → StoreM Value}
    (gives : ∀ a, Gives u (f a)) : Gives u (m >>= f) := by
  intro s v answer
  obtain ⟨a, _, answer⟩ := seq_answer answer
  exact gives a _ v answer

open Builtins in
theorem replacing_replaceIn (a : Accessor) {args : Arguments} {target : Value}
    (given : args.get? "x" 0 = some target) (s : Store) :
    Replacing target s (a.replaceIn args s) := by
  cases a with
  | element =>
    change Replacing target s (Builtins.setElement args s)
    rw [setElement_eq, required_then given]
    cases index : args.required "i" 1 with
    | error f => exact replacing_failed target s f
    | ok i =>
      cases value : args.required "value" 2 with
      | error f => exact replacing_failed target s f
      | ok v =>
        exact replacing_picked (fun _ _ => picks_replacementTarget)
          (fun c => moves_replacementTarget target)
          (fun id c apart => moves_replaceElement (sparing_writes apart) i v)
          (fun id => gives_seq fun _ => gives_seq fun _ => gives_pure _) s
  | attributeOf =>
    change Replacing target s (Builtins.setAttribute args s)
    unfold Builtins.setAttribute
    rw [required_then given]
    exact replacing_picked (fun _ _ => picks_attributeTarget)
      (fun c => moves_attributeTarget target)
      (fun id c apart => moves_read fun _ => moves_seq (moves_except _) fun _ =>
        moves_seq (moves_replaceAttribute (sparing_writes apart) _ _) fun _ => moves_ok _)
      (fun id => gives_seq fun _ => gives_seq fun _ => gives_seq fun _ => gives_pure _) s
  | classOf =>
    change Replacing target s (setClassOf args s)
    unfold setClassOf
    rw [required_then given]
    exact replacing_picked (fun _ _ => picks_attributeTarget)
      (fun c => moves_attributeTarget target)
      (fun id c apart =>
        moves_seq (moves_replaceAttribute (sparing_writes apart) _ _) fun _ => moves_ok _)
      (fun id => gives_seq fun _ => gives_pure _) s

end Store
end CallByNeed
