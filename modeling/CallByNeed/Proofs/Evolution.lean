import CallByNeed.Proofs.Parts

/-!
What operations on the store keep. A relation between stores that holds across each primitive change
holds across every builtin and every loading of code, since these are made of primitive changes. An
in-place write counts as primitive only where the container written is not shared.
-/
namespace CallByNeed

/-! What in-place writes make of contents. -/

namespace Elements

/-- Contents are converted upwards only, and none but those of lists get shorter. -/
def Widens (xs ys : Elements) : Prop := xs.rank ≤ ys.rank ∧ (xs.length ≤ ys.length ∨ ys.isList)

theorem isList_iff_rank (xs : Elements) : xs.isList = true ↔ xs.rank = listRank := by
  cases xs <;> simp [isList, Elements.rank, listRank]

theorem rank_le_listRank (xs : Elements) : xs.rank ≤ listRank := by
  cases xs <;> simp [Elements.rank, listRank]

theorem Widens.refl (xs : Elements) : xs.Widens xs := ⟨Nat.le_refl _, .inl (Nat.le_refl _)⟩

theorem Widens.trans {xs ys zs : Elements} (first : xs.Widens ys) (second : ys.Widens zs) : xs.Widens zs := by
  refine ⟨Nat.le_trans first.1 second.1, ?_⟩
  rcases second.2 with longer | list
  · refine first.2.imp (Nat.le_trans · longer) fun list => ?_
    -- What is a list already stays one.
    rw [isList_iff_rank] at list ⊢
    exact Nat.le_antisymm zs.rank_le_listRank (list ▸ second.1)
  · exact .inr list

theorem widens_list (xs : Elements) {ys : Elements} (list : ys.isList) : xs.Widens ys :=
  ⟨(isList_iff_rank ys).mp list ▸ xs.rank_le_listRank, .inr list⟩

theorem rank_widen {xs : Elements} {rank : Nat} (le : xs.rank ≤ rank) (atomic : rank < listRank) :
    (xs.widen rank).rank = rank := by
  unfold widen
  split
  · omega
  · have cases : rank = 1 ∨ rank = 2 ∨ rank = 3 := by
      unfold listRank at atomic
      omega
    rcases cases with rfl | rfl | rfl <;> cases xs <;> simp_all [Elements.rank]

theorem length_widen (xs : Elements) (rank : Nat) : (xs.widen rank).length = xs.length := by
  unfold widen
  split
  · rfl
  · split
    · simp [Elements.length]
    · simp [Elements.length]
    · simp [Elements.length]
    · cases xs <;> simp [Elements.length, Elements.texts]

theorem length_le_write {α : Type} (xs : List α) (i : Nat) (x : α) : xs.length ≤ (write xs i x).length := by
  unfold write
  split <;> simp

theorem rank_writeFirst {xs ys zs : Elements} {i : Nat} (written : xs.writeFirst i ys = some zs) :
    zs.rank = xs.rank := by
  unfold writeFirst at written
  split at written <;> cases written <;> rfl

theorem widens_writeFirst {xs ys zs : Elements} {i : Nat} (written : xs.writeFirst i ys = some zs) :
    xs.Widens zs := by
  refine ⟨Nat.le_of_eq (rank_writeFirst written).symm, .inl ?_⟩
  unfold writeFirst at written
  split at written <;> cases written <;> exact length_le_write _ _ _

end Elements

namespace Store

variable {R : Store → Store → Prop} {α β : Type}

/-- Every run of an operation leads from a store to one related to it. -/
def Moves (R : Store → Store → Prop) (m : Alloc α) : Prop := ∀ s, R s (m s).2

class Chained (R : Store → Store → Prop) : Prop where
  refl (s : Store) : R s s
  trans {s t u : Store} : R s t → R t u → R s u

/-- Relations that hold across the making of a fresh vector. -/
class Allocating (R : Store → Store → Prop) : Prop extends Chained R where
  vector (xs : Elements) (s : Store) : R s (vector xs s).2

/-- Relations that hold across the making of containers and across a rise of their sharing states. -/
class Owning (R : Store → Store → Prop) : Prop extends Chained R where
  addVector (c : Container) (s : Store) : R s (addVector c s).2
  raise (f : Sharing → Sharing) (up : ∀ x, x.rank ≤ (f x).rank) (v : Value) (s : Store) :
    R s (s.setSharing f v)

instance [Owning R] : Allocating R where
  vector xs := Owning.addVector ⟨xs, {}, .temporary⟩

/-- A relation holds across in-place writes into a container, while that is not shared. -/
def Writes (R : Store → Store → Prop) (id : VectorId) : Prop :=
  ∀ f : Container → Container, (∀ c, (f c).sharing = c.sharing) →
    ∀ s, (s.container id).sharing.isShared = false →
      (s.elements id).Widens (f (s.container id)).elements → R s (s.modifyContainer id f)

/-- Relations that hold across the primitive changes of a store, other than those that early evaluation
makes and those in the life of a promise that exists. -/
class Evolution (R : Store → Store → Prop) : Prop extends Owning R where
  addDots (d : Dots) (s : Store) : R s (addDots d s).2
  freshNode (s : Store) : R s (freshNode s).2
  closure (f : Function) (env : EnvId) (s : Store) : R s (closure f env s).2
  evaluatedPromise (e : Expr) (v : Value) (origin : Origin) (s : Store) :
    R s (evaluatedPromise e v origin s).2
  lazyPromise (e : Expr) (env : EnvId) (origin : Origin) (caller : RecordId) (s : Store) :
    R s (lazyPromise e env origin caller s).2
  write (id : VectorId) : Writes R id

/-- Changes of a store that a property does not look at. -/
theorem evolution_true : Evolution fun _ _ => True where
  refl _ := trivial
  trans _ _ := trivial
  addVector _ _ := trivial
  raise _ _ _ _ := trivial
  addDots _ _ := trivial
  freshNode _ := trivial
  closure _ _ _ := trivial
  evaluatedPromise _ _ _ _ := trivial
  lazyPromise _ _ _ _ _ := trivial
  write _ _ _ _ _ _ := trivial

theorem moves_map {m : Alloc α} (f : α → β) (moves : Moves R m) : Moves R (f <$> m) := moves

theorem moves_get {f : Store → Alloc α} (moves : ∀ s, Moves R (f s)) : Moves R (get >>= f) :=
  fun s => moves s s

theorem moves_lift {m : Alloc α} (moves : Moves R m) : Moves R (liftM m : StoreM α) := moves

theorem moves_modify {f : Store → Store} (moves : ∀ s, R s (f s)) :
    Moves R (modify f : StoreM Unit) := moves

theorem moves_read {f : Store → StoreM α} (moves : ∀ s, Moves R (f s)) :
    Moves R (get >>= f : StoreM α) := fun s => moves s s

section Chained
variable [Chained R]

theorem moves_pure (a : α) : Moves R (pure a : Alloc α) := Chained.refl

theorem moves_bind {m : Alloc α} {f : α → Alloc β} (first : Moves R m)
    (rest : ∀ a, Moves R (f a)) : Moves R (m >>= f) :=
  fun s => Chained.trans (first s) (rest (m s).1 (m s).2)

theorem moves_mapM {f : α → Alloc β} (moves : ∀ a, Moves R (f a)) (xs : List α) :
    Moves R (xs.mapM f) := by
  induction xs with
  | nil => exact moves_pure []
  | cons x rest ih =>
    rw [List.mapM_cons]
    exact moves_bind (moves x) fun _ => moves_bind ih fun _ => moves_pure _

/-! Operations that may fail. What they did before failing stays done. -/

theorem moves_ok (a : α) : Moves R (pure a : StoreM α) := Chained.refl

theorem moves_throw (f : Failure) : Moves R (throw f : StoreM α) := Chained.refl

theorem moves_except (r : Except Failure α) : Moves R (liftM r : StoreM α) := by
  cases r with
  | ok a => exact moves_ok a
  | error f => exact moves_throw f

theorem seq_apply (m : StoreM α) (f : α → StoreM β) (s : Store) :
    (m >>= f : StoreM β) s = match m s with
      | (.ok a, t) => f a t
      | (.error e, t) => (.error e, t) := by
  change ExceptT.bindCont f (m s).1 (m s).2 = _
  rcases m s with ⟨a | a, t⟩ <;> rfl

/-- A computation that gave a value has first given one, and then gone on with it. -/
theorem seq_ok {m : StoreM α} {f : α → StoreM β} {s t : Store} {b : β}
    (ok : (m >>= f : StoreM β) s = (.ok b, t)) : ∃ a u, m s = (.ok a, u) ∧ f a u = (.ok b, t) := by
  rw [seq_apply] at ok
  rcases run : m s with ⟨e | a, u⟩
  · rw [run] at ok
    cases ok
  · rw [run] at ok
    exact ⟨a, u, rfl, ok⟩

theorem read_apply (f : Store → StoreM α) (s : Store) : (get >>= f : StoreM α) s = f s s := rfl

theorem lifted_apply (a : α) (f : α → StoreM β) (s : Store) :
    ((liftM (pure a : Alloc α) : StoreM α) >>= f) s = f a s := rfl

/-- What follows need only move for the values that come first. -/
theorem moves_seq_of {P : α → Prop} {m : StoreM α} {f : α → StoreM β} (first : Moves R m)
    (made : ∀ s a, (m s).1 = .ok a → P a) (rest : ∀ a, P a → Moves R (f a)) :
    Moves R (m >>= f : StoreM β) := by
  intro s
  have reached := first s
  rw [seq_apply]
  rcases run : m s with ⟨e | a, t⟩
  · simpa only [run] using reached
  · rw [run] at reached
    exact Chained.trans reached (rest a (made s a (congrArg Prod.fst run)) t)

theorem moves_seq {m : StoreM α} {f : α → StoreM β} (first : Moves R m)
    (rest : ∀ a, Moves R (f a)) : Moves R (m >>= f : StoreM β) :=
  moves_seq_of (P := fun _ => True) first (fun _ _ _ => trivial) fun a _ => rest a

/-- What stands behind a check moves as it does after the check. -/
theorem moves_unless (bad : Prop) [Decidable bad] (f : Failure) {k : Unit → StoreM α}
    (moves : ∀ u, Moves R (k u)) :
    Moves R (if bad then (throw f : StoreM Unit) >>= k else k () : StoreM α) := by
  split
  · exact moves_seq (moves_throw (α := Unit) f) moves
  · exact moves ()

theorem moves_mapAll {f : α → StoreM β} (moves : ∀ a, Moves R (f a)) (xs : List α) :
    Moves R (xs.mapM f : StoreM (List β)) := by
  induction xs with
  | nil => exact moves_ok []
  | cons x rest ih =>
    rw [List.mapM_cons]
    exact moves_seq (moves x) fun _ => moves_seq ih fun _ => moves_ok _

theorem moves_forAll {f : α → StoreM Unit} {xs : List α} (moves : ∀ a ∈ xs, Moves R (f a)) :
    Moves R (xs.forM f : StoreM Unit) := by
  induction xs with
  | nil => exact moves_ok ()
  | cons x rest ih =>
    obtain ⟨first, others⟩ := List.forall_mem_cons.mp moves
    exact moves_seq first fun _ => ih others

end Chained

section Allocating
variable [Allocating R]

theorem moves_vector (xs : Elements) : Moves R (vector xs) := Allocating.vector xs

theorem moves_items (xs : Elements) : Moves R (items xs) := by
  unfold items
  split
  · exact moves_pure _
  · exact moves_mapM moves_vector _

theorem moves_element (id : VectorId) (i : Nat) : Moves R (element id i) := by
  refine moves_get fun s => ?_
  split
  · exact moves_pure _
  · cases (s.elements id).singletons[i]? with
    | none => exact moves_pure none
    | some xs => exact moves_bind (moves_vector xs) fun _ => moves_pure _

theorem moves_coerce (xs : Elements) (rank : Nat) : Moves R (coerce xs rank) := by
  unfold coerce
  split
  · exact moves_pure _
  · split
    · exact moves_pure _
    · exact moves_map _ (moves_items xs)

end Allocating

section Owning
variable [Owning R]

theorem share_moves (v : Value) (s : Store) : R s (s.share v) :=
  Owning.raise _ Sharing.rank_le_promoted v s

theorem shareAll_moves (vs : List Value) (s : Store) : R s (s.shareAll vs) := by
  induction vs generalizing s with
  | nil => exact Chained.refl s
  | cons v rest ih => exact Chained.trans (share_moves v s) (ih (s.share v))

theorem markPermanent_moves (v : Value) (s : Store) : R s (s.markPermanent v) :=
  Owning.raise _ (fun x => by cases x <;> decide) v s

theorem rank_le_childOf (owner child : Sharing) : child.rank ≤ (owner.childOf child).rank := by
  cases owner <;> cases child <;> decide

theorem adjustChild_moves (owner child : Value) (s : Store) : R s (s.adjustChild owner child) := by
  unfold adjustChild
  split
  · split
    · exact Chained.refl s
    · exact Owning.raise _ (rank_le_childOf _) _ s
  · exact Chained.refl s

theorem moves_duplicate (id : VectorId) : Moves R (duplicate id) :=
  moves_get fun _ =>
    moves_bind (m := modify _) (fun t => shareAll_moves _ t) fun _ => Owning.addVector _

theorem moves_makeMutable (id : VectorId) : Moves R (makeMutable id) := by
  refine moves_get fun s => ?_
  split
  · exact moves_duplicate id
  · exact moves_pure id

end Owning

section Writes
variable [Allocating R]

/-! In-place writes. The check that a container is writable and the write stand in one operation, so
no owner can come in between. -/

theorem ensureWritable_apply (id : VectorId) (s : Store) :
    ensureWritable id s =
      if (s.container id).sharing.isShared then
        (.error (.internal s!"in-place write to a {(s.container id).sharing.name} container"), s)
      else (.ok (), s) := by
  unfold ensureWritable
  rw [seq_apply]
  change (if _ then _ else _ : StoreM Unit) s = _
  split <;> rfl

/-- As a relation, while a container is not shared; and it stays so. -/
def Guarded (id : VectorId) (R : Store → Store → Prop) (s t : Store) : Prop :=
  (s.container id).sharing.isShared = false →
    R s t ∧ (t.container id).sharing.isShared = false

theorem container_addVector (s : Store) (c : Container) (id : VectorId) :
    (addVector c s).2.container id = if id.index = s.vectors.size then c else s.container id := by
  unfold container addVector
  rw [Array.getElem?_push]
  split <;> rfl

instance (id : VectorId) : Allocating (Guarded id R) where
  refl s := fun unshared => ⟨Chained.refl s, unshared⟩
  trans first second := fun unshared =>
    have ⟨reached, still⟩ := first unshared
    have ⟨onward, last⟩ := second still
    ⟨Chained.trans reached onward, last⟩
  vector xs s := by
    intro unshared
    refine ⟨Allocating.vector xs s, ?_⟩
    change (((addVector _ s).2.container id).sharing).isShared = false
    rw [container_addVector]
    split
    · rfl
    · exact unshared

theorem container_modify (s : Store) (id other : VectorId) (f : Container → Container) :
    (s.modifyContainer id f).container other =
      if other = id ∧ id.index < s.vectors.size then f (s.container id) else s.container other := by
  unfold container modifyContainer
  dsimp only
  rw [Array.getElem?_modify]
  by_cases same : other = id
  · subst same
    by_cases inside : other.index < s.vectors.size <;> simp [inside]
  · have apart : id.index ≠ other.index := fun equal => same (by cases other; cases id; simp_all)
    simp [same, apart]

/-- An operation behind the check moves as it does while the container is not shared. -/
theorem moves_guarded {id : VectorId} {m : StoreM α} (moves : Moves (Guarded id R) m) :
    Moves R (do ensureWritable id; m : StoreM α) := by
  intro s
  rw [seq_apply, ensureWritable_apply]
  cases shared : (s.container id).sharing.isShared with
  | true => exact Chained.refl s
  | false => exact (moves s shared).1

variable {id : VectorId} (writes : Writes R id)
include writes

omit [Allocating R] in
theorem guarded_write (f : Container → Container) (keeps : ∀ c, (f c).sharing = c.sharing) {s : Store}
    (wider : (s.elements id).Widens (f (s.container id)).elements) :
    Guarded id R s (s.modifyContainer id f) := by
  intro unshared
  refine ⟨writes f keeps s unshared wider, ?_⟩
  rw [container_modify]
  split
  · rw [keeps]
    exact unshared
  · exact unshared

omit [Allocating R] in
theorem moves_write (f : Container → Container) (keeps : ∀ c, (f c).sharing = c.sharing)
    (wider : ∀ c : Container, c.elements.Widens (f c).elements) :
    Moves (Guarded id R) (modify (modifyContainer id f) : StoreM Unit) :=
  fun _ => guarded_write writes f keeps (wider _)

omit [Allocating R] writes in
theorem coerce_low {xs : Elements} {rank : Nat} (le : xs.rank ≤ rank) (low : rank < Elements.listRank) :
    coerce xs rank = pure (xs.widen rank) := by
  have atomic : ¬xs.isList := fun list =>
    Nat.not_le_of_lt low (xs.isList_iff_rank.mp list ▸ le)
  unfold coerce
  rw [if_neg atomic, if_pos low]

omit [Allocating R] writes in
theorem isList_coerce {xs : Elements} {rank : Nat} (high : ¬rank < Elements.listRank) (s : Store) :
    (coerce xs rank s).1.isList := by
  unfold coerce
  split
  · assumption
  · rfl

theorem moves_writeAtomic (i : Nat) (v : Value) : Moves (Guarded id R) (writeAtomic id i v) := by
  intro s
  unfold writeAtomic
  rw [read_apply]
  dsimp only
  split
  · rename_i source
    split
    · exact moves_throw (R := Guarded id R) _ s
    · by_cases low : max (s.elements id).rank (s.elements source).rank < Elements.listRank
      · -- Nothing is made on the way to the write.
        have le := Nat.le_max_left (s.elements id).rank (s.elements source).rank
        rw [coerce_low le low, coerce_low (Nat.le_max_right _ _) low]
        generalize max (s.elements id).rank (s.elements source).rank = rank at le low ⊢
        cases written : ((s.elements id).widen rank).writeFirst i ((s.elements source).widen rank) with
        | none =>
          rw [lifted_apply, lifted_apply, written]
          exact Chained.refl (R := Guarded id R) s
        | some zs =>
          rw [lifted_apply, lifted_apply, written]
          have wider : (s.elements id).Widens ((s.elements id).widen rank) :=
            ⟨Nat.le_trans le (Nat.le_of_eq (Elements.rank_widen le low).symm),
              .inl (Nat.le_of_eq (Elements.length_widen _ _).symm)⟩
          exact guarded_write writes (fun c => { c with elements := zs }) (fun _ => rfl)
            (wider.trans (Elements.widens_writeFirst written))
      · -- A list is written.
        refine moves_seq_of (moves_lift (moves_coerce _ _)) (P := fun xs => xs.isList) ?_ (fun xs list =>
          moves_seq (moves_lift (moves_coerce _ _)) fun ys => ?_) s
        · intro t xs made
          cases made
          exact isList_coerce low t
        · split
          · rename_i written
            rw [Elements.isList_iff_rank, ← Elements.rank_writeFirst written, ← Elements.isList_iff_rank] at list
            exact moves_write writes _ (fun _ => rfl) fun c => c.elements.widens_list list
          · exact moves_throw _
  · exact moves_throw (R := Guarded id R) _ s

theorem moves_setElement (i : Nat) (v : Value) : Moves R (setElement id i v) := by
  refine moves_guarded (moves_read fun s => ?_)
  dsimp only
  refine moves_unless _ _ fun _ => ?_
  split
  · exact moves_write writes _ (fun _ => rfl) fun c => c.elements.widens_list rfl
  · exact moves_writeAtomic writes i v

theorem moves_setAttribute (name : Name) (v : Option Value) : Moves R (setAttribute id name v) :=
  moves_guarded (moves_write writes _ (fun _ => rfl) fun c => .refl c.elements)

end Writes

theorem makeMutable_unshared {s : Store} {c : VectorId}
    (unshared : (s.container c).sharing.isShared = false) : makeMutable c s = (c, s) := by
  change (if (s.container c).sharing.isShared then duplicate c else pure c : Alloc VectorId) s = _
  rw [unshared]
  rfl

end Store

open Store

variable {R : Store → Store → Prop} [Evolution R]

/-! Loading of code. -/

theorem moves_constantNode (v : Value) : Moves R (constantNode v) :=
  moves_seq (moves_modify (markPermanent_moves v)) fun _ =>
    moves_seq (moves_lift Evolution.freshNode) fun _ => moves_ok _

theorem moves_symbolNode (name : Name) : Moves R (symbolNode name) :=
  moves_seq (moves_lift Evolution.freshNode) fun _ => moves_ok _

theorem moves_callNode (f : Expr) (args : List Arg) : Moves R (callNode f args) :=
  moves_seq (moves_lift Evolution.freshNode) fun _ => moves_ok _

theorem moves_functionNode (formals : List Formal) (body : Expr) :
    Moves R (functionNode formals body) := by
  unfold functionNode
  split
  · exact moves_throw _
  · exact moves_seq (moves_lift Evolution.freshNode) fun _ => moves_ok _

theorem moves_literal (xs : Elements) : Moves R (do constantNode (← Store.vector xs) : StoreM Expr) :=
  moves_seq (moves_lift (moves_vector xs)) moves_constantNode

mutual

theorem moves_load (e : Source) : Moves R e.load := by
  cases e with
  | null => exact moves_constantNode _
  | logical b => exact moves_literal _
  | integer n => exact moves_literal _
  | double x => exact moves_literal _
  | text t => exact moves_literal _
  | literal v => exact moves_constantNode v
  | symbol name => exact moves_symbolNode name
  | empty =>
    rw [Source.load]
    exact moves_seq (moves_lift Evolution.freshNode) fun _ => moves_ok _
  | call f args =>
    rw [Source.load]
    exact moves_seq (moves_load f) fun _ => moves_seq (moves_loadArgs args) fun _ =>
      moves_callNode _ _
  | function formals body =>
    rw [Source.load]
    exact moves_seq (moves_loadFormals formals) fun _ => moves_seq (moves_load body) fun _ =>
      moves_functionNode _ _
  | block body =>
    rw [Source.load]
    exact moves_seq (moves_loadAll body) fun _ =>
      moves_seq (moves_lift Evolution.freshNode) fun _ => moves_ok _
  | branch test yes no =>
    rw [Source.load]
    exact moves_seq (moves_load test) fun _ => moves_seq (moves_load yes) fun _ =>
      moves_seq (moves_loadOption no) fun _ =>
        moves_seq (moves_lift Evolution.freshNode) fun _ => moves_ok _
  | assign target value outer =>
    rw [Source.load]
    exact moves_seq (moves_load target) fun _ => moves_seq (moves_load value) fun _ =>
      moves_seq (moves_lift Evolution.freshNode) fun _ => moves_ok _

theorem moves_loadAll (body : List Source) : Moves R (Source.loadAll body) := by
  cases body with
  | nil => exact moves_ok []
  | cons e rest =>
    rw [Source.loadAll]
    exact moves_seq (moves_load e) fun _ => moves_seq (moves_loadAll rest) fun _ => moves_ok _

theorem moves_loadOption (e : Option Source) : Moves R (Source.loadOption e) := by
  cases e with
  | none => exact moves_ok none
  | some e =>
    rw [Source.loadOption]
    exact moves_seq (moves_load e) fun _ => moves_ok _

theorem moves_loadArgs (args : List SourceArg) : Moves R (SourceArg.loadAll args) := by
  cases args with
  | nil => exact moves_ok []
  | cons a rest =>
    obtain ⟨name, e⟩ := a
    rw [SourceArg.loadAll]
    exact moves_seq (moves_load e) fun _ => moves_seq (moves_loadArgs rest) fun _ => moves_ok _

theorem moves_loadFormals (formals : List SourceFormal) : Moves R (SourceFormal.loadAll formals) := by
  cases formals with
  | nil => exact moves_ok []
  | cons formal rest =>
    obtain ⟨name, default⟩ := formal
    rw [SourceFormal.loadAll]
    exact moves_seq (moves_loadOption default) fun _ =>
      moves_seq (moves_loadFormals rest) fun _ => moves_ok _

end

namespace Builtins

/-! Builtins. -/

section Owning
omit [Evolution R]
variable [Owning R]

theorem moves_listPart (v : Value) : Moves R (listPart v) := by
  unfold listPart
  split
  · exact moves_read fun s => moves_seq (moves_modify (shareAll_moves _)) fun _ =>
      moves_lift (moves_items _)
  · exact moves_ok _

theorem moves_atomicPart (rank : Nat) (v : Value) : Moves R (atomicPart rank v) := by
  refine moves_read fun s => ?_
  split
  · exact moves_ok _
  · exact moves_throw _

theorem moves_combine (args : Arguments) : Moves R (combine args) := by
  unfold combine
  dsimp only
  split
  · exact moves_ok _
  · refine moves_read fun s => ?_
    split
    · exact moves_seq (moves_mapAll moves_listPart _) fun _ => moves_lift (moves_vector _)
    · exact moves_seq (moves_mapAll (moves_atomicPart _) _) fun _ => moves_lift (moves_vector _)

theorem moves_ownedList (values : List Value) (attributes : List (Name × Value)) :
    Moves R (ownedList values attributes) :=
  moves_seq (moves_modify (shareAll_moves values)) fun _ =>
    moves_lift (moves_map _ (Owning.addVector _))

theorem moves_namesVector (names : List (Option Name)) : Moves R (namesVector names) :=
  moves_lift (moves_vector _)

theorem moves_makeList (args : Arguments) : Moves R (makeList args) := by
  unfold makeList
  split
  · exact moves_seq (moves_namesVector _) fun _ => moves_ownedList _ _
  · exact moves_ownedList _ _

theorem moves_element (args : Arguments) : Moves R (element args) := by
  refine moves_seq (moves_except _) fun target => moves_seq (moves_except _) fun index =>
    moves_read fun s => ?_
  split
  · refine moves_seq (moves_except _) fun position => ?_
    split
    · exact moves_throw _
    · exact moves_seq (moves_lift (Store.moves_element _ _)) fun _ =>
        moves_seq (moves_modify (adjustChild_moves _ _)) fun _ => moves_ok _
  · exact moves_throw _

theorem moves_length (args : Arguments) : Moves R (length args) :=
  moves_read fun _ => moves_lift (moves_vector _)

theorem moves_identical (args : Arguments) : Moves R (identical args) :=
  moves_seq (moves_except _) fun _ => moves_seq (moves_except _) fun _ =>
    moves_read fun _ => moves_lift (moves_vector _)

theorem moves_isNull (args : Arguments) : Moves R (isNull args) := moves_lift (moves_vector _)

theorem moves_identity (args : Arguments) : Moves R (identity args) := moves_ok _

theorem moves_getAttribute (args : Arguments) : Moves R (getAttribute args) :=
  moves_seq (moves_except _) fun _ => moves_read fun _ => moves_seq (moves_except _) fun _ =>
    moves_read fun _ => moves_seq (moves_modify (adjustChild_moves _ _)) fun _ => moves_ok _

theorem moves_classOf (implicit : ImplicitClasses) (args : Arguments) :
    Moves R (classOf implicit args) := by
  refine moves_read fun s => ?_
  split
  · exact moves_seq (moves_modify (adjustChild_moves _ _)) fun _ => moves_ok _
  · exact moves_lift (moves_vector _)

theorem moves_oldClass (args : Arguments) : Moves R (oldClass args) := by
  unfold oldClass
  split
  · exact moves_ok _
  · exact moves_read fun _ =>
      moves_seq (moves_modify (adjustChild_moves _ _)) fun _ => moves_ok _

theorem moves_inherits (implicit : ImplicitClasses) (args : Arguments) :
    Moves R (inherits implicit args) :=
  moves_seq (moves_except _) fun _ => moves_seq (moves_except _) fun _ =>
    moves_read fun _ => moves_lift (moves_vector _)

/-- A copy is made and loses an attribute only if there is a class to be rid of. -/
theorem moves_unclass (copies : ∀ id, Moves R (classless id)) (args : Arguments) :
    Moves R (unclass args) := by
  refine moves_seq (moves_except _) fun target => ?_
  split
  · refine moves_read fun s => ?_
    split
    · exact moves_ok _
    · exact copies _
  · exact moves_ok _

theorem moves_slotNames (args : Arguments) : Moves R (slotNames args) := by
  unfold slotNames
  split
  · exact moves_ok _
  · exact moves_seq (moves_namesVector _) fun _ => moves_ok _

theorem moves_newObject (classes : ClassRegistry) (args : Arguments) :
    Moves R (newObject classes args) := by
  rw [newObject_eq]
  refine moves_read fun s => moves_seq (moves_except _) fun name => moves_unless _ _ fun _ => ?_
  exact moves_seq (moves_slotNames _) fun _ => moves_seq (moves_lift (moves_vector _)) fun _ =>
    moves_ownedList _ _

theorem moves_replacementTarget (v : Value) : Moves R (replacementTarget v) := by
  unfold replacementTarget
  split
  · exact moves_lift (moves_makeMutable _)
  · exact moves_lift (Owning.addVector _)
  · exact moves_read fun _ => moves_throw _

theorem moves_attributeTarget (v : Value) : Moves R (attributeTarget v) := by
  unfold attributeTarget
  split
  · exact moves_lift (moves_makeMutable _)
  · exact moves_throw _
  · exact moves_read fun _ => moves_throw _

variable {id : VectorId} (writes : Writes R id)
include writes

theorem moves_appendName (name : Name) : Moves R (appendName id name) :=
  moves_read fun _ => moves_seq (moves_lift (moves_vector _)) fun _ =>
    moves_seq (moves_setAttribute writes _ _) fun _ => moves_ok _

theorem moves_place (index : Value) : Moves R (place id index) := by
  refine moves_read fun s => moves_seq (moves_except _) fun found => ?_
  split
  · exact moves_ok _
  · refine moves_read fun s => ?_
    split
    · exact moves_appendName writes _
    · exact moves_throw _

theorem moves_put (position : Nat) (v : Value) : Moves R (put id position v) := by
  refine moves_read fun s => ?_
  dsimp only
  split
  · exact moves_seq (moves_modify (share_moves v)) fun _ => Store.moves_setElement writes _ _
  · exact Store.moves_setElement writes _ _

/-- The part of an element's replacement that comes once the container to write into is known. -/
theorem moves_replaceElement (index v : Value) : Moves R (do
    let position ← place id index
    put id position v
    pure (.vector id) : StoreM Value) :=
  moves_seq (moves_place writes _) fun _ =>
    moves_seq (moves_put writes _ _) fun _ => moves_ok _

theorem moves_storeAttribute (name : Name) (v : Value) : Moves R (storeAttribute id name v) := by
  refine moves_read fun s => ?_
  dsimp only
  split
  · exact moves_setAttribute writes _ _
  · exact moves_seq (moves_modify (share_moves v)) fun _ => moves_setAttribute writes _ _

theorem moves_replaceAttribute (name : Name) (v : Option Value) :
    Moves R (replaceAttribute id name v) := by
  unfold replaceAttribute
  split
  · exact moves_storeAttribute writes _ _
  · exact moves_setAttribute writes _ _

end Owning

theorem moves_setElement (args : Arguments) : Moves R (setElement args) := by
  rw [setElement_eq]
  exact moves_seq (moves_except _) fun _ => moves_seq (moves_except _) fun _ =>
    moves_seq (moves_except _) fun _ => moves_seq (moves_replacementTarget _) fun id =>
      moves_replaceElement (Evolution.write id) _ _

theorem moves_setAttribute (args : Arguments) : Moves R (setAttribute args) :=
  moves_seq (moves_except _) fun _ => moves_seq (moves_attributeTarget _) fun _ =>
    moves_read fun _ => moves_seq (moves_except _) fun _ =>
      moves_seq (moves_replaceAttribute (Evolution.write _) _ _) fun _ => moves_ok _

theorem moves_withAttributes (args : Arguments) : Moves R (withAttributes args) := by
  refine moves_seq (moves_except _) fun target => moves_seq (moves_attributeTarget _) fun id =>
    moves_seq (moves_forAll fun entry _ => ?_) fun _ => moves_ok _
  obtain ⟨name, v⟩ := entry
  cases name with
  | none => exact moves_ok ()
  | some name => exact moves_replaceAttribute (Evolution.write _) _ _

theorem moves_setClassOf (args : Arguments) : Moves R (setClassOf args) :=
  moves_seq (moves_except _) fun _ => moves_seq (moves_attributeTarget _) fun _ =>
    moves_seq (moves_replaceAttribute (Evolution.write _) _ _) fun _ => moves_ok _

theorem moves_classless (id : VectorId) : Moves R (classless id) :=
  moves_seq (moves_lift (moves_duplicate id)) fun _ =>
    moves_seq (Store.moves_setAttribute (Evolution.write _) _ _) fun _ => moves_ok _

/-! What the arguments of a replacement come to. -/

theorem required_then {α : Type} {args : Arguments} {name : Name} {position : Nat} {v : Value}
    (given : args.get? name position = some v) (rest : Value → StoreM α) (s : Store) :
    (liftM (args.required name position) >>= rest : StoreM α) s = rest v s := by
  unfold Arguments.required
  rw [given]
  rfl

theorem required_absent {α : Type} {args : Arguments} {name : Name} {position : Nat}
    (absent : args.get? name position = none) (rest : Value → StoreM α) (s : Store) :
    (liftM (args.required name position) >>= rest : StoreM α) s = (.error (.missingArgument name), s) := by
  unfold Arguments.required
  rw [absent]
  rfl

/-- A vector that is not shared is written to itself. -/
theorem replacementTarget_unshared {s : Store} {c : VectorId}
    (unshared : (s.container c).sharing.isShared = false) :
    replacementTarget (.vector c) s = (.ok c, s) := by
  change (Except.ok (makeMutable c s).1, (makeMutable c s).2) = _
  rw [makeMutable_unshared unshared]

theorem attributeTarget_unshared {s : Store} {c : VectorId}
    (unshared : (s.container c).sharing.isShared = false) :
    attributeTarget (.vector c) s = (.ok c, s) :=
  replacementTarget_unshared unshared

end Builtins
end CallByNeed
