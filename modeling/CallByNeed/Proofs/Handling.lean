import CallByNeed.Proofs.Evolution
import CallByNeed.Proofs.Holding
import CallByNeed.Proofs.Mentions
import Mathlib.Logic.Relation

/-!
Operations on the objects of a store, within an ambit. A store is sound if all its objects keep to the
ambit. The operations on vectors keep it sound and give values of the ambit; what they do to the
vectors is a course of single changes, and they fail with no signal of the evaluator.
-/
namespace CallByNeed

/-- Failures by which the evaluator steers itself. -/
def Failure.isSignal : Failure → Bool
  | cannotOptimize | exhausted => true
  | _ => false

/-- The values a container holds. -/
def Container.held (c : Container) : List Value := c.elements.children ++ c.attributes.values

namespace Ambit

variable (A : Ambit)

structure AllowsPromise (n : Nat) (p : Promise) : Prop where
  expr : A.Reads n p.expr
  value : A.AdmitsAny n p.state.value?
  eager : A.AdmitsAny n (p.eager.map (·.value))

/-- One change of the vectors: a new one, a rise of a sharing state, or a write into a vector that is
not shared. -/
inductive Change (vs : Array Container) : Array Container → Prop
  | make (c : Container) (held : A.AdmitsAll vs.size c.held) : Change vs (vs.push c)
  | raise (i : Nat) (f : Sharing → Sharing) (up : ∀ x, x.rank ≤ (f x).rank) :
    Change vs (vs.modify i fun c => { c with sharing := f c.sharing })
  | write (i : Nat) (f : Container → Container) (keeps : ∀ c, (f c).sharing = c.sharing)
    (unshared : ∀ c, vs[i]? = some c → c.sharing.isShared = false)
    (held : ∀ c, vs[i]? = some c → A.AdmitsAll vs.size (f c).held)
    (allowed : A.write vs (vs.modify i f)) : Change vs (vs.modify i f)

/-- Any number of changes. -/
abbrev Course : Array Container → Array Container → Prop := Relation.ReflTransGen A.Change

end Ambit

namespace Store

variable (A : Ambit)

/-- All objects keep to an ambit. -/
structure Sound (s : Store) : Prop where
  vectors : ∀ c ∈ s.vectors, A.AdmitsAll s.vectors.size c.held
  promises : ∀ p ∈ s.promises, A.AllowsPromise s.vectors.size p
  dots : ∀ d ∈ s.dots, A.AdmitsAll s.vectors.size d.values

/-- What an operation on vectors does to a store. -/
structure Grows (s t : Store) : Prop where
  promises : t.promises = s.promises
  dots : t.dots = s.dots
  course : A.Course s.vectors t.vectors

end Store

namespace Ambit

variable {A : Ambit} {n k : Nat}

theorem AllowsPromise.mono {p : Promise} (ok : A.AllowsPromise n p) (le : n ≤ k) :
    A.AllowsPromise k p := ⟨ok.expr.mono le, ok.value.mono le, ok.eager.mono le⟩

theorem Change.size_le {vs ws : Array Container} (change : A.Change vs ws) : vs.size ≤ ws.size := by
  cases change with
  | make c held => simp
  | raise i f up => simp
  | write i f keeps unshared held allowed => simp

theorem Course.size_le {vs ws : Array Container} (course : A.Course vs ws) : vs.size ≤ ws.size := by
  induction course with
  | refl => exact Nat.le_refl _
  | tail _ change ih => exact Nat.le_trans ih change.size_le

theorem Change.vectors {vs ws : Array Container} (change : A.Change vs ws)
    (sound : ∀ c ∈ vs, A.AdmitsAll vs.size c.held) : ∀ c ∈ ws, A.AdmitsAll ws.size c.held := by
  have le := change.size_le
  intro c member
  obtain ⟨i, found⟩ := Array.mem_iff_getElem?.mp member
  cases change with
  | make new held =>
    rw [Array.getElem?_push] at found
    split at found
    · cases found
      exact held.mono le
    · exact (sound c (Array.mem_of_getElem? found)).mono le
  | raise j f up =>
    rw [Array.getElem?_modify] at found
    split at found
    · obtain ⟨old, there, rfl⟩ := Option.map_eq_some_iff.mp found
      exact AdmitsAll.mono (sound old (Array.mem_of_getElem? there)) le
    · exact (sound c (Array.mem_of_getElem? found)).mono le
  | write j f keeps unshared held allowed =>
    rw [Array.getElem?_modify] at found
    split at found
    · rename_i same
      obtain ⟨old, there, rfl⟩ := Option.map_eq_some_iff.mp found
      exact (held old (same ▸ there)).mono le
    · exact (sound c (Array.mem_of_getElem? found)).mono le

end Ambit

namespace Store

variable {A : Ambit} {n k : Nat} {α β : Type}

theorem Grows.refl (s : Store) : s.Grows A s := ⟨rfl, rfl, .refl⟩

theorem Grows.trans {s t u : Store} (first : s.Grows A t) (second : t.Grows A u) : s.Grows A u :=
  ⟨second.promises.trans first.promises, second.dots.trans first.dots,
    first.course.trans second.course⟩

theorem Grows.size_le {s t : Store} (grows : s.Grows A t) : s.vectors.size ≤ t.vectors.size :=
  Ambit.Course.size_le grows.course

/-- A store keeps its soundness when its vectors change. -/
theorem Sound.change {s t : Store} (sound : s.Sound A) (change : A.Change s.vectors t.vectors)
    (promises : t.promises = s.promises) (dots : t.dots = s.dots) : t.Sound A where
  vectors := change.vectors sound.vectors
  promises := fun p member => (sound.promises p (promises ▸ member)).mono change.size_le
  dots := fun d member => (sound.dots d (dots ▸ member)).mono change.size_le

theorem Sound.container {s : Store} (sound : s.Sound A) (id : VectorId) :
    A.AdmitsAll s.vectors.size (s.container id).held := by
  unfold Store.container
  cases found : s.vectors[id.index]? with
  | none => exact nofun
  | some c => exact sound.vectors c (Array.mem_of_getElem? found)

theorem Sound.children {s : Store} (sound : s.Sound A) (id : VectorId) :
    A.AdmitsAll s.vectors.size (s.elements id).children :=
  (sound.container id).sublist (List.subset_append_left _ _)

theorem Sound.attribute {s : Store} (sound : s.Sound A) (id : VectorId) (name : Name) :
    A.AdmitsAny s.vectors.size (s.attribute? id name) := by
  intro v found
  refine sound.container id v (List.mem_append_right _ ?_)
  exact Table.mem_values_of_get? found

theorem Sound.promise {s : Store} (sound : s.Sound A) (id : PromiseId) :
    A.AllowsPromise s.vectors.size (s.promise id) := by
  unfold Store.promise
  cases found : s.promises[id.index]? with
  | none =>
    refine ⟨fun m => nofun, fun v same => ?_, nofun⟩
    cases same
    exact Ambit.admits_null
  | some p => exact sound.promises p (Array.mem_of_getElem? found)

theorem Sound.dotsAt {s : Store} (sound : s.Sound A) (id : DotsId) :
    A.AdmitsAll s.vectors.size (s.dotsAt id).values := by
  unfold Store.dotsAt
  cases found : s.dots[id.index]? with
  | none => exact nofun
  | some d => exact sound.dots d (Array.mem_of_getElem? found)

end Store

namespace Ambit

variable {α β : Type}

/-- Nothing is said about a result. -/
def Any (_ : Nat) (_ : α) : Prop := True

/-- A result as stated, or a failure that is no signal. -/
def Fair (Q : Nat → α → Prop) (n : Nat) : Except Failure α → Prop
  | .ok a => Q n a
  | .error f => f.isSignal = false

variable (A : Ambit)

/-- On sound stores with at least so many vectors, an operation keeps the store sound and gives a
result as stated. -/
def Handles (n : Nat) (Q : Nat → α → Prop) (m : Alloc α) : Prop :=
  ∀ s : Store, s.Sound A → n ≤ s.vectors.size →
    (m s).2.Sound A ∧ s.Grows A (m s).2 ∧ Q (m s).2.vectors.size (m s).1

/-- The same of an operation that may fail. -/
def Checks (n : Nat) (Q : Nat → α → Prop) (m : StoreM α) : Prop :=
  A.Handles (α := Except Failure α) n (Fair Q) m

variable {A} {n k : Nat} {P Q : Nat → α → Prop} {R : Nat → β → Prop}

theorem Handles.later {m : Alloc α} (handles : A.Handles n Q m) (le : n ≤ k) : A.Handles k Q m :=
  fun s sound enough => handles s sound (Nat.le_trans le enough)

theorem handles_pure {a : α} (ok : ∀ k, n ≤ k → Q k a) : A.Handles n Q (pure a) :=
  fun s sound enough => ⟨sound, .refl s, ok _ enough⟩

theorem handles_bind {m : Alloc α} {f : α → Alloc β} (first : A.Handles n Q m)
    (rest : ∀ k a, n ≤ k → Q k a → A.Handles k R (f a)) : A.Handles n R (m >>= f) := by
  intro s sound enough
  obtain ⟨sound', grows, ok⟩ := first s sound enough
  have onward := rest _ _ (Nat.le_trans enough grows.size_le) ok (m s).2 sound' (Nat.le_refl _)
  exact ⟨onward.1, grows.trans onward.2.1, onward.2.2⟩

theorem handles_map {m : Alloc α} {f : α → β} (handles : A.Handles n Q m)
    (ok : ∀ k a, Q k a → R k (f a)) : A.Handles n R (f <$> m) := by
  intro s sound enough
  obtain ⟨sound', grows, result⟩ := handles s sound enough
  exact ⟨sound', grows, ok _ _ result⟩

theorem handles_get {f : Store → Alloc α}
    (rest : ∀ s : Store, s.Sound A → n ≤ s.vectors.size → A.Handles s.vectors.size Q (f s)) :
    A.Handles n Q (get >>= f) :=
  fun s sound enough => rest s sound enough s sound (Nat.le_refl _)

/-- One change of the vectors. -/
theorem handles_change {m : Alloc α} (changes : ∀ s : Store, s.Sound A → n ≤ s.vectors.size →
    A.Change s.vectors (m s).2.vectors ∧ Q (m s).2.vectors.size (m s).1)
    (promises : ∀ s, (m s).2.promises = s.promises := by exact fun _ => rfl)
    (dots : ∀ s, (m s).2.dots = s.dots := by exact fun _ => rfl) : A.Handles n Q m := by
  intro s sound enough
  obtain ⟨change, ok⟩ := changes s sound enough
  exact ⟨sound.change change (promises s) (dots s), ⟨promises s, dots s, .single change⟩, ok⟩

/-- What leaves the objects as they are. -/
theorem handles_same {m : Alloc α} (ok : ∀ s : Store, n ≤ s.vectors.size → Q s.vectors.size (m s).1)
    (vectors : ∀ s, (m s).2.vectors = s.vectors := by exact fun _ => rfl)
    (promises : ∀ s, (m s).2.promises = s.promises := by exact fun _ => rfl)
    (dots : ∀ s, (m s).2.dots = s.dots := by exact fun _ => rfl) : A.Handles n Q m := by
  intro s sound enough
  refine ⟨⟨?_, ?_, ?_⟩, ⟨promises s, dots s, ?_⟩, ?_⟩
  · rw [vectors]
    exact sound.vectors
  · rw [vectors, promises]
    exact sound.promises
  · rw [vectors, dots]
    exact sound.dots
  · rw [vectors]
  · rw [vectors]
    exact ok s enough

theorem handles_mapM {f : α → Alloc Value} {xs : List α}
    (handles : ∀ x ∈ xs, ∀ k, n ≤ k → A.Handles k A.Admits (f x)) :
    A.Handles n A.AdmitsAll (xs.mapM f) := by
  induction xs generalizing n with
  | nil => exact handles_pure fun _ _ => admitsAll_nil
  | cons x rest ih =>
    rw [List.mapM_cons]
    refine handles_bind (handles x (by simp) n (Nat.le_refl n)) fun k v le ok => ?_
    refine handles_bind (ih fun y member j later =>
      handles y (by simp [member]) j (Nat.le_trans le later)) fun j vs le' all => ?_
    exact handles_pure fun i le'' =>
      admitsAll_cons.mpr ⟨ok.mono (Nat.le_trans le' le''), all.mono le''⟩

/-! Operations that may fail. -/

theorem checks_ok {a : α} (ok : ∀ k, n ≤ k → Q k a) : A.Checks n Q (pure a) :=
  handles_pure (Q := Fair Q) ok

theorem checks_throw {f : Failure} (fair : f.isSignal = false) :
    A.Checks n Q (throw f : StoreM α) :=
  fun s sound _ => ⟨sound, .refl s, fair⟩

theorem checks_except {r : Except Failure α} (fair : ∀ k, n ≤ k → Fair Q k r) :
    A.Checks n Q (liftM r : StoreM α) := by
  cases r with
  | ok a => exact checks_ok fair
  | error f => exact checks_throw (fair n (Nat.le_refl n))

theorem checks_lift {m : Alloc α} (handles : A.Handles n Q m) : A.Checks n Q (liftM m : StoreM α) :=
  handles

theorem checks_read {f : Store → StoreM α}
    (rest : ∀ s : Store, s.Sound A → n ≤ s.vectors.size → A.Checks s.vectors.size Q (f s)) :
    A.Checks n Q (get >>= f) :=
  fun s sound enough => rest s sound enough s sound (Nat.le_refl _)

/-- What comes of a sequence on one store: what comes of its first part, and of the rest if there is a value
to go on with. -/
theorem checked_seq {s : Store} {m : StoreM α} {f : α → StoreM β}
    (first : (m s).2.Sound A ∧ s.Grows A (m s).2 ∧ Fair Q (m s).2.vectors.size (m s).1)
    (rest : ∀ a t, m s = (.ok a, t) → t.Sound A → s.Grows A t → Q t.vectors.size a →
      (f a t).2.Sound A ∧ t.Grows A (f a t).2 ∧ Fair R (f a t).2.vectors.size (f a t).1) :
    ((m >>= f) s).2.Sound A ∧ s.Grows A ((m >>= f) s).2 ∧
      Fair R ((m >>= f) s).2.vectors.size ((m >>= f) s).1 := by
  obtain ⟨sound, grows, ok⟩ := first
  rw [Store.seq_apply]
  rcases run : m s with ⟨e | a, t⟩
  · rw [run] at sound grows ok
    exact ⟨sound, grows, ok⟩
  · rw [run] at sound grows ok
    have onward := rest a t run sound grows ok
    exact ⟨onward.1, grows.trans onward.2.1, onward.2.2⟩

theorem checks_seq {m : StoreM α} {f : α → StoreM β} (first : A.Checks n Q m)
    (rest : ∀ k a, n ≤ k → Q k a → A.Checks k R (f a)) : A.Checks n R (m >>= f) := by
  intro s sound enough
  exact checked_seq (first s sound enough) fun a t _ sound grows ok =>
    rest _ a (Nat.le_trans enough grows.size_le) ok t sound (Nat.le_refl _)

theorem checks_map {m : StoreM α} {f : α → β} (checks : A.Checks n Q m)
    (ok : ∀ k a, Q k a → R k (f a)) : A.Checks n R (f <$> m) := by
  intro s sound enough
  rw [map_eq_pure_bind]
  exact checked_seq (checks s sound enough) fun a t _ sound _ result => ⟨sound, .refl t, ok _ a result⟩

theorem Checks.later {m : StoreM α} (checks : A.Checks n Q m) (le : n ≤ k) : A.Checks k Q m :=
  Handles.later checks le

theorem checks_unless {bad : Prop} [Decidable bad] {f : Failure} {rest : Unit → StoreM α}
    (fair : f.isSignal = false) (checks : A.Checks n Q (rest ())) :
    A.Checks n Q (if bad then (throw f : StoreM Unit) >>= rest else rest () : StoreM α) := by
  split
  · exact checks_seq (checks_throw (α := Unit) (Q := Any) fair) fun _ _ le _ => checks.later le
  · exact checks

theorem checks_mapAll {f : α → StoreM β} {xs : List α}
    (mono : ∀ k j b, k ≤ j → R k b → R j b)
    (checks : ∀ x ∈ xs, ∀ k, n ≤ k → A.Checks k R (f x)) :
    A.Checks n (fun k bs => ∀ b ∈ bs, R k b) (xs.mapM f : StoreM (List β)) := by
  induction xs generalizing n with
  | nil => exact checks_ok fun _ _ => nofun
  | cons x rest ih =>
    rw [List.mapM_cons]
    refine checks_seq (checks x (by simp) n (Nat.le_refl n)) fun k b le ok => ?_
    refine checks_seq (ih fun y member j later =>
      checks y (by simp [member]) j (Nat.le_trans le later)) fun j bs le' all => ?_
    exact checks_ok fun i le'' => List.forall_mem_cons.mpr
      ⟨mono _ _ b (Nat.le_trans le' le'') ok, fun c member => mono _ _ c le'' (all c member)⟩

theorem checks_forAll {f : α → StoreM Unit} {xs : List α}
    (checks : ∀ x ∈ xs, ∀ k, n ≤ k → A.Checks k Any (f x)) :
    A.Checks n Any (xs.forM f : StoreM Unit) := by
  induction xs generalizing n with
  | nil => exact checks_ok fun _ _ => trivial
  | cons x rest ih =>
    exact checks_seq (checks x (by simp) n (Nat.le_refl n)) fun k _ le _ => ih fun y member j later =>
      checks y (by simp [member]) j (Nat.le_trans le later)

/-! Vectors. -/

theorem handles_addVector {c : Container} (held : A.AdmitsAll n c.held) :
    A.Handles n (fun k id => A.Admits k (.vector id)) (Store.addVector c) :=
  handles_change fun s _ enough => ⟨.make c (held.mono enough), by
    rw [admits_vector]
    intro _
    change s.vectors.size < (s.vectors.push c).size
    simp⟩

theorem handles_vector {xs : Elements} (held : A.AdmitsAll n xs.children) :
    A.Handles n A.Admits (Store.vector xs) := by
  refine handles_map (handles_addVector ?_) fun _ _ ok => ok
  simpa [Container.held, Table.values] using held

theorem handles_raise {f : Sharing → Sharing} (up : ∀ x, x.rank ≤ (f x).rank) (v : Value) :
    A.Handles n Any (modify (Store.setSharing f v)) := by
  cases v with
  | vector id => exact handles_change fun s _ _ => ⟨.raise id.index f up, trivial⟩
  | _ => exact handles_pure (a := ()) fun _ _ => trivial

theorem handles_share (v : Value) : A.Handles n Any (modify (Store.share v)) :=
  handles_raise Sharing.rank_le_promoted v

theorem handles_shareAll (vs : List Value) : A.Handles n Any (modify (Store.shareAll vs)) := by
  induction vs generalizing n with
  | nil => exact handles_pure (a := ()) fun _ _ => trivial
  | cons v rest ih => exact handles_bind (handles_share v) fun _ _ _ _ => ih

theorem handles_adjustChild (owner child : Value) :
    A.Handles n Any (modify (Store.adjustChild owner child)) := by
  intro s sound enough
  change Store.Sound A (s.adjustChild owner child) ∧ s.Grows A (s.adjustChild owner child) ∧ _
  unfold Store.adjustChild
  split
  · split
    · exact ⟨sound, .refl s, trivial⟩
    · rename_i o c _
      exact handles_raise (Store.rank_le_childOf (s.container o).sharing) (.vector c) s sound enough
  · exact ⟨sound, .refl s, trivial⟩

theorem children_singleton {xs ys : Elements} (member : ys ∈ xs.singletons) : ys.children = [] := by
  cases xs with
  | list xs => cases member
  | logical xs | integer xs | double xs | character xs =>
    obtain ⟨x, _, rfl⟩ := List.mem_map.mp member
    rfl

theorem handles_singleton {xs ys : Elements} (member : ys ∈ xs.singletons) :
    A.Handles n A.Admits (Store.vector ys) := by
  refine handles_vector ?_
  rw [children_singleton member]
  exact admitsAll_nil

theorem handles_items {xs : Elements} (held : A.AdmitsAll n xs.children) :
    A.Handles n A.AdmitsAll (Store.items xs) := by
  cases xs with
  | list xs => exact handles_pure fun _ le => held.mono le
  | logical xs | integer xs | double xs | character xs =>
    exact handles_mapM fun _ member _ _ => handles_singleton member

theorem handles_element (id : VectorId) (i : Nat) :
    A.Handles n A.AdmitsAny (Store.element id i) := by
  refine handles_get fun s sound enough => ?_
  split
  · rename_i xs list
    refine handles_pure fun k le v found => ?_
    have member := List.mem_of_getElem? found
    exact (sound.children id v (by rwa [list])).mono le
  · cases found : (s.elements id).singletons[i]? with
    | none => exact handles_pure fun _ _ => nofun
    | some xs =>
      refine handles_map (handles_singleton (List.mem_of_getElem? found)) fun k v ok w same => ?_
      cases same
      exact ok

theorem AdmitsAll.widen {xs : Elements} (held : A.AdmitsAll n xs.children) (rank : Nat) :
    A.AdmitsAll n (xs.widen rank).children := fun v member => held v (Elements.mem_children_widen member)

theorem handles_coerce {xs : Elements} (rank : Nat) (held : A.AdmitsAll n xs.children) :
    A.Handles n (fun k ys => A.AdmitsAll k ys.children) (Store.coerce xs rank) := by
  unfold Store.coerce
  split
  · exact handles_pure fun _ le => held.mono le
  · split
    · exact handles_pure fun _ le => (held.mono le).widen rank
    · exact handles_map (handles_items held) fun _ _ ok => ok

theorem handles_duplicate (id : VectorId) :
    A.Handles n (fun k id => A.Admits k (.vector id)) (Store.duplicate id) :=
  handles_get fun _ sound _ => handles_bind (handles_shareAll _) fun _ _ le _ =>
    handles_addVector ((sound.container id).mono le)

theorem handles_makeMutable {id : VectorId} (ok : A.Admits n (.vector id)) :
    A.Handles n (fun k id => A.Admits k (.vector id)) (Store.makeMutable id) := by
  refine handles_get fun s sound enough => ?_
  split
  · exact handles_duplicate id
  · exact handles_pure fun k le => ok.mono (Nat.le_trans enough le)

/-! Writes in place, behind the check that the vector is not shared. -/

variable (A) in
/-- As `Checks`, while a vector is not shared. -/
def ChecksOpen (id : VectorId) (n : Nat) (Q : Nat → α → Prop) (m : StoreM α) : Prop :=
  ∀ s : Store, s.Sound A → n ≤ s.vectors.size → (s.container id).sharing.isShared = false →
    (m s).2.Sound A ∧ s.Grows A (m s).2 ∧ Fair Q (m s).2.vectors.size (m s).1

variable {id : VectorId}

instance : Store.Allocating fun _ _ => True where
  refl _ := trivial
  trans _ _ := trivial
  vector _ _ := trivial

theorem checks_guarded {m : StoreM α} (checks : A.ChecksOpen id n Q m) :
    A.Checks n Q (do Store.ensureWritable id; m) := by
  intro s sound enough
  rw [Store.seq_apply, Store.ensureWritable_apply]
  cases shared : (s.container id).sharing.isShared with
  | true => exact ⟨sound, .refl s, rfl⟩
  | false => exact checks s sound enough shared

theorem Checks.opened {m : StoreM α} (checks : A.Checks n Q m) : A.ChecksOpen id n Q m :=
  fun s sound enough _ => checks s sound enough

/-- Objects made on the way leave the vector as open as it was. -/
theorem checksOpen_seq {m : StoreM α} {f : α → StoreM β} (first : A.Checks n Q m)
    (stays : Store.Moves (Store.Guarded id fun _ _ => True) m)
    (rest : ∀ k a, n ≤ k → Q k a → A.ChecksOpen id k R (f a)) :
    A.ChecksOpen id n R (m >>= f) := by
  intro s sound enough unshared
  refine checked_seq (first s sound enough) fun a t run sound grows ok => ?_
  have still := (stays s unshared).2
  rw [run] at still
  exact rest _ a (Nat.le_trans enough grows.size_le) ok t sound (Nat.le_refl _) still

theorem checksOpen_read {f : Store → StoreM α}
    (rest : ∀ s : Store, s.Sound A → n ≤ s.vectors.size → A.ChecksOpen id s.vectors.size Q (f s)) :
    A.ChecksOpen id n Q (get >>= f) :=
  fun s sound enough unshared => rest s sound enough s sound (Nat.le_refl _) unshared

theorem checksOpen_unless {bad : Prop} [Decidable bad] {f : Failure} {rest : Unit → StoreM α}
    (fair : f.isSignal = false) (checks : A.ChecksOpen id n Q (rest ())) :
    A.ChecksOpen id n Q (if bad then (throw f : StoreM Unit) >>= rest else rest () : StoreM α) := by
  split
  · exact fun s sound _ _ => ⟨sound, .refl s, fair⟩
  · exact checks

theorem checksOpen_write (lax : A.Lax) {f : Container → Container} (keeps : ∀ c, (f c).sharing = c.sharing)
    (held : ∀ s : Store, s.Sound A → n ≤ s.vectors.size →
      A.AdmitsAll s.vectors.size (f (s.container id)).held) :
    A.ChecksOpen id n Any (modify (Store.modifyContainer id f) : StoreM Unit) := by
  intro s sound enough unshared
  have there (c : Container) (found : s.vectors[id.index]? = some c) : s.container id = c := by
    unfold Store.container
    rw [found]
    rfl
  have change : A.Change s.vectors (s.modifyContainer id f).vectors := by
    refine .write id.index f keeps (fun c found => ?_) (fun c found => ?_) (lax _ _)
    · rw [← there c found]
      exact unshared
    · rw [← there c found]
      exact held s sound enough
  exact ⟨sound.change change rfl rfl, ⟨rfl, rfl, .single change⟩, trivial⟩

theorem checksOpen_setElements (lax : A.Lax) {xs : Elements} (held : A.AdmitsAll n xs.children) :
    A.ChecksOpen id n Any (modify (Store.setElements id xs) : StoreM Unit) := by
  refine checksOpen_write lax (fun _ => rfl) fun s sound enough => ?_
  exact admitsAll_append.mpr ⟨held.mono enough, fun v member =>
    sound.container id v (List.mem_append_right _ member)⟩

theorem AdmitsAll.writeFirst {xs ys zs : Elements} {i : Nat} (held : A.AdmitsAll n xs.children)
    (ok : A.AdmitsAll n ys.children) (written : xs.writeFirst i ys = some zs) :
    A.AdmitsAll n zs.children := by
  intro v member
  rcases Elements.mem_children_writeFirst written member with new | old
  · exact ok v new
  · exact held v old

theorem checksOpen_writeAtomic (lax : A.Lax) (i : Nat) (v : Value) :
    A.ChecksOpen id n Any (Store.writeAtomic id i v) := by
  refine checksOpen_read fun s sound enough => ?_
  dsimp only
  split
  · rename_i source
    refine checksOpen_unless rfl ?_
    refine checksOpen_seq (checks_lift (handles_coerce _ (sound.children id)))
      (Store.moves_lift (Store.moves_coerce _ _)) fun k xs le held => ?_
    refine checksOpen_seq (checks_lift (handles_coerce _ ((sound.children source).mono le)))
      (Store.moves_lift (Store.moves_coerce _ _)) fun j ys le' ok => ?_
    split
    · rename_i zs written
      exact checksOpen_setElements lax (AdmitsAll.writeFirst (held.mono le') ok written)
    · exact (checks_throw rfl).opened
  · exact (checks_throw rfl).opened

theorem AdmitsAll.writeChild {xs : List Value} {v : Value} (held : A.AdmitsAll n xs)
    (ok : A.Admits n v) (i : Nat) : A.AdmitsAll n (Store.writeChild xs i v) := by
  intro w member
  rcases Store.mem_writeChild member with rfl | old
  · exact ok
  · exact held w old

theorem checks_setElement (lax : A.Lax) {v : Value} (i : Nat) (ok : A.Admits n v) :
    A.Checks n Any (Store.setElement id i v) := by
  refine checks_guarded (checksOpen_read fun s sound enough => ?_)
  dsimp only
  refine checksOpen_unless rfl ?_
  split
  · rename_i children list
    have held := sound.children id
    rw [list] at held
    exact checksOpen_setElements lax (AdmitsAll.writeChild held (ok.mono enough) i)
  · exact checksOpen_writeAtomic lax i v

theorem checks_setAttribute (lax : A.Lax) {v : Option Value} (name : Name) (ok : A.AdmitsAny n v) :
    A.Checks n Any (Store.setAttribute id name v) := by
  refine checks_guarded (checksOpen_write lax (fun _ => rfl) fun s sound enough => ?_)
  have old := sound.container id
  refine admitsAll_append.mpr ⟨sound.children id, ?_⟩
  dsimp only
  split
  · rename_i w found
    intro u member
    rcases Table.mem_values_insert member with rfl | kept
    · exact (ok u (Option.filter_eq_some_iff.mp found).1).mono enough
    · exact old u (List.mem_append_right _ kept)
  · intro u member
    exact old u (List.mem_append_right _ (Table.mem_values_erase member))

/-! Code. -/

theorem handles_freshNode : A.Handles n Any Store.freshNode := handles_same fun _ _ => trivial

theorem checks_constantNode {v : Value} (ok : A.Admits n v) : A.Checks n A.Reads (constantNode v) :=
  checks_seq (checks_lift (handles_raise (fun x => by cases x <;> decide) v)) fun _ _ le _ =>
    checks_seq (checks_lift handles_freshNode) fun _ _ le' _ => checks_ok fun _ le'' =>
      reads_constant.mpr (ok.mono (Nat.le_trans le (Nat.le_trans le' le'')))

theorem checks_symbolNode {name : Name} (ok : A.symbol name) :
    A.Checks n A.Reads (symbolNode name) :=
  checks_seq (checks_lift handles_freshNode) fun _ _ _ _ => checks_ok fun _ _ => reads_symbol.mpr ok

theorem checks_callNode {f : Expr} {args : List Arg} (ok : A.Reads n f)
    (all : ∀ a ∈ args, A.Reads n a.value) : A.Checks n A.Reads (callNode f args) :=
  checks_seq (checks_lift handles_freshNode) fun _ _ le _ => checks_ok fun _ le' =>
    have late := Nat.le_trans le le'
    reads_call.mpr ⟨ok.mono late, fun a member => (all a member).mono late⟩

theorem signal_formals {names : List Name} {f : Failure}
    (failed : Signature.formals names = .error f) : f.isSignal = false := by
  unfold Signature.formals at failed
  split at failed
  · cases failed
    rfl
  · cases failed

theorem checks_functionNode {formals : List Formal} {body : Expr}
    (defaults : ∀ f ∈ formals, ∀ e, f.default = some e → A.Reads n e) (ok : A.Reads n body) :
    A.Checks n A.Reads (functionNode formals body) := by
  unfold functionNode
  split
  · rename_i f failed
    exact checks_throw (signal_formals failed)
  · refine checks_seq (checks_lift handles_freshNode) fun _ _ le _ => checks_ok fun _ le' => ?_
    have late := Nat.le_trans le le'
    exact reads_function.mpr
      ⟨fun f member e default => (defaults f member e default).mono late, ok.mono late⟩

theorem checks_literal {xs : Elements} (atomic : xs.children = []) :
    A.Checks n A.Reads (do constantNode (← Store.vector xs)) := by
  refine checks_seq (checks_lift (handles_vector ?_)) fun _ _ _ ok => checks_constantNode ok
  rw [atomic]
  exact admitsAll_nil

theorem checks_node {f : NodeId → Expr} (ok : ∀ k id, n ≤ k → A.Reads k (f id)) :
    A.Checks n A.Reads (do pure (f (← Store.freshNode))) :=
  checks_seq (checks_lift handles_freshNode) fun _ _ le _ => checks_ok fun _ le' =>
    ok _ _ (Nat.le_trans le le')

mutual

/-- Loading gives code of the same mentions. -/
theorem checks_load {e : Source} (ok : ∀ m ∈ e.mentions, A.Allows n m) :
    A.Checks n A.Reads e.load := by
  cases e with
  | null => exact checks_constantNode admits_null
  | logical b => exact checks_literal rfl
  | integer x => exact checks_literal rfl
  | double x => exact checks_literal rfl
  | text t => exact checks_literal rfl
  | literal v =>
    rw [Source.mentions] at ok
    exact checks_constantNode ok
  | symbol name => exact checks_symbolNode (ok (.symbol name) (by simp [Source.mentions]))
  | empty =>
    rw [Source.load]
    exact checks_node fun _ _ _ => nofun
  | call f args =>
    rw [Source.mentions, List.forall_mem_append] at ok
    rw [Source.load]
    refine checks_seq (checks_load ok.1) fun k f le called => ?_
    refine checks_seq ((checks_loadArgs ok.2).later le)
      fun j args le' all => checks_callNode (called.mono le') all
  | function formals body =>
    rw [Source.mentions, List.forall_mem_append] at ok
    rw [Source.load]
    refine checks_seq (checks_loadFormals ok.1) fun k formals le defaults => ?_
    refine checks_seq ((checks_load ok.2).later le) fun j body le' run => ?_
    exact checks_functionNode (fun f member e default => (defaults f member e default).mono le') run
  | block body =>
    rw [Source.mentions] at ok
    rw [Source.load]
    exact checks_seq (checks_loadAll ok) fun k body le all => checks_node fun j id le' =>
      reads_block.mpr fun e member => (all e member).mono le'
  | branch test yes no =>
    rw [Source.mentions, List.forall_mem_append, List.forall_mem_append] at ok
    rw [Source.load]
    refine checks_seq (checks_load ok.1.1) fun k test le tested => ?_
    refine checks_seq ((checks_load ok.1.2).later le)
      fun j yes le' taken => ?_
    refine checks_seq ((checks_loadOption ok.2).later (Nat.le_trans le le')) fun i no le'' other => ?_
    exact checks_node fun h id late => reads_branch.mpr
      ⟨tested.mono (Nat.le_trans le' (Nat.le_trans le'' late)), taken.mono (Nat.le_trans le'' late),
        fun e same => (other e same).mono late⟩
  | assign target value outer =>
    rw [Source.mentions, List.forall_mem_append] at ok
    rw [Source.load]
    refine checks_seq (checks_load ok.1) fun k target le written => ?_
    refine checks_seq ((checks_load ok.2).later le)
      fun j value le' read => ?_
    exact checks_node fun i id late => reads_assign.mpr
      ⟨written.mono (Nat.le_trans le' late), read.mono late⟩

theorem checks_loadAll {body : List Source} (ok : ∀ m ∈ Source.allMentions body, A.Allows n m) :
    A.Checks n (fun k es => ∀ e ∈ es, A.Reads k e) (Source.loadAll body) := by
  cases body with
  | nil => exact checks_ok fun _ _ => nofun
  | cons e rest =>
    rw [Source.allMentions, List.forall_mem_append] at ok
    rw [Source.loadAll]
    refine checks_seq (checks_load ok.1) fun k e le first => ?_
    refine checks_seq ((checks_loadAll ok.2).later le)
      fun j es le' all => ?_
    exact checks_ok fun i late => List.forall_mem_cons.mpr
      ⟨first.mono (Nat.le_trans le' late), fun e member => (all e member).mono late⟩

theorem checks_loadOption {e : Option Source}
    (ok : ∀ m ∈ Source.optionMentions e, A.Allows n m) :
    A.Checks n (fun k e => ∀ d, e = some d → A.Reads k d) (Source.loadOption e) := by
  cases e with
  | none => exact checks_ok fun _ _ => nofun
  | some e =>
    rw [Source.optionMentions] at ok
    rw [Source.loadOption]
    refine checks_seq (checks_load ok) fun k e le read => checks_ok fun j late d same => ?_
    cases same
    exact read.mono late

theorem checks_loadArgs {args : List SourceArg}
    (ok : ∀ m ∈ SourceArg.allMentions args, A.Allows n m) :
    A.Checks n (fun k args => ∀ a ∈ args, A.Reads k a.value) (SourceArg.loadAll args) := by
  cases args with
  | nil => exact checks_ok fun _ _ => nofun
  | cons a rest =>
    obtain ⟨name, e⟩ := a
    rw [SourceArg.allMentions, List.forall_mem_append] at ok
    rw [SourceArg.loadAll]
    refine checks_seq (checks_load ok.1) fun k e le first => ?_
    refine checks_seq ((checks_loadArgs ok.2).later le)
      fun j es le' all => ?_
    exact checks_ok fun i late => List.forall_mem_cons.mpr
      ⟨first.mono (Nat.le_trans le' late), fun a member => (all a member).mono late⟩

theorem checks_loadFormals {formals : List SourceFormal}
    (ok : ∀ m ∈ SourceFormal.allMentions formals, A.Allows n m) :
    A.Checks n (fun k formals => ∀ f ∈ formals, ∀ e, f.default = some e → A.Reads k e)
      (SourceFormal.loadAll formals) := by
  cases formals with
  | nil => exact checks_ok fun _ _ => nofun
  | cons f rest =>
    obtain ⟨name, default⟩ := f
    rw [SourceFormal.allMentions, List.forall_mem_append] at ok
    rw [SourceFormal.loadAll]
    refine checks_seq (checks_loadOption ok.1) fun k default le first => ?_
    refine checks_seq ((checks_loadFormals ok.2).later le)
      fun j formals le' all => ?_
    exact checks_ok fun i late => List.forall_mem_cons.mpr
      ⟨fun e same => (first e same).mono (Nat.le_trans le' late),
        fun f member e same => (all f member e same).mono late⟩

end

/-! Arguments of builtins. -/

variable {args : Arguments}

theorem AdmitsAll.argument (held : A.AdmitsAll n args.values) (name : Name) (position : Nat) :
    A.AdmitsAny n (args.get? name position) := fun v found => held v (Arguments.mem_values_of_get? found)

theorem fair_required (held : A.AdmitsAll n args.values) (name : Name) (position : Nat) :
    Fair A.Admits n (args.required name position) := by
  have ok := held.argument name position
  unfold Arguments.required
  split
  · rename_i v found
    exact ok v found
  · rfl

theorem fair_bind {r : Except Failure α} {f : α → Except Failure β} (first : Fair Q n r)
    (rest : ∀ a, Q n a → Fair R n (f a)) : Fair R n (r >>= f) := by
  cases r with
  | ok a => exact rest a first
  | error f => exact first

theorem fair_any {r : Except Failure α} (fair : Fair Q n r) : Fair Any k r := by
  cases r with
  | ok a => trivial
  | error f => exact fair

theorem fair_argument (args : Arguments) (name : Name) (position : Nat) :
    Fair Any n (args.required name position) := by
  unfold Arguments.required
  split
  · trivial
  · rfl

theorem fair_requiredString (args : Arguments) (s : Store) (name : Name) (position : Nat) :
    Fair Any n (args.requiredString s name position) := by
  refine fair_bind (fair_argument args name position) fun v _ => ?_
  split
  · trivial
  · rfl

end Ambit

end CallByNeed
