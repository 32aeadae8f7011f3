import CallByNeed.Proofs.Conversion
import CallByNeed.Proofs.KeepingBuiltins
import CallByNeed.Proofs.Signal

/-!
Vectors that hold one another in circles. A new vector closes no circle, and neither does a rise of a
sharing state; a write into a vector closes one exactly if it stores a vector that leads there already. A
builtin that writes in place looks at the owners of what it stores, but not at what that holds: it closes no
circle unless it is given a vector to store that leads to the one it writes to, and that stays unshared
with one holder more.
-/
namespace CallByNeed

open Relation

/-- One vector holds another, as an element or as the value of an attribute. -/
def Holds (vs : Array Container) (a b : VectorId) : Prop :=
  ∃ c, vs[a.index]? = some c ∧ .vector b ∈ c.held

/-- A vector is another one, or holds one that leads there. -/
abbrev Leads (vs : Array Container) : VectorId → VectorId → Prop := ReflTransGen (Holds vs)

def Acyclic (vs : Array Container) : Prop := ∀ a, ¬TransGen (Holds vs) a a

/-- A write stores a vector that leads to where it is stored. -/
def Closes (vs : Array Container) (i : Nat) (f : Container → Container) : Prop :=
  ∃ c b, vs[i]? = some c ∧ .vector b ∈ (f c).held ∧ Leads vs b ⟨i⟩

/-- All vectors that are held exist. -/
def Closed (vs : Array Container) : Prop := ∀ c ∈ vs, (Ambit.everything True).AdmitsAll vs.size c.held

namespace Acyclic

variable {vs : Array Container} {a b : VectorId} {i : Nat} {f : Container → Container}

theorem holds_inside (closed : Closed vs) (holds : Holds vs a b) :
    a.index < vs.size ∧ b.index < vs.size := by
  obtain ⟨c, found, held⟩ := holds
  refine ⟨(Array.getElem?_eq_some_iff.mp found).1, ?_⟩
  exact Ambit.admits_vector.mp (closed c (Array.mem_of_getElem? found) _ held) trivial

theorem holds_of_push {c : Container} (inside : a.index < vs.size) (holds : Holds (vs.push c) a b) :
    Holds vs a b := by
  obtain ⟨d, found, held⟩ := holds
  rw [Array.getElem?_push_lt inside] at found
  exact ⟨d, (Array.getElem?_eq_getElem inside).trans found, held⟩

theorem leads_of_push {c : Container} (closed : Closed vs) (inside : a.index < vs.size)
    (leads : Leads (vs.push c) a b) : Leads vs a b := by
  induction leads using ReflTransGen.head_induction_on with
  | refl => exact .refl
  | head holds _ ih =>
    have old := holds_of_push inside holds
    exact .head old (ih (holds_inside closed old).2)

/-- A new vector is held by none. -/
theorem push {c : Container} (acyclic : Acyclic vs) (closed : Closed vs)
    (held : (Ambit.everything True).AdmitsAll vs.size c.held) : Acyclic (vs.push c) := by
  -- Whatever is held was there before, so a circle has no place for the new vector.
  have target {a b : VectorId} (holds : Holds (vs.push c) a b) : b.index < vs.size := by
    obtain ⟨d, found, there⟩ := holds
    rw [Array.getElem?_push] at found
    split at found
    · cases found
      exact Ambit.admits_vector.mp (held _ there) trivial
    · exact (holds_inside closed ⟨d, found, there⟩).2
  have old {a b : VectorId} (inside : a.index < vs.size) (path : TransGen (Holds (vs.push c)) a b) :
      TransGen (Holds vs) a b := by
    induction path with
    | single holds => exact .single (holds_of_push inside holds)
    | tail path holds ih =>
      obtain ⟨_, _, last⟩ := TransGen.tail'_iff.mp path
      exact ih.tail (holds_of_push (target last) holds)
  intro a circle
  obtain ⟨_, _, last⟩ := TransGen.tail'_iff.mp circle
  exact acyclic a (old (target last) circle)

theorem holds_raise (g : Sharing → Sharing) :
    Holds (vs.modify i fun c => { c with sharing := g c.sharing }) = Holds vs := by
  funext a b
  unfold Holds
  rw [Array.getElem?_modify]
  cases vs[a.index]? with
  | none => simp
  | some c =>
    split
    · simp [Container.held]
    · rfl

theorem holds_write : Holds (vs.modify i f) a b ↔
    if i = a.index then ∃ c, vs[i]? = some c ∧ .vector b ∈ (f c).held else Holds vs a b := by
  unfold Holds
  rw [Array.getElem?_modify]
  split
  · rename_i same
    rw [same]
    cases vs[a.index]? with
    | none => simp
    | some c => simp
  · rfl

/-- What is the same before and after a write: what the other vectors hold. -/
def Beyond (vs : Array Container) (i : Nat) (a b : VectorId) : Prop := a ≠ ⟨i⟩ ∧ Holds vs a b

theorem Beyond.after (beyond : Beyond vs i a b) : Holds (vs.modify i f) a b := by
  obtain ⟨other, holds⟩ := beyond
  refine holds_write.mpr ?_
  rw [if_neg fun same => other (by rw [same])]
  exact holds

theorem beyond_of_write (other : a ≠ ⟨i⟩) (holds : Holds (vs.modify i f) a b) : Beyond vs i a b := by
  refine ⟨other, ?_⟩
  have found := holds_write.mp holds
  rwa [if_neg fun same => other (by rw [same])] at found

/-- A way after a write is one from before, or comes to the vector that was written. -/
theorem way_cases (path : TransGen (Holds (vs.modify i f)) a b) : TransGen (Beyond vs i) a b ∨
    ReflTransGen (Beyond vs i) a ⟨i⟩ ∧ TransGen (Holds (vs.modify i f)) ⟨i⟩ b := by
  induction path using TransGen.head_induction_on with
  | @single a holds =>
    by_cases here : a = ⟨i⟩
    · cases here
      exact .inr ⟨.refl, .single holds⟩
    · exact .inl (.single (beyond_of_write here holds))
  | @head a d holds path ih =>
    by_cases here : a = ⟨i⟩
    · cases here
      exact .inr ⟨.refl, .head holds path⟩
    · have first := beyond_of_write here holds
      rcases ih with before | ⟨toward, onward⟩
      · exact .inl (.head first before)
      · exact .inr ⟨.head first toward, onward⟩

/-- Any way to a vector leads there without passing it. -/
theorem toward (path : ReflTransGen (Holds vs) a ⟨i⟩) : ReflTransGen (Beyond vs i) a ⟨i⟩ := by
  induction path using ReflTransGen.head_induction_on with
  | refl => exact .refl
  | @head a d holds _ ih =>
    by_cases here : a = ⟨i⟩
    · cases here
      exact .refl
    · exact .head ⟨here, holds⟩ ih

/-- A write closes a circle exactly if it stores a vector that leads to where it is stored. -/
theorem modify_iff (acyclic : Acyclic vs) : Acyclic (vs.modify i f) ↔ ¬Closes vs i f := by
  have before {a b : VectorId} (path : ReflTransGen (Beyond vs i) a b) : ReflTransGen (Holds vs) a b :=
    ReflTransGen.mono (fun _ _ beyond => beyond.2) _ _ path
  have after {a b : VectorId} (path : ReflTransGen (Beyond vs i) a b) :
      ReflTransGen (Holds (vs.modify i f)) a b := ReflTransGen.mono (fun _ _ => Beyond.after) _ _ path
  constructor
  · rintro still ⟨c, b, found, held, leads⟩
    have holds : Holds (vs.modify i f) ⟨i⟩ b := by
      refine holds_write.mpr ?_
      rw [if_pos rfl]
      exact ⟨c, found, held⟩
    exact still ⟨i⟩ (.head' holds (after (toward leads)))
  · intro never a circle
    rcases way_cases circle with old | ⟨toward, onward⟩
    · exact acyclic a (TransGen.mono (fun _ _ beyond => beyond.2) _ _ old)
    · -- The circle passes the vector that was written: from there, it starts with what was stored.
      obtain ⟨b, holds, back⟩ := TransGen.head'_iff.mp (onward.trans_left (after toward))
      have stored := holds_write.mp holds
      rw [if_pos rfl] at stored
      obtain ⟨c, found, held⟩ := stored
      refine never ⟨c, b, found, held, ?_⟩
      rcases reflTransGen_iff_eq_or_transGen.mp back with same | path
      · rw [same]
      · rcases way_cases path with old | ⟨leads, _⟩
        · exact before old.to_reflTransGen
        · exact before leads

end Acyclic

/-! Writes that close no circle. -/

namespace Ambit

/-- Every write closes no circle. -/
def circleFree : Ambit :=
  { everything True with write := fun vs ws => Acyclic vs → Acyclic ws }

/-- Every write goes into one vector, and closes no circle. -/
def writingTo (id : VectorId) : Ambit :=
  { everything True with
    write := fun vs ws => (∃ f, ws = vs.modify id.index f) ∧ (Acyclic vs → Acyclic ws) }

variable {vs ws : Array Container} {id b : VectorId}

theorem Course.circleFree (course : (writingTo id).Course vs ws) : circleFree.Course vs ws := by
  refine ReflTransGen.mono (fun us xs change => ?_) _ _ course
  cases change with
  | make c held => exact .make c held
  | raise i f up => exact .raise i f up
  | write i f keeps unshared held allowed => exact .write i f keeps unshared held allowed.2

theorem Course.acyclic (course : Ambit.circleFree.Course vs ws) (closed : Closed vs) (acyclic : Acyclic vs) :
    Closed ws ∧ Acyclic ws := by
  induction course with
  | refl => exact ⟨closed, acyclic⟩
  | tail _ change ih =>
    obtain ⟨closed, acyclic⟩ := ih
    refine ⟨change.vectors closed, ?_⟩
    cases change with
    | make c held => exact acyclic.push closed held
    | raise i f up =>
      unfold Acyclic
      rw [Acyclic.holds_raise]
      exact acyclic
    | write i f keeps unshared held allowed => exact allowed acyclic

/-- Sharing states only move up. -/
theorem Course.rank_le {A : Ambit} {i : Nat} {c : Container} (course : A.Course vs ws)
    (found : vs[i]? = some c) : ∃ d, ws[i]? = some d ∧ c.sharing.rank ≤ d.sharing.rank := by
  induction course with
  | refl => exact ⟨c, found, Nat.le_refl _⟩
  | tail _ change ih =>
    obtain ⟨d, there, le⟩ := ih
    cases change with
    | make new held =>
      have inside := (Array.getElem?_eq_some_iff.mp there).1
      refine ⟨d, ?_, le⟩
      rw [Array.getElem?_push_lt inside, ← there, Array.getElem?_eq_getElem inside]
    | raise j f up =>
      rw [Array.getElem?_modify, there]
      split
      · exact ⟨_, rfl, Nat.le_trans le (up d.sharing)⟩
      · exact ⟨d, rfl, le⟩
    | write j f keeps unshared held allowed =>
      rw [Array.getElem?_modify, there]
      split
      · exact ⟨_, rfl, (congrArg Sharing.rank (keeps d)).symm ▸ le⟩
      · exact ⟨d, rfl, le⟩

/-- What leads to a vector that is written to has led there before, if it was there. -/
theorem Course.leads_before (course : (writingTo id).Course vs ws) (closed : Closed vs)
    (inside : b.index < vs.size) (leads : Leads ws b id) : Leads vs b id := by
  induction course with
  | refl => exact leads
  | @tail us xs before change ih =>
    have closed : Closed us := by
      clear ih leads change
      induction before with
      | refl => exact closed
      | tail _ change ih => exact change.vectors ih
    have inside : b.index < us.size := Nat.lt_of_lt_of_le inside (Course.size_le before)
    refine ih ?_
    clear ih
    cases change with
    | make c held =>
      exact Acyclic.leads_of_push closed inside leads
    | raise i f up => rwa [Leads, Acyclic.holds_raise] at leads
    | write i f keeps unshared held allowed =>
      -- The way there need not pass the vector, and holding is the same elsewhere.
      obtain ⟨⟨g, same⟩, _⟩ := allowed
      rw [same] at leads
      exact ReflTransGen.mono (fun _ _ beyond => (Acyclic.beyond_of_write beyond.1 beyond.2).2) _ _
        (Acyclic.toward leads)

end Ambit

namespace Store

variable {s t u : Store} {id b : VectorId} {v : Value} {V : List Value}

theorem Sound.grows {A : Ambit} (sound : s.Sound A) (grows : s.Grows A t) : t.Sound A where
  vectors := by
    have closed := sound.vectors
    have course := grows.course
    generalize s.vectors = vs, t.vectors = ws at closed course
    induction course with
    | refl => exact closed
    | tail _ change ih => exact change.vectors ih
  promises p member := (sound.promises p (grows.promises ▸ member)).mono grows.size_le
  dots d member := (sound.dots d (grows.dots ▸ member)).mono grows.size_le

/-- Soundness does not depend on the writes that are allowed. -/
theorem Sound.withWrite {A : Ambit} (sound : s.Sound A) (write : Array Container → Array Container → Prop) :
    s.Sound { A with write } where
  vectors := sound.vectors
  promises p member :=
    have ok := sound.promises p member
    ⟨ok.expr, ok.value, ok.eager⟩
  dots := sound.dots

theorem holds_of_held (held : .vector b ∈ (s.container id).held) : Holds s.vectors id b := by
  unfold Store.container at held
  cases found : s.vectors[id.index]? with
  | none =>
    rw [found] at held
    cases held
  | some c =>
    rw [found] at held
    exact ⟨c, found, held⟩

/-- An empty vector leads to itself only. -/
theorem leads_of_empty (empty : (s.container b).held = []) (leads : Leads s.vectors b id) : b = id := by
  rcases ReflTransGen.cases_head leads with same | ⟨_, ⟨c, found, held⟩, _⟩
  · exact same
  · unfold Store.container at empty
    rw [found] at empty
    change c.held = [] at empty
    rw [empty] at held
    cases held

/-- A value may be stored into a vector without closing a circle. -/
def Storable (s : Store) (id : VectorId) (v : Value) : Prop :=
  s.Writable id → Acyclic s.vectors → ∀ b, v = .vector b → ¬Leads s.vectors b id

/-- What is held there already may be stored. -/
theorem storable_of_held (held : v ∈ (s.container id).held) : s.Storable id v := by
  rintro _ acyclic b rfl leads
  exact acyclic id (.head' (holds_of_held held) leads)

theorem storable_of_same {w : Value} (held : w ∈ (s.container id).held) (same : w.same v = true) :
    s.Storable id v := by
  intro writable acyclic b given
  subst given
  cases w with
  | vector a =>
    have alike : a = b := of_decide_eq_true same
    subst alike
    exact storable_of_held held writable acyclic a rfl
  | _ => cases same

/-- A value leads to a vector at most by being it, and then it is shared once it has one holder more. -/
def Clear (s : Store) (id : VectorId) (v : Value) : Prop :=
  ∀ b, v = .vector b → Leads s.vectors b id → b = id ∧ (s.container id).sharing.promoted.isShared = true

/-- A value leads to a vector that stays unshared when the value has one holder more. -/
def Entangles (s : Store) (v : Value) (id : VectorId) : Prop :=
  ∃ b, v = .vector b ∧ Leads s.vectors b id ∧ (s.share v).Writable id

theorem clear_of_apart (writable : s.Writable id) (ok : (Ambit.everything True).Admits s.vectors.size v)
    (apart : ¬s.Entangles v id) : s.Clear id v := by
  rintro b rfl leads
  have counted : ((s.share (.vector b)).container id).sharing.isShared = true :=
    (Bool.not_eq_false _).mp fun still => apart ⟨b, rfl, leads, still⟩
  have inside : b.index < s.vectors.size := Ambit.admits_vector.mp ok trivial
  change ((s.modifyContainer b _).container id).sharing.isShared = true at counted
  rw [container_modify] at counted
  split at counted
  · rename_i same
    exact ⟨same.1.symm, same.1 ▸ counted⟩
  · exact absurd (writable.symm.trans counted) Bool.false_ne_true

/-- Values are to be stored into a vector. -/
structure Poised (id : VectorId) (V : List Value) (s : Store) : Prop where
  sound : s.Sound (.writingTo id)
  inside : id.index < s.vectors.size
  admitted : (Ambit.everything True).AdmitsAll s.vectors.size V
  clear : ∀ v ∈ V, s.Clear id v

theorem Grows.circleFree (grows : s.Grows (.writingTo id) t) : s.Grows .circleFree t :=
  ⟨grows.promises, grows.dots, grows.course.circleFree⟩

theorem Grows.rank_le {A : Ambit} (grows : s.Grows A t) (id : VectorId) :
    (s.container id).sharing.rank ≤ (t.container id).sharing.rank := by
  unfold Store.container
  cases found : s.vectors[id.index]? with
  | none => exact Nat.zero_le _
  | some c =>
    obtain ⟨d, there, le⟩ := grows.course.rank_le found
    rw [there]
    exact le

theorem Writable.before {A : Ambit} (writable : t.Writable id) (grows : s.Grows A t) : s.Writable id := by
  refine Bool.eq_false_iff.mpr fun shared => ?_
  have later := Nat.le_trans ((Sharing.isShared_iff _).mp shared) (grows.rank_le id)
  exact Bool.eq_false_iff.mp writable ((Sharing.isShared_iff _).mpr later)

theorem Clear.later (clear : s.Clear id v) (closed : Closed s.vectors) (grows : s.Grows (.writingTo id) t)
    (ok : (Ambit.everything True).Admits s.vectors.size v) : t.Clear id v := by
  rintro b rfl leads
  have inside := Ambit.admits_vector.mp ok trivial
  obtain ⟨same, counted⟩ := clear b rfl (grows.course.leads_before closed inside leads)
  have up (x y : Sharing) (le : x.rank ≤ y.rank) (shared : x.promoted.isShared = true) :
      y.promoted.isShared = true := by
    revert le shared
    cases x <;> cases y <;> decide
  exact ⟨same, up _ _ (grows.rank_le id) counted⟩

theorem Poised.later (poised : s.Poised id V) (grows : s.Grows (.writingTo id) t) : t.Poised id V where
  sound := poised.sound.grows grows
  inside := Nat.lt_of_lt_of_le poised.inside grows.size_le
  admitted := poised.admitted.mono grows.size_le
  clear v member := (poised.clear v member).later poised.sound.vectors grows (poised.admitted v member)

/-- Where values are to be stored into a vector, only this vector is written to, and no circle is closed. -/
def Storing (id : VectorId) (V : List Value) (s t : Store) : Prop :=
  s.Poised id V → s.Grows (.writingTo id) t

instance : Chained (Storing id V) where
  refl s _ := .refl s
  trans first second poised := (first poised).trans (second (poised.later (first poised)))

theorem Poised.share (poised : s.Poised id V) (v : Value) : s.Grows (.writingTo id) (s.share v) :=
  (Ambit.handles_share (n := 0) v s poised.sound (Nat.zero_le _)).2.1

/-- With one holder more, a value that is clear of a vector may be stored there. -/
theorem Poised.storable_shared (poised : s.Poised id V) (member : v ∈ V) : (s.share v).Storable id v := by
  rintro writable _ b rfl leads
  have grows := poised.share (.vector b)
  have old := grows.course.leads_before poised.sound.vectors
    (Ambit.admits_vector.mp (poised.admitted _ member) trivial) leads
  obtain ⟨rfl, counted⟩ := poised.clear _ member b rfl old
  have state : ((s.share (.vector b)).container b).sharing = (s.container b).sharing.promoted := by
    change ((s.modifyContainer b _).container b).sharing = _
    rw [container_modify, if_pos ⟨rfl, poised.inside⟩]
  unfold Writable at writable
  rw [state, counted] at writable
  cases writable

/-- A write of values that may be stored. -/
theorem grows_write {f : Container → Container} (writable : s.Writable id)
    (keeps : ∀ c, (f c).sharing = c.sharing)
    (admitted : (Ambit.everything True).AdmitsAll s.vectors.size (f (s.container id)).held)
    (storable : ∀ v ∈ (f (s.container id)).held, s.Storable id v) :
    s.Grows (.writingTo id) (s.modifyContainer id f) := by
  have there (c : Container) (found : s.vectors[id.index]? = some c) : s.container id = c := by
    unfold Store.container
    rw [found]
    rfl
  refine ⟨rfl, rfl, .single (.write id.index f keeps (fun c found => ?_) (fun c found => ?_) ⟨⟨f, rfl⟩, ?_⟩)⟩
  · rw [← there c found]
    exact writable
  · rw [← there c found]
    exact admitted
  · refine fun acyclic => acyclic.modify_iff.mpr ?_
    rintro ⟨c, b, found, held, leads⟩
    rw [← there c found] at held
    exact storable _ held writable acyclic b rfl leads

theorem grows_guarded {α : Type} {m : StoreM α}
    (grows : s.Writable id → s.Grows (.writingTo id) (m s).2) :
    s.Grows (.writingTo id) ((do ensureWritable id; m : StoreM α) s).2 := by
  rw [seq_apply, ensureWritable_apply]
  cases shared : (s.container id).sharing.isShared with
  | true => exact .refl s
  | false => exact grows shared

/-- A container with an attribute set, or without it. -/
def withAttribute (name : Name) (v : Option Value) (c : Container) : Container :=
  { c with attributes := match v.filter (!·.isNull) with
    | some v => c.attributes.insert name v
    | none => c.attributes.erase name }

theorem grows_setAttribute (sound : s.Sound (.writingTo id)) (name : Name) {v : Option Value}
    (ok : (Ambit.everything True).AdmitsAny s.vectors.size v) (storable : ∀ w, v = some w → s.Storable id w) :
    s.Grows (.writingTo id) (setAttribute id name v s).2 := by
  have held (w : Value) (member : w ∈ (withAttribute name v (s.container id)).held) :
      v = some w ∨ w ∈ (s.container id).held := by
    rcases List.mem_append.mp member with child | there
    · exact .inr (List.mem_append_left _ child)
    · unfold withAttribute at there
      dsimp only at there
      split at there
      · rename_i u given
        rcases Table.mem_values_insert there with rfl | old
        · exact .inl (Option.filter_eq_some_iff.mp given).1
        · exact .inr (List.mem_append_right _ old)
      · exact .inr (List.mem_append_right _ (Table.mem_values_erase there))
  refine grows_guarded fun writable => grows_write (f := withAttribute name v) writable
    (fun _ => rfl) (fun w member => ?_) fun w member => ?_
  · rcases held w member with given | old
    · exact ok w given
    · exact sound.container id w old
  · rcases held w member with given | old
    · exact storable w given
    · exact storable_of_held old

/-- What contents hold after a conversion they held before, or it is new and empty. -/
theorem mem_children_coerce {xs : Elements} {rank : Nat} (s : Store)
    (member : v ∈ (coerce xs rank s).1.children) : v ∈ xs.children ∨ ∃ b, v = .vector b ∧
      s.vectors.size ≤ b.index ∧ b.index < (coerce xs rank s).2.vectors.size ∧
        ((coerce xs rank s).2.container b).held = [] := by
  cases list : xs.isList with
  | true =>
    have run : coerce xs rank s = (xs, s) := by
      unfold coerce
      rw [if_pos list]
      rfl
    rw [run] at member
    exact .inl member
  | false =>
    by_cases low : rank < Elements.listRank
    · rw [coerce_atomic low, list, if_neg Bool.false_ne_true] at member
      exact .inl (Elements.mem_children_widen member)
    · obtain ⟨fs, made, size, places⟩ := coerce_list list (Nat.not_lt.mp low) s
      rw [made] at member
      obtain ⟨k, within, same⟩ := List.mem_iff_getElem.mp member
      have counted : k < xs.entries.length := by
        rw [Elements.length_entries, ← size]
        exact within
      obtain ⟨e, there⟩ : ∃ e, xs.at? k = some e := by
        rw [Elements.at?_eq]
        exact ⟨_, List.getElem?_eq_getElem counted⟩
      obtain ⟨b, found, new, inside, holds⟩ := places k e there
      refine .inr ⟨b, ?_, new, inside, ?_⟩
      · exact Option.some.inj ((congrArg some same.symm).trans ((List.getElem?_eq_getElem within).symm.trans found))
      · rw [holds]
        have atomic := (Elements.isList_at? there).trans list
        cases e with
        | list vs => cases atomic
        | _ => rfl

theorem lifted_bind {α β : Type} (m : Alloc α) (f : α → StoreM β) (s : Store) :
    ((liftM m : StoreM α) >>= f) s = f (m s).1 (m s).2 := rfl

/-- Contents were converted on the way from a store to another: what they hold they held before, or it is
new and empty. -/
structure Converted (id : VectorId) (s t : Store) (xs ys : Elements) : Prop where
  grows : s.Grows (.writingTo id) t
  extended : Extends s t
  admitted : (Ambit.everything True).AdmitsAll t.vectors.size ys.children
  held : ∀ v ∈ ys.children, v ∈ xs.children ∨ ∃ b, v = .vector b ∧ s.vectors.size ≤ b.index ∧
    b.index < t.vectors.size ∧ (t.container b).held = []

variable {xs ys : Elements}

theorem converted_coerce (sound : s.Sound (.writingTo id)) (rank : Nat)
    (held : (Ambit.everything True).AdmitsAll s.vectors.size xs.children) :
    Converted id s (coerce xs rank s).2 xs (coerce xs rank s).1 := by
  obtain ⟨_, grows, admitted⟩ := Ambit.handles_coerce (A := .writingTo id) rank held s sound (Nat.le_refl _)
  exact ⟨grows, moves_coerce xs rank s, admitted, fun _ => mem_children_coerce s⟩

theorem Converted.later (converted : Converted id s t xs ys) (grows : t.Grows (.writingTo id) u)
    (extended : Extends t u) : Converted id s u xs ys where
  grows := converted.grows.trans grows
  extended := Chained.trans converted.extended extended
  admitted := converted.admitted.mono grows.size_le
  held v member := (converted.held v member).imp_right fun ⟨b, same, new, inside, empty⟩ =>
    ⟨b, same, new, Nat.lt_of_lt_of_le inside grows.size_le, by rw [extended.old b inside, empty]⟩

theorem Converted.after (grows : s.Grows (.writingTo id) t) (extended : Extends s t)
    (converted : Converted id t u xs ys) : Converted id s u xs ys where
  grows := grows.trans converted.grows
  extended := Chained.trans extended converted.extended
  admitted := converted.admitted
  held v member := (converted.held v member).imp_right fun ⟨b, same, new, rest⟩ =>
    ⟨b, same, Nat.le_trans grows.size_le new, rest⟩

/-- What is new and empty may be stored. -/
theorem storable_of_new (inside : id.index < s.vectors.size) (new : s.vectors.size ≤ b.index)
    (empty : (t.container b).held = []) : t.Storable id (.vector b) := by
  intro _ _ c same leads
  cases same
  have same := leads_of_empty empty leads
  subst same
  exact Nat.not_lt_of_le new inside

/-- What a vector holds may be stored into it, converted or not. -/
theorem Poised.storable_own (poised : s.Poised id V) (converted : Converted id s t (s.elements id) xs)
    (member : v ∈ xs.children) : t.Storable id v := by
  rcases converted.held v member with old | ⟨b, rfl, new, _, empty⟩
  · refine storable_of_held ?_
    rw [converted.extended.old id poised.inside]
    exact List.mem_append_left _ old
  · exact storable_of_new poised.inside new empty

/-- What is held by a value that is clear of a vector may be stored there. -/
theorem Poised.storable_part {source : VectorId} (poised : s.Poised id V) (given : .vector source ∈ V)
    (converted : Converted id s t (s.elements source) ys) (member : v ∈ ys.children) : t.Storable id v := by
  rcases converted.held v member with old | ⟨b, rfl, new, _, empty⟩
  · rintro _ acyclic b rfl leads
    have there := Ambit.admits_vector.mp (poised.admitted _ given) trivial
    have holds : Holds t.vectors source b := by
      refine holds_of_held ?_
      rw [converted.extended.old source there]
      exact List.mem_append_left _ old
    -- The value leads where its part leads, so it is the vector, which then is in a circle.
    have before := converted.grows.course.leads_before poised.sound.vectors there (.head holds leads)
    obtain ⟨rfl, _⟩ := poised.clear _ given source rfl before
    exact acyclic _ (.head' holds leads)
  · exact storable_of_new poised.inside new empty

/-- Into atomic contents goes what is held by the vector, by the value that is stored, or by none. -/
theorem grows_writeAtomic (poised : s.Poised id V) (member : v ∈ V) (writable : s.Writable id) (i : Nat) :
    s.Grows (.writingTo id) (writeAtomic id i v s).2 := by
  unfold writeAtomic
  rw [read_apply]
  cases v with
  | vector source =>
    dsimp only
    split
    · exact .refl s
    · generalize max (s.elements id).rank (s.elements source).rank = rank
      have mine := converted_coerce poised.sound rank (poised.sound.children id)
      rw [lifted_bind]
      generalize coerce (s.elements id) rank s = made at mine ⊢
      obtain ⟨xs, t⟩ := made
      have theirs := converted_coerce (poised.sound.grows mine.grows) rank
        ((poised.sound.children source).mono mine.grows.size_le)
      rw [lifted_bind]
      generalize coerce (s.elements source) rank t = made at theirs ⊢
      obtain ⟨ys, u⟩ := made
      have own := mine.later theirs.grows theirs.extended
      have parts := theirs.after mine.grows mine.extended
      dsimp only at own parts ⊢
      cases written : xs.writeFirst i ys with
      | none => exact own.grows
      | some zs =>
        have writable : u.Writable id := by
          unfold Writable
          rw [own.extended.old id poised.inside]
          exact writable
        refine own.grows.trans (grows_write (f := fun c => { c with elements := zs }) writable (fun _ => rfl) ?_ ?_)
        · refine Ambit.admitsAll_append.mpr ⟨fun w there => ?_, fun w there => ?_⟩
          · rcases Elements.mem_children_writeFirst written there with new | old
            · exact parts.admitted w new
            · exact own.admitted w old
          · exact (poised.sound.grows own.grows).container id w (List.mem_append_right _ there)
        · intro w there
          rcases List.mem_append.mp there with child | other
          · rcases Elements.mem_children_writeFirst written child with new | old
            · exact poised.storable_part member parts new
            · exact poised.storable_own own old
          · exact storable_of_held (List.mem_append_right _ other)
  | _ => exact .refl s

/-- A value is written to a place of a list only if it may be stored there. -/
theorem grows_setElement (poised : s.Poised id V) (member : v ∈ V) (i : Nat)
    (storable : (s.elements id).isList = true → s.Storable id v) :
    s.Grows (.writingTo id) (setElement id i v s).2 := by
  refine grows_guarded fun writable => ?_
  rw [read_apply]
  dsimp only
  split
  · exact .refl s
  · cases list : s.elements id with
    | list children =>
      rw [list] at storable
      have held := poised.sound.children id
      rw [list] at held
      refine grows_write (f := fun c => { c with elements := .list (writeChild children i v) }) writable
        (fun _ => rfl) ?_ ?_
      · refine Ambit.admitsAll_append.mpr ⟨Ambit.AdmitsAll.writeChild held (poised.admitted v member) i, ?_⟩
        exact fun w there => poised.sound.container id w (List.mem_append_right _ there)
      · intro w there
        rcases List.mem_append.mp there with child | other
        · rcases mem_writeChild child with rfl | old
          · exact storable rfl
          · refine storable_of_held (List.mem_append_left _ ?_)
            change w ∈ (s.elements id).children
            rw [list]
            exact old
        · exact storable_of_held (List.mem_append_right _ other)
    | _ => exact grows_writeAtomic poised member writable i

end Store

/-- Arguments are stored, and nothing else. -/
theorem StrictOp.stored_subset (op : StrictOp) (args : Arguments) : op.stored args ⊆ args.values := by
  intro v member
  cases op with
  | setElement | setAttribute | setClassOf =>
    exact Arguments.mem_values_of_get? (Option.mem_toList.mp member)
  | withAttributes =>
    obtain ⟨⟨name, w⟩, there, same⟩ := List.mem_filterMap.mp member
    cases name with
    | none => cases same
    | some name =>
      cases same
      exact Arguments.mem_values_of_rest there
  | _ => cases member

/-- A value is stored into a vector that it leads to, and that stays unshared with the value held once
more. -/
def Breakpoint.closing : Breakpoint := writing Store.Entangles

namespace Builtins
open Store

variable {s : Store} {id : VectorId} {v : Value} {V : List Value}

theorem grows_seq {α β : Type} {A : Ambit} {m : StoreM α} {f : α → StoreM β} (first : s.Grows A (m s).2)
    (rest : ∀ a t, m s = (.ok a, t) → s.Grows A t → t.Grows A (f a t).2) : s.Grows A ((m >>= f) s).2 := by
  rw [seq_apply]
  rcases run : m s with ⟨e | a, t⟩
  · rw [run] at first
    exact first
  · rw [run] at first
    exact first.trans (rest a t run first)

theorem storing_appendName (name : Name) : Moves (Storing id V) (appendName id name) := by
  refine moves_read fun s t poised => ?_
  generalize (names? s id).getD (List.replicate (s.elements id).length "") ++ [name] = names
  -- The names are a new vector, which leads nowhere.
  have nothing : (Ambit.writingTo id).AdmitsAll 0 (Elements.character names).children := nofun
  obtain ⟨sound, grows, made⟩ := Ambit.handles_vector nothing t poised.sound (Nat.zero_le _)
  rw [lifted_bind]
  refine grows.trans (grows_seq (grows_setAttribute sound "names" (fun w same => ?_) fun w same => ?_)
    fun _ _ _ _ => .refl _)
  · cases same
    exact made
  · cases same
    refine storable_of_new poised.inside (Nat.le_refl _) ?_
    change ((addVector _ t).2.container _).held = []
    rw [container_addVector, if_pos rfl]
    rfl

theorem storing_place (index : Value) : Moves (Storing id V) (place id index) := by
  refine moves_read fun s => moves_seq (moves_except _) fun found => ?_
  cases found with
  | some i => exact moves_ok i
  | none =>
    refine moves_read fun s => ?_
    cases s.string? index with
    | some name => exact storing_appendName name
    | none => exact moves_throw _

/-- A list counts one holder more of what is put there, unless it holds that already. -/
theorem storing_put (member : v ∈ V) (position : Nat) : Moves (Storing id V) (put id position v) := by
  intro s poised
  unfold put
  rw [read_apply]
  cases list : (s.elements id).isList with
  | false =>
    rw [Bool.false_and, if_neg Bool.false_ne_true]
    exact grows_setElement poised member position fun yes => absurd (list.symm.trans yes) Bool.false_ne_true
  | true =>
    cases there : holdsAt s id position v with
    | true =>
      rw [Bool.not_true, Bool.and_false, if_neg Bool.false_ne_true]
      obtain ⟨w, found, same⟩ := (Option.any_eq_true _ _).mp there
      refine grows_setElement poised member position fun _ => ?_
      exact storable_of_same (List.mem_append_left _ (List.mem_of_getElem? found)) same
    | false =>
      rw [Bool.not_false, Bool.and_true, if_pos rfl]
      have shared := poised.share v
      refine shared.trans (grows_setElement (poised.later shared) member position fun _ => ?_)
      exact poised.storable_shared member

theorem storing_storeAttribute (name : Name) (member : v ∈ V) :
    Moves (Storing id V) (storeAttribute id name v) := by
  intro s poised
  unfold storeAttribute
  rw [read_apply]
  cases there : (s.attribute? id name).any (·.same v) with
  | true =>
    obtain ⟨w, found, same⟩ := (Option.any_eq_true _ _).mp there
    refine grows_setAttribute poised.sound name (fun u given => ?_) fun u given => ?_
    · cases given
      exact poised.admitted v member
    · cases given
      exact storable_of_same (List.mem_append_right _ (Table.mem_values_of_get? found)) same
  | false =>
    have shared := poised.share v
    refine shared.trans (grows_setAttribute (poised.later shared).sound name (fun u given => ?_) fun u given => ?_)
    · cases given
      exact (poised.later shared).admitted v member
    · cases given
      exact poised.storable_shared member

theorem storing_replaceAttribute (name : Name) {v : Option Value} (member : ∀ w, v = some w → w ∈ V) :
    Moves (Storing id V) (replaceAttribute id name v) := by
  unfold replaceAttribute
  cases kept : v.filter (!·.isNull) with
  | some w => exact storing_storeAttribute name (member w (Option.filter_eq_some_iff.mp kept).1)
  | none => exact fun s poised => grows_setAttribute poised.sound name nofun nofun

variable {args : Arguments}

theorem grows_required {A : Ambit} {f : Value → StoreM Value} {name : Name} {position : Nat}
    (rest : ∀ v, args.get? name position = some v → s.Grows A (f v s).2) :
    s.Grows A ((liftM (args.required name position) >>= f : StoreM Value) s).2 := by
  cases given : args.get? name position with
  | none =>
    rw [required_absent given]
    exact .refl s
  | some v =>
    rw [required_then given]
    exact rest v given

/-- A writer finds the vector to write into, and stores values there that keep apart from it. -/
theorem grows_writer {target : StoreM VectorId} {rest : VectorId → StoreM Value}
    (sound : s.Sound (.everything True)) (held : (Ambit.everything True).AdmitsAll s.vectors.size V)
    (found : ∀ id, (Ambit.writingTo id).Checks s.vectors.size
      (fun k id => (Ambit.everything True).Admits k (.vector id)) target)
    (writable : ∀ id t, target s = (.ok id, t) → t.Writable id)
    (apart : ∀ id, (target s).1.toOption = some id → ∀ v ∈ V, ¬s.Entangles v id)
    (stores : ∀ id, Moves (Storing id V) (rest id)) : s.Grows .circleFree ((target >>= rest) s).2 := by
  have finds (id : VectorId) := found id s (sound.withWrite _) (Nat.le_refl _)
  rw [seq_apply]
  rcases run : target s with ⟨f | id, t⟩
  · obtain ⟨_, grows, _⟩ := finds ⟨0⟩
    rw [run] at grows
    exact grows.circleFree
  · obtain ⟨sound', grows, made⟩ := finds id
    have known : (target s).1.toOption = some id := by
      rw [run]
      rfl
    rw [run] at sound' grows made
    have before := (writable id t run).before grows
    have poised : t.Poised id V := by
      refine ⟨sound', Ambit.admits_vector.mp made trivial, held.mono grows.size_le, fun v member => ?_⟩
      exact (clear_of_apart before (held v member) (apart id known v member)).later sound.vectors grows (held v member)
    exact (grows.trans (stores id t poised)).circleFree

/-- A writer closes no circle, unless it is given a value to store that entangles the vector it writes to. -/
theorem grows_unless_closing {op : StrictOp} {m : StoreM Value} (writer : op.writer? args = some m)
    (sound : s.Sound (.everything True)) (held : (Ambit.everything True).AdmitsAll s.vectors.size args.values)
    (apart : ¬Breakpoint.closing.running s op args) : s.Grows .circleFree (m s).2 := by
  have given {name : Name} {position : Nat} {v : Value} (found : args.get? name position = some v)
      (id : VectorId) : (Ambit.writingTo id).Admits s.vectors.size v := held.argument name position v found
  have stored := held.sublist (op.stored_subset args)
  have aparts {id : VectorId} (known : op.target? args s = some id) (v : Value) (member : v ∈ op.stored args) :
      ¬s.Entangles v id := fun entangles => apart ⟨id, known, v, member, entangles⟩
  cases op with
  | setElement =>
    cases writer
    rw [setElement_eq]
    refine grows_required fun target first => grows_required fun index _ => grows_required fun v last => ?_
    refine grows_writer sound stored (fun id => checks_replacementTarget (given first id))
      (fun id t => writable_replacementTarget) (fun id known => aparts ?_) fun id => ?_
    · exact Option.bind_eq_some_iff.mpr ⟨target, first, known⟩
    · exact moves_seq (storing_place index) fun position => moves_seq (storing_put (Option.mem_toList.mpr last) position)
        fun _ => moves_ok _
  | setAttribute =>
    cases writer
    refine grows_required fun target first => ?_
    refine grows_writer sound stored (fun id => checks_attributeTarget (given first id))
      (fun id t => writable_attributeTarget) (fun id known => aparts ?_) fun id => ?_
    · exact Option.bind_eq_some_iff.mpr ⟨target, first, known⟩
    · exact moves_read fun t => moves_seq (moves_except _) fun which => moves_seq (storing_replaceAttribute which
        fun w found => Option.mem_toList.mpr found) fun _ => moves_ok _
  | withAttributes =>
    cases writer
    refine grows_required fun target first => ?_
    refine grows_writer sound stored (fun id => checks_attributeTarget (given first id))
      (fun id t => writable_attributeTarget) (fun id known => aparts ?_) fun id => ?_
    · exact Option.bind_eq_some_iff.mpr ⟨target, first, known⟩
    · refine moves_seq (moves_forAll fun entry member => ?_) fun _ => moves_ok _
      obtain ⟨name, v⟩ := entry
      cases name with
      | none => exact moves_ok ()
      | some name =>
        refine storing_replaceAttribute name fun w same => ?_
        cases same
        exact List.mem_filterMap.mpr ⟨_, member, rfl⟩
  | setClassOf =>
    cases writer
    refine grows_required fun target first => ?_
    refine grows_writer sound stored (fun id => checks_attributeTarget (given first id))
      (fun id t => writable_attributeTarget) (fun id known => aparts ?_) fun id => ?_
    · exact Option.bind_eq_some_iff.mpr ⟨target, first, known⟩
    · exact moves_seq (storing_replaceAttribute "class" fun w found => Option.mem_toList.mpr found) fun _ => moves_ok _
  | _ => cases writer

/-- What is sound with all writes allowed is so with those alone that close no circle, if it makes no other. -/
theorem checks_circleFree {α : Type} {n : Nat} {Q : Nat → α → Prop} {m : StoreM α} {s : Store}
    (checked : (Ambit.everything True).Checks n Q m) (sound : s.Sound .circleFree) (enough : n ≤ s.vectors.size)
    (grows : s.Grows .circleFree (m s).2) :
    (m s).2.Sound .circleFree ∧ s.Grows .circleFree (m s).2 ∧ Ambit.Fair Q (m s).2.vectors.size (m s).1 :=
  ⟨sound.grows grows, grows, (checked s (sound.withWrite _) enough).2.2⟩

/-- Taking an attribute away closes no circle. -/
theorem circleFree_classless (id : VectorId) (n : Nat) :
    Ambit.circleFree.Checks n Ambit.circleFree.Admits (classless id) := by
  refine Ambit.checks_seq (Ambit.checks_lift (Ambit.handles_duplicate id)) fun k copy le there => ?_
  refine Ambit.checks_seq (Q := Ambit.Any) (fun s sound enough => ?_) fun _ _ le' _ =>
    Ambit.checks_ok fun _ le'' => there.mono (Nat.le_trans le' le'')
  have sound' : s.Sound (.writingTo copy) := sound.withWrite _
  refine checks_circleFree (Ambit.checks_setAttribute (fun _ _ => trivial) "class" fun _ => nofun) sound enough ?_
  exact (grows_setAttribute (v := none) sound' "class" (fun _ => nofun) nofun).circleFree

end Builtins

/-- Evaluation where no write closes a circle. -/
def Regime.circleFree : Regime where
  ι := Unit
  late := ⊤
  proper := inferInstance
  ambit := .circleFree
  total := False

namespace Regime

variable {w : Session}

theorem circleFree_permits (f : Failure) (unsignalled : f ≠ .cannotOptimize) : circleFree.Permits w f :=
  ⟨fun same => absurd same unsignalled, fun _ => False.elim⟩

open Classical in
/-- With an alarm before every call that would close a circle none is closed. -/
theorem guarded_closing : circleFree.Guarded (Breakpoint.closing.guard (fail .exhausted)) where
  running {ev w c b op call names values env} lenient issued known strict code held s sound follows := by
    have held : (Ambit.everything True).AdmitsAll s.extent (Arguments.values ⟨names, values⟩) :=
      held.mono follows.extent_le
    have checked (m : StoreM Value) (writer : op.writer? ⟨names, values⟩ = some m) :=
      Builtins.checks_writer (A := .everything True) (fun _ _ => trivial) held writer
    by_cases closing : Breakpoint.closing.running s.store op ⟨names, values⟩
    · refine ⟨.error (.failure .exhausted), s, .of_forall fun i => ?_, sound, .refl s, circleFree_permits _ nofun⟩
      change ((if Breakpoint.closing.running s.store op ⟨names, values⟩ then fail .exhausted else pure ()) >>=
        fun _ => CallByNeed.runBuiltin (ev i) b op call names values env c : EvalM Value) s = _
      rw [if_pos closing]
      rfl
    · obtain ⟨r, t, runs, rest⟩ := (Lands.runBuiltin (K := .circleFree) (follows.builtins ▸ lenient)
        (Nat.lt_of_lt_of_le issued follows.next) env (follows.builtins ▸ known) strict
        (code.mono follows.extent_le) held sound (fun m writer => Builtins.checks_circleFree (checked m writer)
          sound.store (Nat.le_refl _) (Builtins.grows_unless_closing writer (sound.store.withWrite _) held closing))
        Builtins.circleFree_classless).later follows
      refine ⟨r, t, ?_, rest⟩
      filter_upwards [runs] with i run
      change ((if Breakpoint.closing.running s.store op ⟨names, values⟩ then fail .exhausted else pure ()) >>=
        fun _ => CallByNeed.runBuiltin (ev i) b op call names values env c : EvalM Value) s = _
      rw [if_neg closing]
      exact run
  replacing := .branch (fun _ => .permitted (circleFree_permits _ nofun)) fun _ => .value fun _ _ => trivial

/-- Every evaluation with this alarm closes no circle. -/
theorem circleFree_evaluates (depth : Nat) (s : Session) (e : Expr) (env : EnvId) (c : RecordId)
    (issued : c.index < s.records.next) (childless : s.records.Childless c)
    (reads : Ambit.circleFree.Reads s.extent e) :
    circleFree.Conducts s Ambit.circleFree.Admits
      fun _ => (Breakpoint.closing.guard (fail .exhausted)).eval depth e env c := by
  induction depth generalizing s e env c with
  | zero => exact Conducts.permitted (circleFree_permits _ nofun)
  | succ depth ih =>
    have liberal : circleFree.Liberal fun _ => (Breakpoint.closing.guard (fail .exhausted)).eval depth :=
      ⟨fun _ => trivial, fun _ => trivial, ih⟩
    refine Conducts.guardedStep guarded_closing (liberal.ready issued) (fun _ _ _ => liberal) childless env reads
      fun t e' follows _ ok => ⟨ok, fun u env' beside => ?_⟩
    exact ih u e' env' c (Nat.lt_of_lt_of_le issued (Nat.le_trans follows.next beside.next))
      (beside.childless (follows.childless childless)) (ok.mono beside.extent_le)

end Regime

namespace Session

variable {s : Session}

/-- Soundness does not depend on the writes that are allowed. -/
theorem Sound.withWrite {A : Ambit} (sound : s.Sound A) (write : Array Container → Array Container → Prop) :
    s.Sound { A with write } where
  store := sound.store.withWrite write
  heap := ⟨sound.heap.free, sound.heap.bindings⟩
  records := { sound.records with
    within := fun r member =>
      have ok := sound.records.within r member
      ⟨ok.call, ok.function, ok.supplied, ok.object⟩ }
  methods := sound.methods
  tables := sound.tables
  caches site member :=
    have ok := sound.caches site member
    ⟨ok.last, ok.named⟩

/-- An evaluation that does not come to a call that would close a circle closes none. -/
theorem acyclic_evalIn (sound : s.Sound (.everything True)) {e : Expr} (env : EnvId)
    (known : (Ambit.everything True).Reads s.extent e) (missed : ¬s.ComesTo .closing e env)
    (acyclic : Acyclic s.store.vectors) : Acyclic (evalIn e env s).2.store.vectors := by
  have silent : evalWith ((Breakpoint.closing.guard (fail .exhausted)).eval nestingLimit) e env s = evalIn e env s :=
    Classical.not_not.mp fun differs => missed ⟨_, differs⟩
  obtain ⟨a, t, runs, _, follows, _⟩ := Regime.topLevel (K := .circleFree)
    (m := fun _ => (Breakpoint.closing.guard (fail .exhausted)).eval nestingLimit e env) (sound.withWrite _)
    fun u r opened nests _ => Regime.circleFree_evaluates nestingLimit u e env r.id
      (nests.issued opened) nests.childless (known.mono nests.extent_le)
  have run := Filter.eventually_top.mp runs ()
  have closed : Closed s.store.vectors := sound.store.vectors
  obtain ⟨_, still⟩ := follows.course.acyclic closed acyclic
  rw [← silent]
  unfold evalWith atTopLevel
  rw [run]
  rcases a with u | v
  · dsimp only
    cases u.toFailure <;> exact still
  · exact still

end Session
end CallByNeed
