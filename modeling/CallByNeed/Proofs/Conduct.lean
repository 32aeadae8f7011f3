import CallByNeed.Proofs.Soundness
import Mathlib.Order.Filter.Basic

/-!
The conduct of evaluations: from a sound session a computation ends, in a sound session with the same
call records alive, and with a value of the ambit or a failure that is permitted. Several computations
run side by side, one for each index of a family, and come to the same end for all late indices. Rules
for each way of putting computations together.
-/
namespace CallByNeed

variable {α β : Type}

/-- A builtin of the host that does nothing but fail. -/
def Builtin.Raises (b : Builtin) (f : Failure) : Prop := b.operation = .strict (.host (.fail f))

/-- The failure that an operation of the host consists in. -/
def Operation.failure? : Operation → Option Failure
  | .strict (.host (.fail f)) => some f
  | _ => none

theorem Builtin.raises_iff {b : Builtin} {f : Failure} : b.Raises f ↔ b.operation.failure? = some f := by
  unfold Builtin.Raises Operation.failure?
  split
  · rename_i g same
    rw [same]
    simp
  · rename_i other
    exact ⟨fun same => (other f same).elim, nofun⟩

instance (b : Builtin) (f : Failure) : Decidable (b.Raises f) := decidable_of_iff' _ Builtin.raises_iff

/-- A builtin of the ambit. -/
def Ambit.Knows (A : Ambit) (r : Registry) (b : Builtin) : Prop :=
  ∃ id, A.builtin id ∧ r.functions[id]? = some b

/-- A family of computations, an ambit, and whether evaluations have to come to an end. -/
structure Regime where
  ι : Type
  late : Filter ι
  proper : late.NeBot
  ambit : Ambit
  total : Prop

namespace Regime

variable (K : Regime)

/-- Some builtin of the ambit fails so by itself. -/
def Raised (w : Session) (f : Failure) : Prop := ∃ b, K.ambit.Knows w.builtins b ∧ b.Raises f

/-- The failures that may come out of a computation run in a session. Without a builtin that raises the
signals by itself, early evaluation is given up only while a record is flagged, and where evaluations have
to come to an end they do. -/
structure Permits (w : Session) (f : Failure) : Prop where
  lazily : f = .cannotOptimize → w.records.Calm → K.Raised w f
  wholly : f = .exhausted → K.total → K.Raised w f

/-- How a computation run in a session may end. -/
def Ends (w : Session) (Q : Nat → α → Prop) (n : Nat) : Except Unwind α → Prop
  | .ok a => Q n a
  | .error (.leave _ v) => K.ambit.Admits n v
  | .error (.failure f) => K.Permits w f

/-- The computations of a family come from a session to the same end, for all late indices, in a sound
session that follows. -/
def Lands (w s : Session) (Q : Nat → α → Prop) (m : K.ι → EvalM α) : Prop :=
  ∃ r t, (∀ᶠ i in K.late, m i s = (r, t)) ∧ t.Sound K.ambit ∧ s.Follows K.ambit t ∧ K.Ends w Q t.extent r

/-- The same from every sound session that follows a given one. -/
def Conducts (w : Session) (Q : Nat → α → Prop) (m : K.ι → EvalM α) : Prop :=
  ∀ s : Session, s.Sound K.ambit → w.Follows K.ambit s → K.Lands w s Q m

variable {K} {w s t : Session} {P Q : Nat → α → Prop} {R : Nat → β → Prop}

theorem permits_of_fair {f : Failure} (fair : f.isSignal = false) : K.Permits w f := by
  constructor
  · rintro rfl
    cases fair
  · rintro rfl
    cases fair

theorem Raised.congr {f : Failure} (raised : K.Raised s f) (builtins : s.builtins = w.builtins) :
    K.Raised w f := by
  obtain ⟨b, known, raises⟩ := raised
  exact ⟨b, builtins ▸ known, raises⟩

theorem permits_congr {f : Failure} (builtins : s.builtins = w.builtins)
    (calm : w.records.Calm → s.records.Calm) (permits : K.Permits s f) : K.Permits w f where
  lazily same quiet := (permits.lazily same (calm quiet)).congr builtins
  wholly same total := (permits.wholly same total).congr builtins

theorem calm_follows {A : Ambit} (follows : w.Follows A s) (calm : w.records.Calm) :
    s.records.Calm := by
  intro r member
  exact calm r (follows.live ▸ member)

theorem Permits.back {f : Failure} (permits : K.Permits s f) (follows : w.Follows K.ambit s) :
    K.Permits w f := permits_congr follows.builtins (calm_follows follows) permits

theorem Permits.on {f : Failure} (permits : K.Permits w f) (follows : w.Follows K.ambit s) :
    K.Permits s f := by
  refine permits_congr follows.builtins.symm (fun calm r member => ?_) permits
  exact calm r (follows.live ▸ member)

theorem Ends.back {n : Nat} {r : Except Unwind α} (ends : K.Ends s Q n r)
    (follows : w.Follows K.ambit s) : K.Ends w Q n r := by
  rcases r with (f | ⟨env, v⟩) | a
  · exact Permits.back ends follows
  · exact ends
  · exact ends

theorem Ends.weaken {n : Nat} {r : Except Unwind α} (ends : K.Ends w P n r)
    (weaker : ∀ a, P n a → Q n a) : K.Ends w Q n r := by
  rcases r with (f | ⟨env, v⟩) | a
  · exact ends
  · exact ends
  · exact weaker a ends

namespace Conducts

theorem later {m : K.ι → EvalM α} (conducts : K.Conducts w Q m) (follows : w.Follows K.ambit s) :
    K.Conducts s Q m := by
  intro u sound onward
  obtain ⟨r, t, runs, sound', follows', ends⟩ := conducts u sound (follows.trans onward)
  refine ⟨r, t, runs, sound', follows', ?_⟩
  rcases r with (f | ⟨env, v⟩) | a
  · exact Permits.on ends follows
  · exact ends
  · exact ends

theorem weaken {m : K.ι → EvalM α} (conducts : K.Conducts w P m) (weaker : ∀ n a, P n a → Q n a) :
    K.Conducts w Q m := by
  intro s sound follows
  obtain ⟨r, t, runs, sound', follows', ends⟩ := conducts s sound follows
  exact ⟨r, t, runs, sound', follows', ends.weaken (weaker _)⟩

/-- A computation that leaves the session as it is. -/
theorem still {m : K.ι → EvalM α} (runs : ∀ s : Session, s.Sound K.ambit → w.Follows K.ambit s →
    ∃ r, (∀ i, m i s = (r, s)) ∧ K.Ends w Q s.extent r) : K.Conducts w Q m := by
  intro s sound follows
  obtain ⟨r, same, ends⟩ := runs s sound follows
  exact ⟨r, s, .of_forall same, sound, .refl s, ends⟩

/-- A computation that is the same at every index and gives a value. -/
theorem sure {m : EvalM α} (conducts : K.Conducts w Q fun _ => m) (sound : s.Sound K.ambit)
    (follows : w.Follows K.ambit s) {a : α} (gives : (m s).1 = .ok a) :
    ∃ t, m s = (.ok a, t) ∧ t.Sound K.ambit ∧ s.Follows K.ambit t ∧ Q t.extent a := by
  obtain ⟨r, t, runs, sound', follows', ends⟩ := conducts s sound follows
  have proper := K.proper
  obtain ⟨_, run⟩ := runs.exists
  change m s = (r, t) at run
  rw [run] at gives
  cases gives
  exact ⟨t, run, sound', follows', ends⟩

theorem value {a : α} (ok : ∀ k, w.extent ≤ k → Q k a) : K.Conducts w Q fun _ => pure a :=
  still fun _ _ follows => ⟨.ok a, fun _ => rfl, ok _ follows.extent_le⟩

theorem permitted {f : Failure} (permits : K.Permits w f) :
    K.Conducts w Q fun _ => (fail f : EvalM α) :=
  still fun _ _ _ => ⟨.error (.failure f), fun _ => rfl, permits⟩

theorem failure {f : Failure} (fair : f.isSignal = false) :
    K.Conducts w Q fun _ => (fail f : EvalM α) := permitted (permits_of_fair fair)

theorem leaving {env : EnvId} {v : Value} (ok : K.ambit.Admits w.extent v) :
    K.Conducts w Q fun _ => (throw (.leave env v) : EvalM α) :=
  still fun _ _ follows => ⟨.error (.leave env v), fun _ => rfl, ok.mono follows.extent_le⟩

theorem reading {f : K.ι → Session → EvalM α} (rest : ∀ s : Session, s.Sound K.ambit →
    w.Follows K.ambit s → K.Conducts s Q fun i => f i s) :
    K.Conducts w Q fun i => get >>= f i := by
  intro s sound follows
  obtain ⟨r, t, runs, sound', follows', ends⟩ := rest s sound follows s sound (.refl s)
  exact ⟨r, t, runs, sound', follows', ends.back follows⟩

end Conducts

theorem Lands.observing {m : K.ι → EvalM α} {k : K.ι → Except Unwind α → EvalM β} (first : K.Lands w s Q m)
    (follows : w.Follows K.ambit s) (rest : ∀ t r, w.Follows K.ambit t → K.Ends w Q t.extent r →
      K.Conducts t R fun i => k i r) : K.Lands w s R fun i => observe (m i) >>= k i := by
  obtain ⟨r, t, runs, sound', follows', ends⟩ := first
  have onward := follows.trans follows'
  obtain ⟨r', t', runs', sound'', follows'', ends'⟩ := rest t r onward ends t sound' (.refl t)
  refine ⟨r', t', ?_, sound'', follows'.trans follows'', ends'.back onward⟩
  filter_upwards [runs, runs'] with i run run'
  rw [observe_bind, run]
  exact run'

namespace Conducts

theorem lands {m : K.ι → EvalM α} (conducts : K.Conducts s Q m) (sound : s.Sound K.ambit) :
    K.Lands s s Q m := conducts s sound (.refl s)

theorem observing {m : K.ι → EvalM α} {k : K.ι → Except Unwind α → EvalM β}
    (first : K.Conducts w Q m) (rest : ∀ t r, w.Follows K.ambit t → K.Ends w Q t.extent r →
      K.Conducts t R fun i => k i r) : K.Conducts w R fun i => observe (m i) >>= k i :=
  fun s sound follows => (first s sound follows).observing follows rest

theorem andThen {m : K.ι → EvalM α} {f : K.ι → α → EvalM β} (first : K.Conducts w Q m)
    (rest : ∀ t a, w.Follows K.ambit t → Q t.extent a → K.Conducts t R fun i => f i a) :
    K.Conducts w R fun i => m i >>= f i := by
  intro s sound follows
  obtain ⟨r, t, runs, sound', follows', ends⟩ := first s sound follows
  have onward := follows.trans follows'
  rcases r with (g | ⟨env, v⟩) | a
  · refine ⟨.error (.failure g), t, ?_, sound', follows', ends⟩
    filter_upwards [runs] with i run
    rw [bind_apply, run]
  · refine ⟨.error (.leave env v), t, ?_, sound', follows', ends⟩
    filter_upwards [runs] with i run
    rw [bind_apply, run]
  · obtain ⟨r', t', runs', sound'', follows'', ends'⟩ := rest t a onward ends t sound' (.refl t)
    refine ⟨r', t', ?_, sound'', follows'.trans follows'', ends'.back onward⟩
    filter_upwards [runs, runs'] with i run run'
    rw [bind_apply, run]
    exact run'

theorem map {m : K.ι → EvalM α} {f : α → β} (conducts : K.Conducts w Q m)
    (ok : ∀ n a, Q n a → R n (f a)) : K.Conducts w R fun i => f <$> m i := by
  intro s sound follows
  obtain ⟨r, t, runs, sound', follows', ends⟩ := conducts s sound follows
  refine ⟨f <$> r, t, ?_, sound', follows', ?_⟩
  · filter_upwards [runs] with i run
    rw [map_eq_pure_bind, bind_apply, run]
    rcases r with u | a <;> rfl
  · rcases r with (g | ⟨env, v⟩) | a
    · exact ends
    · exact ends
    · exact ok _ _ ends

theorem branch {c : Prop} [Decidable c] {m m' : K.ι → EvalM α} (yes : c → K.Conducts w Q m)
    (no : ¬c → K.Conducts w Q m') : K.Conducts w Q fun i => if c then m i else m' i := by
  by_cases holds : c
  · simpa only [if_pos holds] using yes holds
  · simpa only [if_neg holds] using no holds

theorem failIf {c : Bool} {f : Failure} (fair : f.isSignal = false) :
    K.Conducts w Ambit.Any fun _ => failIf c f := by
  cases c with
  | true => exact failure fair
  | false => exact value fun _ _ => trivial

theorem failAt {c : RecordId} {f : Failure} (fair : f.isSignal = false) :
    K.Conducts w Q fun _ => (failAt c f : EvalM α) := by
  refine reading fun s _ _ => failure ?_
  cases f with
  | condition c => rfl
  | _ => exact fair

theorem lifting {r : Except Failure α} (fair : ∀ k, w.extent ≤ k → Ambit.Fair Q k r) :
    K.Conducts w Q fun _ => liftExcept r := by
  cases r with
  | ok a => exact value fair
  | error f => exact failure (fair _ (Nat.le_refl _))

theorem readingHeap {f : Heap → Except Failure α} (fair : ∀ s : Session, s.Sound K.ambit →
    w.Follows K.ambit s → Ambit.Fair Q s.extent (f s.heap)) :
    K.Conducts w Q fun _ => readHeap f := by
  refine still fun s sound follows => ?_
  have ends := fair s sound follows
  rw [readHeap_apply]
  cases found : f s.heap with
  | ok a => exact ⟨.ok a, fun _ => rfl, by rwa [found] at ends⟩
  | error g =>
    rw [found] at ends
    exact ⟨.error (.failure g), fun _ => rfl, permits_of_fair ends⟩

/-- A change of the session that gives a result. -/
theorem altering {g : Session → α × Session} (keeps : ∀ s : Session, s.Sound K.ambit →
    w.Follows K.ambit s → (g s).2.Sound K.ambit ∧ s.Follows K.ambit (g s).2 ∧ Q (g s).2.extent (g s).1) :
    K.Conducts w Q fun _ => (modifyGet g : EvalM α) := by
  intro s sound follows
  obtain ⟨sound', follows', ok⟩ := keeps s sound follows
  exact ⟨.ok (g s).1, (g s).2, .of_forall fun _ => rfl, sound', follows', ok⟩

theorem updating {f : Session → Session} (keeps : ∀ s : Session, s.Sound K.ambit →
    w.Follows K.ambit s → (f s).Sound K.ambit ∧ s.Follows K.ambit (f s)) :
    K.Conducts w Ambit.Any fun _ => modify f :=
  altering fun s sound follows => ⟨(keeps s sound follows).1, (keeps s sound follows).2, trivial⟩

/-- A change of the session that was read. -/
theorem replacing {f : Session → Session} {k : K.ι → Session → EvalM α} (keeps : ∀ s : Session,
    s.Sound K.ambit → w.Follows K.ambit s → (f s).Sound K.ambit ∧ s.Follows K.ambit (f s))
    (rest : ∀ s : Session, s.Sound K.ambit → w.Follows K.ambit s → K.Conducts (f s) Q fun i => k i s) :
    K.Conducts w Q fun i => get >>= fun s => set (f s) >>= fun _ => k i s := by
  intro s sound follows
  obtain ⟨sound', follows'⟩ := keeps s sound follows
  obtain ⟨r, t, runs, sound'', follows'', ends⟩ := rest s sound follows (f s) sound' (.refl _)
  exact ⟨r, t, runs, sound'', follows'.trans follows'', ends.back (follows.trans follows')⟩

/-! Changes of a session. -/

end Conducts

/-- Work on the objects of a session. -/
theorem Lands.storing {m : StoreM α} (sound : s.Sound K.ambit) (checked : (m s.store).2.Sound K.ambit ∧
    s.store.Grows K.ambit (m s.store).2 ∧ Ambit.Fair Q (m s.store).2.vectors.size (m s.store).1) :
    K.Lands w s Q fun _ => onStore m := by
  obtain ⟨sound', grows, fair⟩ := checked
  rcases run : m s.store with ⟨f | a, store⟩
  · have applied : onStore m s = (.error (.failure f), { s with store }) := by
      rw [onStore_apply, run]
    rw [run] at sound' grows fair
    exact ⟨.error (.failure f), { s with store }, .of_forall fun _ => applied,
      sound.withStore sound' grows.size_le, Session.follows_grown grows, permits_of_fair fair⟩
  · have applied : onStore m s = (.ok a, { s with store }) := by rw [onStore_apply, run]
    rw [run] at sound' grows fair
    exact ⟨.ok a, { s with store }, .of_forall fun _ => applied,
      sound.withStore sound' grows.size_le, Session.follows_grown grows, fair⟩

namespace Conducts

theorem storing {m : StoreM α} (checks : K.ambit.Checks w.extent Q m) :
    K.Conducts w Q fun _ => onStore m :=
  fun s sound follows => .storing sound (checks s.store sound.store follows.extent_le)

theorem allocating {m : Alloc α} (handles : K.ambit.Handles w.extent Q m) :
    K.Conducts w Q fun _ => allocate m := storing (Ambit.checks_lift handles)

theorem modifying {f : Store → Store}
    (handles : K.ambit.Handles w.extent Ambit.Any (modify f)) :
    K.Conducts w Ambit.Any fun _ => modifyStore f := storing (Ambit.checks_lift handles)

theorem vector {xs : Elements} (atomic : xs.children = []) :
    K.Conducts w K.ambit.Admits fun _ => allocate (Store.vector xs) := by
  refine allocating (Ambit.handles_vector ?_)
  rw [atomic]
  exact Ambit.admitsAll_nil

/-- Objects other than vectors made or changed. -/
theorem arranging {m : Alloc α} (arranged : ∀ s : Session, s.Sound K.ambit → w.Follows K.ambit s →
    (m s.store).2.Sound K.ambit ∧ (∀ id, (m s.store).2.Open id → s.store.Open id) ∧
      (m s.store).2.vectors = s.store.vectors ∧ Q s.extent (m s.store).1) :
    K.Conducts w Q fun _ => allocate m := by
  intro s sound follows
  obtain ⟨sound', opens, vectors, ok⟩ := arranged s sound follows
  refine ⟨.ok (m s.store).1, { s with store := (m s.store).2 }, .of_forall fun _ => rfl,
    sound.withStore sound' (by rw [vectors]), Session.follows_withStore opens (by rw [vectors]), ?_⟩
  change Q (m s.store).2.vectors.size _
  rwa [vectors]

theorem promising {p : Promise} (ok : K.ambit.AllowsPromise w.extent p) :
    K.Conducts w K.ambit.AdmitsFreely fun _ => allocate (.promise <$> Store.addPromise p) :=
  arranging fun _ sound follows => ⟨sound.store.addPromise (ok.mono follows.extent_le),
    fun _ => Store.open_addPromise, rfl, fun free => Ambit.admits_promise.mpr (free _)⟩

theorem lazyPromise {e : Expr} (env : EnvId) (origin : Origin) (c : RecordId)
    (ok : K.ambit.Reads w.extent e) :
    K.Conducts w K.ambit.AdmitsFreely fun _ => allocate (Store.lazyPromise e env origin c) :=
  promising ⟨ok, nofun, nofun⟩

theorem evaluatedPromise {e : Expr} {v : Value} (origin : Origin) (ok : K.ambit.Reads w.extent e)
    (constant : e.constant? = some v) :
    K.Conducts w K.ambit.AdmitsFreely fun _ => allocate (Store.evaluatedPromise e v origin) := by
  refine promising ⟨ok, fun u same => ?_, nofun⟩
  cases same
  exact ok.ofConstant constant

theorem listing {d : Dots} (ok : K.ambit.AdmitsAll w.extent d.values) :
    K.Conducts w Ambit.Any fun _ => allocate (Store.addDots d) :=
  arranging fun _ sound follows => ⟨sound.store.addDots (ok.mono follows.extent_le),
    fun _ waiting => waiting, rfl, trivial⟩

/-- A change of a promise that makes none wait. -/
theorem turning {id : PromiseId} {f : Promise → Promise}
    (ok : ∀ n p, w.extent ≤ n → K.ambit.AllowsPromise n p → K.ambit.AllowsPromise n (f p))
    (kept : ∀ p env, (f p).state = .unevaluated env → ∃ env, p.state = .unevaluated env) :
    K.Conducts w Ambit.Any fun _ => modifyStore (Store.modifyPromise id f) :=
  arranging (m := modify (Store.modifyPromise id f)) fun _ sound follows =>
    ⟨sound.store.modifyPromise (fun p => ok _ p follows.extent_le) id,
      fun _ => Store.open_modifyPromise kept, rfl, trivial⟩

/-- A change of what a session reports and counts. -/
theorem noting {f : Session → Session} (same : ∀ s, (f s).core = s.core) :
    K.Conducts w Ambit.Any fun _ => modify f :=
  updating fun s sound _ => ⟨sound.same (same s), Session.follows_same (congrArg (·.store) (same s))
    (congrArg (·.heap) (same s)) (congrArg (·.records) (same s)) (congrArg (·.options) (same s))
    (congrArg (·.builtins) (same s))⟩

theorem polling : K.Conducts w Ambit.Any fun _ => checkInterrupt := by
  refine reading fun s _ _ => ?_
  cases s.interrupt with
  | true => exact andThen (noting fun _ => rfl) fun _ _ _ _ => failure rfl
  | false => exact value fun _ _ => trivial

theorem rebinding {f : Heap → Except Failure Heap} (fair : ∀ s : Session, s.Sound K.ambit →
    w.Follows K.ambit s → Ambit.Fair (fun n h => h.Sound K.ambit n ∧
      ∀ env, s.heap.contains env = true → h.contains env = true) s.extent (f s.heap)) :
    K.Conducts w Ambit.Any fun _ => updateHeap f := by
  intro s sound follows
  have ok := fair s sound follows
  cases found : f s.heap with
  | error g =>
    have applied : updateHeap f s = (.error (.failure g), s) := by
      rw [updateHeap_apply, found]
    rw [found] at ok
    exact ⟨_, s, .of_forall fun _ => applied, sound, .refl s, permits_of_fair ok⟩
  | ok heap =>
    have applied : updateHeap f s = (.ok (), { s with heap }) := by
      rw [updateHeap_apply, found]
    rw [found] at ok
    exact ⟨_, { s with heap }, .of_forall fun _ => applied, { sound with heap := ok.1 },
      Session.follows_withHeap ok.2, trivial⟩

theorem defining {env : EnvId} {v : Value} (name : Name) (ok : K.ambit.Admits w.extent v) :
    K.Conducts w Ambit.Any fun _ => define env name v := by
  refine andThen (Q := Ambit.Any) (map (readingHeap (Q := Ambit.Any)
    fun s _ _ => Ambit.fair_any (Heap.fair_frame (n := 0) s.heap env)) fun _ _ _ => trivial)
    fun t _ follows _ => updating fun s sound onward => ⟨?_, ?_⟩
  · exact { sound with
      heap := sound.heap.bind env fun _ => ok.mono (follows.trans onward).extent_le }
  · exact Session.follows_withHeap fun _ alive => Heap.contains_bind name v alive

/-- What needs lazy evaluation gives up under a flagged record. -/
theorem guarding {c : RecordId} {f : K.ι → Unit → EvalM α} (rest : ∀ s : Session,
    s.Sound K.ambit → w.Follows K.ambit s → s.records.eagerOnly c = false →
      K.Conducts s Q fun i => f i ()) : K.Conducts w Q fun i => ensureLazy c >>= f i := by
  intro s sound follows
  cases flag : s.records.eagerOnly c with
  | true =>
    have gives (i : K.ι) : (ensureLazy c >>= f i) s = (.error (.failure .cannotOptimize), s) := by
      rw [bind_apply, ensureLazy_apply, flag]
      rfl
    refine ⟨.error (.failure .cannotOptimize), s, .of_forall gives, sound, .refl s, ⟨fun _ calm => ?_, nofun⟩⟩
    rw [(calm_follows follows calm).eagerOnly c] at flag
    cases flag
  | false =>
    obtain ⟨r, t, runs, sound', follows', ends⟩ := rest s sound follows flag s sound (.refl s)
    refine ⟨r, t, ?_, sound', follows', ends.back follows⟩
    filter_upwards [runs] with i run
    rw [bind_apply, ensureLazy_apply, flag]
    exact run

/-- A computation under a record that was opened for it. -/
theorem closing {r : Record} {m : K.ι → EvalM α}
    (nests : w.Nests K.ambit s r) (calm : w.records.Calm → r.eagerOnly = false)
    (lands : K.Lands s s Q m) :
    ∃ a t, (∀ᶠ i in K.late, releasing r.id (m i) s = (a, t)) ∧ t.Sound K.ambit ∧
      w.Follows K.ambit t ∧ K.Ends w Q t.extent a := by
  obtain ⟨a, t, runs, sound', follows, ends⟩ := lands
  obtain ⟨ok, back⟩ := (nests.follow follows).closing sound'
  refine ⟨a, { t with records := t.records.release r.id }, ?_, ok, back, ?_⟩
  · filter_upwards [runs] with i run
    unfold releasing
    rw [run]
  · rcases a with (f | ⟨env, v⟩) | a
    · refine permits_congr nests.builtins (fun quiet => ?_) ends
      intro other member
      rw [nests.live] at member
      rcases List.mem_cons.mp member with rfl | old
      · exact calm quiet
      · exact quiet other old
    · exact ends
    · exact ends

end Conducts
end Regime
end CallByNeed
