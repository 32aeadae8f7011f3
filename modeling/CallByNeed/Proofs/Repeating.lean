import CallByNeed.Proofs.Forwarding
import CallByNeed.Proofs.MirroringBuiltins
import CallByNeed.Proofs.Staleness

/-!
The evaluation of an expression without effects, and the same evaluation later. In between, promises may have
been forced and vectors made, but the frames that the names are looked up in are the same, and so are the
contents of what is read. Then the second evaluation takes the way of the first: each search finds what it
found then, and each builtin makes of arguments that mirror those of then a value that mirrors the one of
then.
-/
namespace CallByNeed

variable {α β γ δ : Type}

namespace Store

/-- Vectors were made and sharing states have risen; nothing else has changed. -/
def Extended (s t : Store) : Prop := Grown s t ∧ t = { s with vectors := t.vectors }

instance : Owning Extended where
  refl s := ⟨Chained.refl s, rfl⟩
  trans first second := by
    refine ⟨Chained.trans first.1 second.1, ?_⟩
    rw [second.2, first.2]
  addVector c s := ⟨Owning.addVector c s, rfl⟩
  raise f up v s := by
    refine ⟨Owning.raise f up v s, ?_⟩
    cases v <;> rfl

theorem Effectless.grown {s t : Store} (effectless : s.Effectless t) : Grown s t := by
  refine ⟨effectless.spares, Nat.le_of_not_lt fun fewer => ?_⟩
  exact absurd (effectless.spares ⟨t.vectors.size⟩ fewer).1 (Nat.lt_irrefl _)

end Store

theorem Session.Still.heap {s t : Session} (still : s.Still t) : t.heap = s.heap := by rw [still.rest]

/-- A session that has only made vectors, raised sharing states and numbered records. -/
structure Session.Muses (u t : Session) : Prop where
  rest : t = { u with store := t.store, records := t.records }
  store : u.store.Extended t.store
  live : t.records.live = u.records.live
  next : u.records.next ≤ t.records.next

namespace Session.Muses

variable {s t u : Session}

theorem refl (u : Session) : u.Muses u := ⟨rfl, Store.Chained.refl _, rfl, Nat.le_refl _⟩

theorem trans (first : s.Muses t) (second : t.Muses u) : s.Muses u where
  rest := second.rest.trans (congrArg (fun x : Session =>
    { x with store := u.store, records := u.records }) first.rest)
  store := Store.Chained.trans first.store second.store
  live := second.live.trans first.live
  next := Nat.le_trans first.next second.next

theorem heap (muses : u.Muses t) : t.heap = u.heap := by rw [muses.rest]

theorem promise (muses : u.Muses t) (id : PromiseId) : t.store.promise id = u.store.promise id := by
  rw [muses.store.2]
  rfl

end Session.Muses

theorem Promise.Settles.evaluated {p q : Promise} (settles : p.Settles q) {v : Value}
    (done : p.state = .evaluated v) : q.state = .evaluated v := by
  cases settles with
  | untouched => exact done
  | used waiting => cases waiting.symm.trans done
  | givenUp waiting => exact done

theorem Promise.Settles.underway {p q : Promise} (settles : p.Settles q) {env : EnvId}
    (running : q.state = .underEvaluation env) : p.state = .underEvaluation env := by
  cases settles with
  | untouched => exact running
  | used => cases running
  | givenUp waiting => exact running

/-- The setting of a second evaluation: the session where it starts, the environment, the frames of its chain
and the values in sight. -/
structure Reprise where
  session : Session
  env : EnvId
  chain : List EnvId
  known : Value → Prop
  calm : session.interrupt = false
  issued : session.records.Issued
  /-- The chain goes on only through frames that were there before. -/
  way : ∃ extra, session.heap.chain env = chain ++ extra ∧ extra ⊆ chain
  chains : ∀ store v, known (.vector (session.implicit.ofValue store v))

namespace Reprise

variable {K : Reprise} {s t s' t' : Session} {caller : RecordId}

/-- A value bound in a frame of the chain. -/
def Binds (K : Reprise) (v : Value) : Prop :=
  ∃ e ∈ K.chain, ∃ f name, K.session.heap.frame? e = some f ∧ f.bindings.get? name = some v

/-- What a value comes to that needs no evaluation. -/
inductive Yields (K : Reprise) : Value → Value → Prop
  | itself {v : Value} (plain : v.promise? = none) : K.Yields v v
  | evaluated {id : PromiseId} {v : Value} (done : (K.session.store.promise id).state = .evaluated v) :
      K.Yields (.promise id) v
  | underway {id : PromiseId} {env : EnvId}
      (running : (K.session.store.promise id).state = .underEvaluation env)
      (lenient : K.session.options.strictPromiseCycles = false) : K.Yields (.promise id) .missing

/-- Two sessions, one in the course of each evaluation. -/
structure Facing (K : Reprise) (s t : Session) : Prop where
  muses : K.session.Muses t
  standard : s.builtins = Registry.standard
  builtins : K.session.builtins = s.builtins
  implicit : K.session.implicit = s.implicit
  methods : K.session.methods = s.methods
  options : K.session.options.strictPromiseCycles = s.options.strictPromiseCycles
  size : s.heap.slots.size ≤ K.session.heap.slots.size
  chain : s.heap.chain K.env = K.chain
  frames : ∀ e ∈ K.chain, K.session.heap.frame? e = s.heap.frame? e
  there : ∀ id, K.Binds (.promise id) → id.index < s.store.promises.size
  underway : ∀ id env, K.Binds (.promise id) → (s.store.promise id).state = .underEvaluation env →
    ∃ d, (K.session.store.promise id).state = .underEvaluation d
  mirrors : ∀ v, K.known v → s.store.Mirrors t.store v v

/-- The promises that are evaluated have their values still where the second evaluation starts. -/
def Settled (K : Reprise) (s : Session) : Prop :=
  ∀ id v, id.index < s.store.promises.size → (s.store.promise id).state = .evaluated v →
    (K.session.store.promise id).state = .evaluated v

theorem Facing.next (facing : K.Facing s t) (still : s.Still s') (muses : t.Muses t') : K.Facing s' t' := by
  have heap := still.heap
  constructor
  · exact facing.muses.trans muses
  · rw [still.rest]
    exact facing.standard
  · rw [still.rest]
    exact facing.builtins
  · rw [still.rest]
    exact facing.implicit
  · rw [still.rest]
    exact facing.methods
  · rw [still.rest]
    exact facing.options
  · rw [heap]
    exact facing.size
  · rw [heap]
    exact facing.chain
  · rw [heap]
    exact facing.frames
  · exact fun id bound => Nat.lt_of_lt_of_le (facing.there id bound) still.store.promises
  · intro id env bound running
    exact facing.underway id env bound ((still.store.settles id (facing.there id bound)).underway running)
  · exact fun v known => (facing.mirrors v known).mono still.store.grown muses.store.1

theorem Facing.follows {m : EvalM α} {r : Except Unwind α × Session} (facing : K.Facing s t)
    (flagged : s.records.eagerOnly caller = true) (run : m s = r)
    (confined : Restraint.effectless.Confines caller fun _ : Unit => m) : Restraint.effectless.Follows s r :=
  run ▸ confined.follows s facing.standard flagged

theorem Settled.before (settled : K.Settled s') (still : s.Still s') : K.Settled s := fun id v old done =>
  settled id v (Nat.lt_of_lt_of_le old still.store.promises) ((still.store.settles id old).evaluated done)

/-- From here the second evaluation comes to a value if the first does, and to a related one. -/
def Again (K : Reprise) (R : Store → Store → α → β → Prop) (m : EvalM α) (n : EvalM β) (s t : Session) : Prop :=
  ∀ a s', m s = (.ok a, s') → K.Settled s' → ∃ b t', n t = (.ok b, t') ∧ t.Muses t' ∧ R s'.store t'.store a b

/-- A computation under a flagged record, and one that takes the same way later. -/
structure Echoes (K : Reprise) (caller : RecordId) (R : Store → Store → α → β → Prop) (m : EvalM α)
    (n : EvalM β) : Prop where
  confined : Restraint.effectless.Confines caller fun _ : Unit => m
  again : ∀ s t, K.Facing s t → s.records.eagerOnly caller = true → K.Again R m n s t

/-- A computation that comes to the same later. -/
abbrev Repeats (K : Reprise) (caller : RecordId) (m n : EvalM α) : Prop :=
  K.Echoes caller (fun _ _ => Eq) m n

section

variable {Q : Store → Store → α → γ → Prop} {R : Store → Store → β → δ → Prop} {m : EvalM α} {n : EvalM γ}
  {f : α → EvalM β} {g : γ → EvalM δ}

/-- What follows the first of two computations. -/
theorem Again.seq (facing : K.Facing s t) (flagged : s.records.eagerOnly caller = true)
    (confined : Restraint.effectless.Confines caller fun _ : Unit => m) (first : K.Again Q m n s t)
    (onward : ∀ a, Restraint.effectless.Confines caller fun _ : Unit => f a)
    (rest : ∀ a c s' t', s.Still s' → t.Muses t' → K.Facing s' t' → s'.records.eagerOnly caller = true →
      Q s'.store t'.store a c → K.Again R (f a) (g c) s' t') : K.Again R (m >>= f) (n >>= g) s t := by
  intro b s'' run settled
  obtain ⟨a, s', start, last⟩ := parts_of_bind run
  have follows := facing.follows flagged start confined
  have flagged' := follows.raised.eagerOnly flagged
  have standard' : s'.builtins = Registry.standard := follows.builtins.trans facing.standard
  have further := (onward a).follows s' standard' flagged'
  rw [last] at further
  obtain ⟨c, t', again, muses, related⟩ := first a s' start (settled.before further.relates)
  obtain ⟨d, t'', again', muses', related'⟩ :=
    rest a c s' t' follows.relates muses (facing.next follows.relates muses) flagged' related b s'' last settled
  refine ⟨d, t'', ?_, muses.trans muses', related'⟩
  rw [bind_apply, again]
  exact again'

theorem Echoes.seq (first : K.Echoes caller Q m n)
    (onward : ∀ a, Restraint.effectless.Confines caller fun _ : Unit => f a)
    (rest : ∀ a c s t, K.Facing s t → s.records.eagerOnly caller = true → Q s.store t.store a c →
      K.Again R (f a) (g c) s t) : K.Echoes caller R (m >>= f) (n >>= g) where
  confined := first.confined.andThen onward
  again s t facing flagged := .seq facing flagged first.confined (first.again s t facing flagged) onward
    fun a c s' t' _ _ => rest a c s' t'

end

section

variable {R : Store → Store → α → β → Prop}

theorem Repeats.andThen {m n : EvalM γ} {f : γ → EvalM α} {g : γ → EvalM β} (first : K.Repeats caller m n)
    (rest : ∀ a, K.Echoes caller R (f a) (g a)) : K.Echoes caller R (m >>= f) (n >>= g) :=
  first.seq (fun a => (rest a).confined) fun a _ s t facing flagged same => by
    subst same
    exact (rest a).again s t facing flagged

theorem again_pure {a : α} {b : β} (related : R s.store t.store a b) : K.Again R (pure a) (pure b) s t := by
  rintro _ _ ⟨⟩ _
  exact ⟨b, t, rfl, .refl t, related⟩

/-- There is nothing to repeat where the first computation fails. -/
theorem again_failed {m : EvalM α} {n : EvalM β} (failed : ∀ a, (m s).1 ≠ .ok a) : K.Again R m n s t := by
  intro a s' run
  exact absurd (congrArg (·.1) run) (failed a)

theorem Echoes.value (a : α) : K.Repeats caller (pure a) (pure a) := ⟨.value a, fun _ _ _ _ => again_pure rfl⟩

theorem Echoes.failAt (record : RecordId) (f : Failure) (n : EvalM β) :
    K.Echoes caller R (CallByNeed.failAt record f) n :=
  ⟨.failingAt record f, fun _ _ _ _ => again_failed nofun⟩

end

/-! Variables. -/

theorem Facing.lookup (facing : K.Facing s t) (name : Name) :
    K.session.heap.lookup K.env name = s.heap.lookup K.env name :=
  Heap.lookup_kept facing.size (fun e member => facing.frames e (facing.chain ▸ member)) name

theorem binds_of_lookupAlong {h : Heap} {name : Name} {ids : List EnvId} {e : EnvId} {v : Value}
    (found : h.lookupAlong name ids = .ok (some (e, v))) :
    e ∈ ids ∧ ∃ f, h.frame? e = some f ∧ f.bindings.get? name = some v := by
  induction ids with
  | nil => cases found
  | cons id rest ih =>
    rw [Heap.lookupAlong_cons] at found
    split at found
    · cases found
    · rename_i f alive
      split at found
      · rename_i bound
        cases found
        exact ⟨List.mem_cons_self, f, alive, bound⟩
      · obtain ⟨member, there⟩ := ih found
        exact ⟨List.mem_cons_of_mem _ member, there⟩

theorem Facing.binds (facing : K.Facing s t) {name : Name} {e : EnvId} {v : Value}
    (found : s.heap.lookup K.env name = .ok (some (e, v))) : K.Binds v := by
  obtain ⟨member, f, alive, bound⟩ := binds_of_lookupAlong found
  rw [facing.chain] at member
  exact ⟨e, member, f, name, (facing.frames e member).trans alive, bound⟩

/-- A promise that was read without entering its code has that value to give. -/
theorem Facing.yields_force {ev : Evaluator} {id : PromiseId} {a : Value} (facing : K.Facing s t)
    (flagged : s.records.eagerOnly caller = true) (bound : K.Binds (.promise id))
    (run : force ev id caller s = (.ok a, s')) (settled : K.Settled s') : K.Yields (.promise id) a := by
  have there := facing.there id bound
  unfold force at run
  rw [get_bind] at run
  cases state : (s.store.promise id).state with
  | evaluated v =>
    rw [state] at run
    cases run
    exact .evaluated (settled id a there state)
  | underEvaluation env =>
    rw [state] at run
    obtain ⟨d, running⟩ := facing.underway id env bound state
    cases strict : s.options.strictPromiseCycles with
    | true =>
      simp only [strict, if_true] at run
      cases run
    | false =>
      simp only [strict] at run
      cases run
      refine .underway running ?_
      rw [facing.options]
      exact strict
  | unevaluated env =>
    rw [state] at run
    dsimp only at run
    obtain ⟨found, u, taken, onward⟩ := parts_of_bind run
    rcases takeEagerValue_cases id s with ⟨_, used⟩ | ⟨eager, _, _, ⟨_, used⟩ | used⟩
    · cases used.symm.trans taken
      dsimp only at onward
      rw [bind_apply, ensureLazy_apply, flagged] at onward
      cases onward
    · cases used.symm.trans taken
      cases onward
      have inside : id.index < (s.store.share eager.value).promises.size := by
        simpa [Store.share, Disciplined.setSharing_promises] using there
      refine .evaluated (settled id eager.value ?_ ?_)
      · simpa [Store.fulfil, Store.setPromiseState, Store.modifyPromise] using inside
      · unfold Store.fulfil Store.setPromiseState
        dsimp only
        rw [Store.promise_modify, if_pos ⟨rfl, inside⟩]
    · cases used.symm.trans taken
      dsimp only at onward
      rw [bind_apply, ensureLazy_apply, flagged] at onward
      cases onward

theorem Facing.yields_forceValue {ev : Evaluator} {v a : Value} (facing : K.Facing s t)
    (flagged : s.records.eagerOnly caller = true) (bound : K.Binds v)
    (run : forceValue ev v caller s = (.ok a, s')) (settled : K.Settled s') : K.Yields v a := by
  cases v with
  | promise id => exact facing.yields_force flagged bound run settled
  | _ =>
    cases run
    exact .itself rfl

/-- What a value comes to without evaluation it comes to in every session that was only mused in. -/
theorem Yields.force {ev : Evaluator} {id : PromiseId} {a : Value} (yields : K.Yields (.promise id) a)
    (muses : K.session.Muses t) (record : RecordId) : force ev id record t = (.ok a, t) := by
  unfold CallByNeed.force
  rw [get_bind, muses.promise]
  cases yields with
  | itself plain => cases plain
  | evaluated done =>
    rw [done]
    rfl
  | underway running lenient =>
    have options : t.options = K.session.options := by rw [muses.rest]
    rw [running]
    dsimp only
    rw [options, lenient]
    rfl

theorem Yields.forceValue {ev : Evaluator} {v a : Value} (yields : K.Yields v a) (muses : K.session.Muses t)
    (record : RecordId) : forceValue ev v record t = (.ok a, t) := by
  cases yields with
  | @itself v plain => cases v <;> first | rfl | cases plain
  | evaluated done => exact (Yields.evaluated done).force muses record
  | underway running lenient => exact (Yields.underway running lenient).force muses record

theorem Facing.yields_resolveBinding {ev ev' : Evaluator} {name : Name} {v a : Value} (facing : K.Facing s t)
    (flagged : s.records.eagerOnly caller = true) (bound : K.Binds v)
    (run : resolveBinding ev name v caller s = (.ok a, s')) (settled : K.Settled s') (record : RecordId) :
    K.Yields v a ∧ resolveBinding ev' name v record t = (.ok a, t) := by
  cases v with
  | promise id =>
    have yields := facing.yields_force flagged bound run settled
    exact ⟨yields, yields.force facing.muses record⟩
  | missing | dots => cases run
  | _ =>
    cases run
    exact ⟨.itself rfl, rfl⟩

/-- What the binding of a variable yields. -/
theorem Echoes.readVariable {ev ev' : Evaluator} {name : Name} (named : Name.isVarargs name = false)
    (indexed : Name.isDotIndex name = false) (record : RecordId)
    (sight : ∀ place v a, K.session.heap.lookup K.env name = .ok (some (place, v)) → K.Yields v a →
      K.known a ∨ a = .missing) :
    K.Echoes caller Store.Mirrors (readVariable ev name K.env caller) (readVariable ev' name K.env record) where
  confined := .readVariable name K.env
  again s t facing flagged a s' run settled := by
    unfold CallByNeed.readVariable at run ⊢
    rw [if_neg (Bool.eq_false_iff.mp named), if_neg (Bool.eq_false_iff.mp indexed)] at run ⊢
    rw [bind_apply, readHeap_apply] at run
    rw [bind_apply, readHeap_apply, facing.muses.heap, facing.lookup]
    rcases found : s.heap.lookup K.env name with e | _ | ⟨place, v⟩
    · rw [found] at run
      cases run
    · rw [found] at run
      cases run
    · rw [found] at run
      dsimp only at run ⊢
      obtain ⟨yields, again⟩ := facing.yields_resolveBinding flagged (facing.binds found) run settled record
      have follows := facing.follows flagged run (.resolveBinding name v)
      refine ⟨a, t, again, .refl t, ?_⟩
      rcases sight place v a ((facing.lookup name).trans found) yields with known | rfl
      · exact (facing.next follows.relates (.refl t)).mirrors a known
      · exact .plain rfl

/-! Functions. -/

theorem getLocal_eq (h : Heap) (e : EnvId) (name : Name) : h.getLocal e name = match h.frame? e with
    | some f => .ok (f.bindings.get? name)
    | none => .error (Heap.collected e) := by
  unfold Heap.getLocal Heap.frame
  cases h.frame? e <;> rfl

/-- What the search for a function finds along some frames. -/
inductive Finds (K : Reprise) (name : Name) : List EnvId → Option Value → Prop
  | nil : K.Finds name [] none
  | unbound {e : EnvId} {rest : List EnvId} {f : Frame} {r : Option Value}
      (alive : K.session.heap.frame? e = some f) (free : f.bindings.get? name = none)
      (later : K.Finds name rest r) : K.Finds name (e :: rest) r
  | passed {e : EnvId} {rest : List EnvId} {f : Frame} {v a : Value} {r : Option Value}
      (alive : K.session.heap.frame? e = some f) (bound : f.bindings.get? name = some v) (yields : K.Yields v a)
      (other : a.isFunction = false) (later : K.Finds name rest r) : K.Finds name (e :: rest) r
  | found {e : EnvId} {rest : List EnvId} {f : Frame} {v a : Value}
      (alive : K.session.heap.frame? e = some f) (bound : f.bindings.get? name = some v) (yields : K.Yields v a)
      (function : a.isFunction = true) : K.Finds name (e :: rest) (some a)

namespace Finds

variable {name : Name} {ids more : List EnvId} {a : Value}

theorem append_some (finds : K.Finds name ids (some a)) : K.Finds name (ids ++ more) (some a) := by
  generalize result : some a = r at finds
  induction finds with
  | nil => cases result
  | unbound alive free _ ih => exact .unbound alive free (ih result)
  | passed alive bound yields other _ ih => exact .passed alive bound yields other (ih result)
  | found alive bound yields function => exact .found alive bound yields function

theorem append_none (finds : K.Finds name ids none) (onward : K.Finds name more none) :
    K.Finds name (ids ++ more) none := by
  generalize result : none = r at finds
  induction finds with
  | nil => exact onward
  | unbound alive free _ ih => exact .unbound alive free (ih result)
  | passed alive bound yields other _ ih => exact .passed alive bound yields other (ih result)
  | found => cases result

/-- Where nothing is found among some frames, nothing is found among any of them. -/
theorem none_of_mem (finds : K.Finds name ids none) {e : EnvId} (member : e ∈ ids) : K.Finds name [e] none := by
  generalize result : none = r at finds
  induction finds with
  | nil => cases member
  | unbound alive free _ ih =>
    subst result
    rcases List.mem_cons.mp member with rfl | later
    · exact .unbound alive free .nil
    · exact ih later rfl
  | passed alive bound yields other _ ih =>
    subst result
    rcases List.mem_cons.mp member with rfl | later
    · exact .passed alive bound yields other .nil
    · exact ih later rfl
  | found => cases result

theorem none_of_subset (finds : K.Finds name ids none) (subset : more ⊆ ids) : K.Finds name more none := by
  induction more with
  | nil => exact .nil
  | cons e rest ih =>
    obtain ⟨here, later⟩ := List.cons_subset.mp subset
    exact (finds.none_of_mem here).append_none (ih later)

theorem prolonged {r : Option Value} (finds : K.Finds name K.chain r) :
    K.Finds name (K.session.heap.chain K.env) r := by
  obtain ⟨extra, way, subset⟩ := K.way
  rw [way]
  cases r with
  | some a => exact finds.append_some
  | none => exact finds.append_none (finds.none_of_subset subset)

/-- The second search finds it too. -/
theorem run {ev : Evaluator} {r : Option Value} (finds : K.Finds name ids r) (muses : K.session.Muses t)
    (record : RecordId) : findFunctionAlong ev name record ids t = (.ok r, t) := by
  induction finds with
  | nil => rfl
  | unbound alive free _ ih =>
    unfold findFunctionAlong
    rw [bind_apply, readHeap_apply, muses.heap, getLocal_eq, alive]
    dsimp only
    rw [free]
    exact ih
  | passed alive bound yields other _ ih =>
    unfold findFunctionAlong
    rw [bind_apply, readHeap_apply, muses.heap, getLocal_eq, alive]
    dsimp only
    rw [bound]
    dsimp only
    rw [bind_apply, yields.forceValue muses]
    dsimp only
    rw [other]
    exact ih
  | found alive bound yields function =>
    unfold findFunctionAlong
    rw [bind_apply, readHeap_apply, muses.heap, getLocal_eq, alive]
    dsimp only
    rw [bound]
    dsimp only
    rw [bind_apply, yields.forceValue muses]
    dsimp only
    rw [function]
    rfl

end Finds

theorem Facing.finds {ev : Evaluator} {name : Name} {ids : List EnvId} {r : Option Value}
    (facing : K.Facing s t)
    (flagged : s.records.eagerOnly caller = true) (within : ids ⊆ K.chain)
    (run : findFunctionAlong ev name caller ids s = (.ok r, s')) (settled : K.Settled s') :
    K.Finds name ids r := by
  induction ids generalizing s with
  | nil =>
    cases run
    exact .nil
  | cons e rest ih =>
    obtain ⟨here, later⟩ := List.cons_subset.mp within
    unfold findFunctionAlong at run
    rw [bind_apply, readHeap_apply, getLocal_eq, ← facing.frames e here] at run
    cases alive : K.session.heap.frame? e with
    | none =>
      rw [alive] at run
      cases run
    | some f =>
      rw [alive] at run
      dsimp only at run
      cases bound : f.bindings.get? name with
      | none =>
        rw [bound] at run
        exact .unbound alive bound (ih facing flagged later run)
      | some v =>
        rw [bound] at run
        obtain ⟨a, u, forced, onward⟩ := parts_of_bind run
        have follows := facing.follows flagged forced (.forceValue v)
        have facing' := facing.next follows.relates (.refl t)
        have flagged' := follows.raised.eagerOnly flagged
        have binds : K.Binds v := ⟨e, here, f, name, alive, bound⟩
        cases function : a.isFunction with
        | true =>
          rw [function] at onward
          cases onward
          exact .found alive bound (facing.yields_forceValue flagged binds forced settled) function
        | false =>
          rw [function] at onward
          rw [if_neg Bool.false_ne_true] at onward
          have further := facing'.follows flagged' onward (.findFunctionAlong name rest)
          have yields := facing.yields_forceValue flagged binds forced (settled.before further.relates)
          exact .passed alive bound yields function (ih facing' flagged' later onward)

section

variable {ev ev' : Evaluator} (record : RecordId)

theorem Echoes.findFunction (name : Name) :
    K.Repeats caller (findFunction ev name K.env caller) (findFunction ev' name K.env record) where
  confined := .findFunction name K.env
  again s t facing flagged r s' run settled := by
    unfold CallByNeed.findFunction at run ⊢
    rw [get_bind, facing.chain] at run
    have finds := facing.finds flagged (List.Subset.refl _) run settled
    refine ⟨r, t, ?_, .refl t, rfl⟩
    rw [get_bind, facing.muses.heap]
    exact finds.prolonged.run facing.muses record

theorem Echoes.lookupFunction (name : Name) :
    K.Repeats caller (lookupFunction ev name K.env caller) (lookupFunction ev' name K.env record) := by
  refine (findFunction record name).andThen fun found => ?_
  cases found with
  | some f => exact .value f
  | none => exact .failAt _ _ _

/-! The dispatch of a builtin on classed arguments. -/

theorem Echoes.findMethodFunction (name : Name) :
    K.Repeats caller (findMethodFunction ev name caller [K.env]) (findMethodFunction ev' name record [K.env]) := by
  refine (findFunction record name).andThen fun found => ?_
  cases found with
  | some f => exact .value _
  | none =>
    refine ⟨.findMethodFunction name [], fun s t facing _ => ?_⟩
    have methods : t.methods = s.methods := by
      rw [facing.muses.rest]
      exact facing.methods
    change K.Again _ (get >>= fun s => pure (s.methods.get? name))
      (get >>= fun s => pure (s.methods.get? name)) s t
    intro a s' run settled
    cases run
    refine ⟨_, t, rfl, .refl t, ?_⟩
    change s.methods.get? name = t.methods.get? name
    rw [methods]

theorem Echoes.findForClass (generic : Name) (group : Option Name) (classes : List Name) (position : Nat)
    (className : Name) :
    K.Repeats caller (findForClass ev ⟨generic, group, classes, [K.env]⟩ caller position className)
      (findForClass ev' ⟨generic, group, classes, [K.env]⟩ record position className) := by
  refine (findMethodFunction record _).andThen fun found => ?_
  cases found with
  | some f => exact .value _
  | none =>
    cases group with
    | none => exact .value _
    | some group =>
      refine (findMethodFunction record _).andThen fun found => ?_
      cases found <;> exact .value _

theorem Echoes.findClassMethod (generic : Name) (group : Option Name) (classes : List Name) (start : Nat) :
    K.Repeats caller (findClassMethod ev ⟨generic, group, classes, [K.env]⟩ start caller)
      (findClassMethod ev' ⟨generic, group, classes, [K.env]⟩ start record) := by
  unfold CallByNeed.findClassMethod
  dsimp only
  induction classes.zipIdx.drop start with
  | nil => exact .value _
  | cons entry rest ih =>
    refine (findForClass record _ _ _ _ _).andThen fun found => ?_
    cases found with
    | some m => exact .value _
    | none => exact ih

end

end Reprise
end CallByNeed
