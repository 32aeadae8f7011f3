import CallByNeed.Proofs.Later
import CallByNeed.Proofs.RepeatingCalls

/-!
The first use of an argument that was evaluated at the call. Its value is taken while the frames of its
environment are the ones it was computed in; then they bind what they did. If what the argument is computed from
holds what it did, too, nobody can tell the value from the one that forcing the promise gives at that time.
-/
namespace CallByNeed

/-! A value computed ahead, made and taken. -/

/-- A promise that carries a value from the call was made after the evaluation that came to it. -/
theorem eagerArgument_early {ev : Evaluator} {e : Expr} {env : EnvId} {caller : RecordId} {site : NodeId}
    {s w : Session} {id : PromiseId} {eager : EagerValue}
    (made : eagerArgument ev e env caller site s = (.ok (.promise id), w))
    (ahead : (w.store.promise id).eager = some eager) :
    s.heap.versionSnapshot env = .ok eager.snapshot ∧ ∃ s',
      ev e env caller { s with records := s.records.setEagerOnly caller true } = (.ok eager.value, s') ∧
        id = ⟨s'.store.promises.size⟩ ∧
          w.store = (Store.eagerPromise e env caller eager s'.store).2 := by
  unfold eagerArgument at made
  rw [bind_apply, readHeap_apply] at made
  cases taken : s.heap.versionSnapshot env with
  | error f =>
    rw [taken] at made
    cases made
  | ok versions =>
    rw [taken] at made
    dsimp only at made
    rw [eagerOnly_bind, setEagerOnly_bind, observe_bind, setEagerOnly_bind] at made
    generalize ev e env caller { s with records := s.records.setEagerOnly caller true } = run at made ⊢
    obtain ⟨outcome, s'⟩ := run
    -- A promise made where no value was come to carries none.
    have lazily {store : Store} (same : w.store = (Store.lazyPromise e env .supplied caller store).2)
        (fresh : id = ⟨store.promises.size⟩) : False := by
      have none : (w.store.promise id).eager = none := by
        rw [same, fresh]
        change ((Store.addPromise _ store).2.promise _).eager = none
        rw [Disciplined.promise_add, if_pos rfl]
      cases none.symm.trans ahead
    rcases outcome with (f | ⟨target, v⟩) | v
    · cases f with
      | condition _ | generic _ =>
        cases made
        exact (lazily rfl rfl).elim
      | cannotOptimize =>
        dsimp only at made
        cases flagged : s.records.eagerOnly caller with
        | true =>
          rw [flagged] at made
          cases made
        | false =>
          rw [flagged] at made
          cases made
          exact (lazily rfl rfl).elim
      | internal _ | interrupted | exhausted => cases made
    · cases made
    · cases made
      have own : eager = ⟨v, site, versions, false⟩ := by
        change ((Store.addPromise _ s'.store).2.promise _).eager = some eager at ahead
        rw [Disciplined.promise_add, if_pos rfl] at ahead
        exact (Option.some.inj ahead).symm
      subst own
      exact ⟨rfl, s', rfl, rfl, rfl⟩

theorem promise_early {e : Expr} {env : EnvId} {caller : RecordId} {eager : EagerValue} {s w : Store}
    {id : PromiseId}
    (fresh : id = ⟨s.promises.size⟩) (added : w = (Store.eagerPromise e env caller eager s).2) :
    w.promise id = ⟨e, .unevaluated env, .supplied, some caller, some eager⟩ := by
  rw [added, fresh]
  exact (Disciplined.promise_add _ _ _).trans (if_pos rfl)

/-- A value that is taken is the one computed ahead, and the frames are as they were then. -/
theorem takeEagerValue_some {id : PromiseId} {s t : Session} {v : Value}
    (taken : takeEagerValue id s = (.ok (some v), t)) :
    ∃ eager, (s.store.promise id).eager = some eager ∧ eager.value = v ∧
      s.heap.isCurrent eager.snapshot = true ∧ t = { s with
        store := (s.store.share v).fulfil id v
        stats := { s.stats with
          eagerHits := s.stats.eagerHits + 1
          promisesForced := s.stats.promisesForced + 1 } } := by
  unfold takeEagerValue at taken
  rw [get_bind] at taken
  cases ahead : (s.store.promise id).eager with
  | none =>
    rw [ahead] at taken
    cases taken
  | some eager =>
    rw [ahead] at taken
    dsimp only at taken
    cases given : eager.deoptimized with
    | true =>
      rw [given] at taken
      cases taken
    | false =>
      rw [given, if_neg Bool.false_ne_true] at taken
      by_cases stands : (s.store.trusts eager.site && s.heap.isCurrent eager.snapshot) = true
      · rw [if_pos stands] at taken
        cases taken
        exact ⟨eager, rfl, rfl, (Bool.and_eq_true_iff.mp stands).2, rfl⟩
      · rw [if_neg stands] at taken
        cases taken

namespace Session

/-- The session in which the code of a promise is evaluated. -/
def entering (t : Session) (id : PromiseId) (env : EnvId) (record : RecordId) : Session :=
  { t with
    store := t.store.begun id env
    records := (t.records.push (some record) none (.promise (t.store.promise id).caller)).2 }

end Session

/-- Forcing a promise that has no value computed ahead evaluates its code. -/
theorem force_lazily {ev : Evaluator} {id : PromiseId} {env : EnvId} {record : RecordId} {t t' : Session}
    {v : Value}
    (bare : (t.store.promise id).eager = none) (waiting : (t.store.promise id).state = .unevaluated env)
    (unflagged : t.records.eagerOnly record = false) (calm : t.interrupt = false)
    (run : ev (t.store.promise id).expr env ⟨t.records.next⟩ (t.entering id env record) = (.ok v, t')) :
    force ev id record t = (.ok v, { t' with
      store := (t'.store.share v).fulfil id v
      records := t'.records.release ⟨t.records.next⟩
      stats := { t'.stats with promisesForced := t'.stats.promisesForced + 1 } }) := by
  have untaken : takeEagerValue id t = (.ok none, t) := by
    unfold takeEagerValue
    rw [get_bind, bare]
    rfl
  have poll : checkInterrupt t = (.ok (), t) := by
    unfold checkInterrupt
    rw [get_bind, calm]
    rfl
  have entered : underRecord (some record) none (.promise (t.store.promise id).caller)
      (ev (t.store.promise id).expr env) { t with store := t.store.begun id env } =
        (.ok v, { t' with records := t'.records.release ⟨t.records.next⟩ }) := by
    change releasing ⟨t.records.next⟩ (ev (t.store.promise id).expr env ⟨t.records.next⟩)
      (t.entering id env record) = _
    unfold releasing
    rw [run]
  unfold force
  rw [get_bind, waiting]
  dsimp only
  rw [bind_apply, untaken]
  dsimp only
  rw [bind_apply, ensureLazy_apply, unflagged, if_neg Bool.false_ne_true]
  dsimp only
  rw [bind_apply, poll]
  dsimp only
  rw [Regime.evaluatePromise_apply ev env waiting, observe_bind, entered]
  rfl

/-! Lazy sessions. -/

/-- Objects without the values computed ahead. -/
def Store.lazily (s : Store) : Store := { s with promises := s.promises.map ({ · with eager := none }) }

theorem Store.promise_lazily (s : Store) (id : PromiseId) :
    s.lazily.promise id = { s.promise id with eager := none } := by
  unfold lazily promise
  rw [Array.getElem?_map]
  cases s.promises[id.index]? <;> rfl

namespace Session

variable {s t u : Session} {id other : PromiseId} {env : EnvId} {record : RecordId}

/-- A session that evaluates no argument early, nor has done so. -/
def lazily (t : Session) : Session :=
  { t with store := t.store.lazily, options := { t.options with eagerPromises := false } }

theorem promise_entering (apart : other ≠ id) :
    (t.lazily.entering id env record).store.promise other = { t.store.promise other with eager := none } := by
  unfold entering Store.begun Store.setPromiseState
  dsimp only
  rw [Store.promise_modify, if_neg fun same => apart same.1]
  exact Store.promise_lazily t.store other

/-- A value that is bound somewhere on the lookup chain of an environment. -/
def Sees (s : Session) (env : EnvId) (v : Value) : Prop :=
  ∃ e ∈ s.heap.chain env, ∃ f name, s.heap.frame? e = some f ∧ f.bindings.get? name = some v

/-- The values that a simple expression draws on: its literals, what its variables stand for, and the classes
that values without a class attribute have. -/
inductive DrawsOn (t : Session) (env : EnvId) (e : Expr) : Value → Prop
  | literal {id : NodeId} {v : Value} (part : e.Comprises (.constant id v)) : DrawsOn t env e v
  | held {id : NodeId} {name : Name} {place : EnvId} {v : Value} (part : e.Comprises (.symbol id name))
      (bound : t.heap.lookup env name = .ok (some (place, v))) (plain : v.promise? = none) : DrawsOn t env e v
  | forced {id : NodeId} {name : Name} {place : EnvId} {p : PromiseId} {v : Value}
      (part : e.Comprises (.symbol id name)) (bound : t.heap.lookup env name = .ok (some (place, .promise p)))
      (done : (t.store.promise p).state = .evaluated v) : DrawsOn t env e v
  | classes {c : VectorId} (member : c ∈ t.implicit.chains) : DrawsOn t env e (.vector c)

/-- What an expression is computed from is at a later time as it was. None of the vectors it draws on was
written to; the promises in its sight that were under evaluation are so still; and no method was registered.
-/
structure Unaltered (s t : Session) (env : EnvId) (e : Expr) : Prop where
  contents : ∀ v, t.DrawsOn env e v → s.store.Mirrors t.store v v
  made : ∀ id, s.Sees env (.promise id) → id.index < s.store.promises.size
  running : ∀ id d, s.Sees env (.promise id) → (s.store.promise id).state = .underEvaluation d →
    ∃ d', (t.store.promise id).state = .underEvaluation d'
  methods : t.methods = s.methods

/-- Two sessions in which a promise has come to its value, in the second one to `v`. Vectors made for that
aside, they differ in sharing states, in counts and in the number of the next record. -/
structure AlikeBut (id : PromiseId) (v : Value) (t u : Session) : Prop where
  rest : u = { t with store := u.store, records := u.records, stats := u.stats }
  live : u.records.live = t.records.live
  store : u.store = { t.store with vectors := u.store.vectors, promises := u.store.promises }
  vectors : Store.Grown t.store u.store
  promises : ∀ other, u.store.promise other =
    if other = id then { t.store.promise id with state := .evaluated v } else t.store.promise other

end Session

/-- The value `v`, computed at a call in the session `s`, has not been used so far in the session `t`, and
what it was computed from is as it was. -/
structure Fresh (depth : Nat) (e : Expr) (env : EnvId) (caller : RecordId) (site : NodeId) (s w t : Session)
    (id : PromiseId) (v : Value) : Prop where
  standard : s.builtins = Registry.standard
  simple : e.isSimple s.builtins = true
  made : eagerArgument (eval depth) e env caller site s = (.ok (.promise id), w)
  alive : s.records.contains caller = true
  later : w.Later t
  waiting : t.store.promise id = w.store.promise id
  unaltered : s.Unaltered t env e
  kept : w.store.Mirrors t.store v v
  calm : t.interrupt = false
  issued : t.records.Issued

namespace Fresh

variable {depth : Nat} {e : Expr} {env : EnvId} {caller record : RecordId} {site : NodeId} {s w t u : Session}
  {id : PromiseId} {v : Value}

/-- The session that an early evaluation starts from. -/
abbrev atCall (s : Session) (caller : RecordId) : Session :=
  { s with records := s.records.setEagerOnly caller true }

/-- Where the value came from: the evaluation at the call, which left `s'`, and the frames of then. -/
structure Origin (depth : Nat) (e : Expr) (env : EnvId) (caller : RecordId) (s w t s' : Session)
    (id : PromiseId)
    (v : Value) : Prop where
  run : eval depth e env caller (atCall s caller) = (.ok v, s')
  fresh : id = ⟨s'.store.promises.size⟩
  state : (t.store.promise id).state = .unevaluated env
  expr : (t.store.promise id).expr = e
  added : ∃ p, w.store = (Store.addPromise p s'.store).2
  frames : ∀ a ∈ s.heap.chain env, t.heap.frame? a = s.heap.frame? a

theorem effectless (use : Fresh depth e env caller site s w t id v) : s.Effectless w := by
  have effectless := eagerArgument_effectless
    (attended_confined use.standard use.simple use.alive depth env).1 site
  rw [use.made] at effectless
  exact effectless

theorem origin (use : Fresh depth e env caller site s w t id v)
    (taken : takeEagerValue id t = (.ok (some v), u)) : ∃ s', Origin depth e env caller s w t s' id v := by
  obtain ⟨eager, ahead, rfl, current, -⟩ := takeEagerValue_some taken
  have ahead' := ahead
  rw [use.waiting] at ahead'
  obtain ⟨snapshot, s', run, fresh, added⟩ := eagerArgument_early use.made ahead'
  have promise := use.waiting.trans (promise_early fresh added)
  have ages : s.heap.Ages t.heap := by
    have lasts := use.later.heap
    rw [use.effectless.rest] at lasts
    exact lasts.ages
  refine ⟨s', run, fresh, ?_, ?_, ⟨_, added⟩, fun a member => (ages.kept snapshot current a member).2⟩
  · rw [promise]
  · rw [promise]

namespace Origin

variable {s' : Session}

/-- The evaluation of the argument again, where its promise is forced. -/
def reprise (origin : Origin depth e env caller s w t s' id v) (use : Fresh depth e env caller site s w t id v)
    (record : RecordId) : Reprise where
  session := t.lazily.entering id env record
  env := env
  chain := s.heap.chain env
  known := t.DrawsOn env e
  calm := use.calm
  issued r member := by
    rcases List.mem_cons.mp member with rfl | old
    · exact Nat.lt_succ_self _
    · exact Nat.lt_succ_of_lt (use.issued r old)
  way := by
    have size := use.later.heap.size
    rw [use.effectless.rest] at size
    exact Heap.chain_prolonged size origin.frames
  chains store x := .classes (t.implicit.ofValue_mem store x)

variable (origin : Origin depth e env caller s w t s' id v) (use : Fresh depth e env caller site s w t id v)
include origin use

/-- The promise of the argument was made after those in its sight. -/
theorem apart {other : PromiseId} (sees : s.Sees env (.promise other)) (still : (atCall s caller).Still s') :
    other ≠ id := by
  rintro rfl
  have older := use.unaltered.made other sees
  have younger := still.store.promises
  rw [origin.fresh] at older
  exact absurd (Nat.lt_of_lt_of_le older younger) (Nat.lt_irrefl _)

theorem facing (record : RecordId) (still : (atCall s caller).Still s') :
    (origin.reprise use record).Facing (atCall s caller) (origin.reprise use record).session := by
  have rest := use.effectless.rest
  have later := use.later
  have sees {x : Value} (binds : (origin.reprise use record).Binds x) : s.Sees env x := by
    obtain ⟨a, member, f, name, found, bound⟩ := binds
    exact ⟨a, member, f, name, (origin.frames a member).symm.trans found, bound⟩
  exact {
    muses := .refl _
    standard := use.standard
    builtins := by
      have same := later.builtins
      rw [rest] at same
      exact same
    implicit := by
      have same := later.implicit
      rw [rest] at same
      exact same
    methods := use.unaltered.methods
    options := by
      have same := congrArg Options.strictPromiseCycles later.options
      rw [rest] at same
      exact same
    size := by
      have size := later.heap.size
      rw [rest] at size
      exact size
    chain := rfl
    frames := origin.frames
    there := fun other binds => use.unaltered.made other (sees binds)
    underway := fun other d binds running => by
      obtain ⟨d', running⟩ := use.unaltered.running other d (sees binds) running
      refine ⟨d', ?_⟩
      unfold reprise
      dsimp only
      rw [Session.promise_entering (origin.apart use (sees binds) still)]
      exact running
    mirrors := fun x draws =>
      (use.unaltered.contents x draws).mono (Store.Chained.refl _) (Store.grown_of_same rfl) }

theorem state_own : ((origin.reprise use record).session.store.promise id).state = .underEvaluation env := by
  have promise := Store.promise_lazily t.store id
  have waiting : (t.lazily.store.promise id).state = .unevaluated env := promise ▸ origin.state
  unfold reprise Session.entering
  dsimp only
  rw [Store.promise_begun waiting]

theorem sights (record : RecordId) : (origin.reprise use record).Sights e where
  literals _ _ part := .literal part
  bindings _ name place x a part bound yields := by
    have kept (p : PromiseId) (b : Value)
        (done : ((origin.reprise use record).session.store.promise p).state = .evaluated b) :
        (t.store.promise p).state = .evaluated b := by
      have apart : p ≠ id := by
        rintro rfl
        rw [origin.state_own use] at done
        cases done
      unfold reprise at done
      dsimp only at done
      rw [Session.promise_entering apart] at done
      exact done
    cases yields with
    | itself plain => exact .inl (.held part bound plain)
    | evaluated done => exact .inl (.forced part bound (kept _ _ done))
    | underway => exact .inr rfl

theorem settled (record : RecordId) : (origin.reprise use record).Settled s' := by
  intro p x old done
  have apart : p ≠ id := by
    rintro rfl
    rw [origin.fresh] at old
    exact absurd old (Nat.lt_irrefl _)
  obtain ⟨q, added⟩ := origin.added
  have before : w.store.promise p = s'.store.promise p := by
    rw [added, Disciplined.promise_add, if_neg (Nat.ne_of_lt old)]
  have inside : p.index < w.store.promises.size := by
    rw [added]
    simpa [Store.addPromise] using Nat.lt_succ_of_lt old
  have later := use.later.evaluated p x inside (before ▸ done)
  unfold reprise
  dsimp only
  rw [Session.promise_entering apart]
  exact later

/-- Evaluated again, the argument comes to a value that mirrors the one of then. -/
theorem again {deep : Nat} (room : e.nesting ≤ deep) (record own : RecordId) :
    ∃ v' t', eval deep e env own (t.lazily.entering id env record) = (.ok v', t') ∧
      (t.lazily.entering id env record).Muses t' ∧ s'.store.Mirrors t'.store v v' := by
  have simple := use.simple
  rw [use.standard] at simple
  have echoes : (origin.reprise use record).Echoes caller Store.Mirrors (eval depth e env caller)
      (eval deep e env own) :=
    Reprise.echoes_eval depth room simple (origin.sights use record)
  have flagged : (atCall s caller).records.eagerOnly caller = true := Records.eagerOnly_setEagerOnly use.alive
  have follows := echoes.confined.follows (atCall s caller) use.standard flagged
  rw [origin.run] at follows
  exact echoes.again _ _ (origin.facing use record follows.relates) flagged v s' origin.run
    (origin.settled use record)

end Origin

theorem grown_settled (store : Store) (id : PromiseId) (v : Value) : store.Grown
    ((store.share v).fulfil id v) :=
  Store.Chained.trans (Store.share_moves v store) (Store.grown_of_same rfl)

theorem promise_settled {store : Store} {id : PromiseId} (inside : id.index < store.promises.size) (v : Value)
    (other : PromiseId) : ((store.share v).fulfil id v).promise other =
      if other = id then { store.promise id with state := .evaluated v } else store.promise other := by
  have within : id.index < (store.share v).promises.size := by
    simpa [Store.share, Disciplined.setSharing_promises] using inside
  unfold Store.fulfil Store.setPromiseState
  rw [Store.promise_modify, Disciplined.promise_share, Disciplined.promise_share]
  by_cases same : other = id
  · rw [if_pos ⟨same, within⟩, if_pos same]
  · rw [if_neg fun both => same both.1, if_neg same]

/-- Whichever way the promise came to its value, all else is alike. -/
theorem alike {t' : Session} {v' : Value} {n k : Stats}
    (waiting : (t.store.promise id).state = .unevaluated env)
    (muses : (t.lazily.entering id env record).Muses t') :
    Session.AlikeBut id v' (Session.lazily { t with store := (t.store.share v).fulfil id v, stats := n })
      { t' with
        store := (t'.store.share v').fulfil id v'
        records := t'.records.release ⟨t.records.next⟩
        stats := k } where
  rest := by
    rw [muses.rest]
    rfl
  live := by
    dsimp only [Records.release]
    rw [muses.live]
    simp [Session.entering, Session.lazily, Records.push]
  store := by
    have extended := muses.store.2
    have share (store : Store) (v : Value) : store.share v = { store with vectors := (store.share v).vectors } := by
      cases v <;> rfl
    rw [share t'.store, share t.store, extended]
    rfl
  vectors := by
    have old := grown_settled t.store id v
    have new : t.store.Grown ((t'.store.share v').fulfil id v') :=
      Store.Chained.trans (Store.Chained.trans (Store.grown_of_same rfl) muses.store.1) (grown_settled _ id v')
    have size : ((t.store.share v).fulfil id v).vectors.size = t.store.vectors.size := by
      cases v <;> simp [Store.share, Store.setSharing, Store.modifyContainer, Store.fulfil, Store.setPromiseState,
        Store.modifyPromise]
    refine ⟨fun c there => ?_, Nat.le_trans (Nat.le_of_eq size) new.2⟩
    obtain ⟨-, elements, attributes⟩ := old.1 c (size ▸ there)
    obtain ⟨inside, elements', attributes'⟩ := new.1 c (size ▸ there)
    exact ⟨inside, elements'.trans elements.symm, attributes'.trans attributes.symm⟩
  promises other := by
    have inside : id.index < t.store.promises.size := Store.waiting_inside (by rw [waiting]; rfl)
    have within : id.index < t'.store.promises.size := by
      rw [muses.store.2]
      simpa [Session.entering, Session.lazily, Store.lazily, Store.begun, Store.setPromiseState, Store.modifyPromise]
        using inside
    have lazy := Store.promise_lazily t.store id
    have lazyWaiting : (t.lazily.store.promise id).state = .unevaluated env := lazy ▸ waiting
    unfold Session.lazily
    dsimp only
    rw [promise_settled within, Store.promise_lazily, Store.promise_lazily, promise_settled inside,
      promise_settled inside, muses.promise, muses.promise]
    by_cases same : other = id
    · rw [if_pos same, if_pos same, if_pos rfl]
      unfold Session.entering
      dsimp only
      rw [Store.promise_begun lazyWaiting]
      exact congrArg (fun p : Promise => { p with state := .evaluated v' }) lazy
    · rw [if_neg same, if_neg same, if_neg same, Session.promise_entering same]

/-- But for its value, the promise is the one that a lazy call makes. -/
theorem promised (use : Fresh depth e env caller site s w t id v)
    (taken : takeEagerValue id t = (.ok (some v), u)) :
    w.lazily.store.promise id = ⟨e, .unevaluated env, .supplied, some caller, none⟩ := by
  obtain ⟨eager, ahead, -⟩ := takeEagerValue_some taken
  rw [use.waiting] at ahead
  obtain ⟨-, s', -, fresh, added⟩ := eagerArgument_early use.made ahead
  exact (Store.promise_lazily w.store id).trans (by rw [promise_early fresh added])

/-- The value that is taken has the contents of the one that forcing the promise gives. -/
theorem stands (use : Fresh depth e env caller site s w t id v) {deep : Nat} (room : e.nesting ≤ deep)
    (unflagged : t.records.eagerOnly record = false) (taken : takeEagerValue id t = (.ok (some v), u)) :
    force (eval deep) id record t = (.ok v, u) ∧
      ∃ v' u', force (eval deep) id record t.lazily = (.ok v', u') ∧ u.store.SameContents v u'.store v' ∧
        u.lazily.AlikeBut id v' u' := by
  obtain ⟨s', origin⟩ := use.origin taken
  constructor
  · unfold force
    rw [get_bind, origin.state]
    dsimp only
    rw [bind_apply, taken]
    rfl
  · obtain ⟨v', t', run, muses, mirrors⟩ := origin.again use room record ⟨t.records.next⟩
    have lazy : t.lazily.store.promise id = { t.store.promise id with eager := none } :=
      Store.promise_lazily t.store id
    have expr : (t.lazily.store.promise id).expr = e := by rw [lazy, origin.expr]
    have waiting : (t.lazily.store.promise id).state = .unevaluated env := by rw [lazy, origin.state]
    have lazily : force (eval deep) id record t.lazily = _ :=
      force_lazily (by rw [lazy]) waiting unflagged use.calm (expr ▸ run)
    obtain ⟨_, _, _, _, rfl⟩ := takeEagerValue_some taken
    refine ⟨v', _, lazily, fun level => ?_, alike origin.state muses⟩
    obtain ⟨p, added⟩ := origin.added
    have early := (use.kept.mono (Store.Chained.refl _) (grown_settled t.store id v)).sameContents
    have vectors : w.store.vectors = s'.store.vectors := by
      rw [added]
      rfl
    have late := (mirrors.mono (Store.grown_of_same vectors) (grown_settled t'.store id v')).sameContents
    exact (late level).trans (early level).symm

end Fresh

/-! The parts of an expression. -/

namespace Session

/-- A session in which `x` is bound to a vector and something runs under a first record. -/
def holding (s : Session) : Session :=
  let made := Store.addVector ⟨.integer [1, 2], {}, .nonShared⟩ s.store
  { s with
    store := made.2
    heap := s.heap.bind global "x" (.vector made.1)
    records := (({} : Records).push none none .topLevel).2 }

def lengthOfX : Expr := .call ⟨2⟩ (.symbol ⟨3⟩ "length") [⟨none, .symbol ⟨4⟩ "x"⟩]

/-- That session after `length(x)` was evaluated at a call, and then with a frame for the call. -/
def early (s : Session) : Session := (eagerArgument (eval 3) lengthOfX global ⟨0⟩ ⟨2⟩ s.holding).2

def called (s : Session) : Session := (allocFrame global s.early).2

end Session
end CallByNeed
