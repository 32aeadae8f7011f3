import CallByNeed.Proofs.Conduct

/-!
The conduct of what evaluation is made of, given the conduct of what is nested in it: forcing of
promises, variables, calls of closures, methods and strict builtins.
-/
namespace CallByNeed

namespace Session

/-- A session in which the same records are alive, of which one may be flagged. -/
structure Beside (A : Ambit) (c : RecordId) (w s : Session) : Prop extends Evolves A w s where
  live : s.records.live = w.records.live ∨
    s.records.live = (w.records.setEagerOnly c true).live

theorem Follows.beside {A : Ambit} {c : RecordId} {w s t : Session} (follows : w.Follows A s)
    (beside : s.Beside A c t) : w.Beside A c t := by
  refine ⟨follows.toEvolves.trans beside.toEvolves, ?_⟩
  have live := beside.live
  unfold Records.setEagerOnly at live ⊢
  rwa [follows.live] at live

theorem Beside.childless {A : Ambit} {c : RecordId} {w s : Session} (beside : w.Beside A c s)
    {other : RecordId} (childless : w.records.Childless other) : s.records.Childless other := by
  intro r member
  rcases beside.live with same | flagged
  · exact childless r (same ▸ member)
  · rw [flagged] at member
    obtain ⟨old, there, rfl⟩ := List.mem_map.mp member
    split
    · exact childless old there
    · exact childless old there

end Session

/-- A call of a function that keeps to an ambit. -/
structure Ambit.AllowsCall (A : Ambit) (n : Nat) (f : Function) (call : Expr) (supplied : Supplied)
    (dispatch : Option DispatchContext) : Prop where
  code : A.Reads n (.function f)
  call : A.Reads n call
  supplied : A.Free → A.AdmitsAll n supplied.values
  object : ∀ d, dispatch = some d → A.Admits n d.object

theorem Ambit.AllowsCall.mono {A : Ambit} {n k : Nat} {f : Function} {call : Expr} {supplied : Supplied}
    {dispatch : Option DispatchContext} (ok : A.AllowsCall n f call supplied dispatch) (le : n ≤ k) :
    A.AllowsCall k f call supplied dispatch where
  code := ok.code.mono le
  call := ok.call.mono le
  supplied free := (ok.supplied free).mono le
  object d same := (ok.object d same).mono le

namespace Regime

variable (K : Regime) (ev : K.ι → Evaluator)

/-- What is evaluated under a record opened below a given one is conducted: the body of a function as
long as calls are not nested too deeply, and the code of a promise that is no longer waiting. -/
structure Ready (w : Session) (c : RecordId) : Prop where
  issued : c.index < w.records.next
  room : K.ambit.Free ∨ w.options.maxDepth ≤ w.records.depth c
  nested : ∀ (s : Session) (r : Record) (e : Expr) (env : EnvId), s.Sound K.ambit →
    w.Nests K.ambit s r → r.parent = some c → K.ambit.Reads s.extent e →
    (w.records.depth c < w.options.maxDepth ∨
      ∃ id, K.ambit.promise id ∧ w.store.Open id ∧ ¬s.store.Open id) →
    K.Conducts s K.ambit.Admits fun i => ev i e env r.id

/-- The evaluation of an expression under a record is conducted, also once the record is flagged. -/
structure Runs (w : Session) (c : RecordId) (e : Expr) : Prop where
  reads : K.ambit.Reads w.extent e
  conducts : ∀ (s : Session) (env : EnvId), w.Beside K.ambit c s →
    K.Conducts s K.ambit.Admits fun i => ev i e env c

variable {K ev} {α β : Type} {w s t : Session} {c : RecordId}

theorem Ready.later (ready : K.Ready ev w c) (follows : w.Follows K.ambit s) : K.Ready ev s c := by
  have depth : s.records.depth c = w.records.depth c := by
    unfold Records.depth
    rw [follows.get?]
  refine ⟨Nat.lt_of_lt_of_le ready.issued follows.next, ?_, ?_⟩
  · rw [follows.options, depth]
    exact ready.room
  · intro u r e env sound nests parent reads closer
    refine ready.nested u r e env sound (follows.nests nests) parent reads ?_
    rw [follows.options, depth] at closer
    exact closer.imp_right fun ⟨id, allowed, waiting, begun⟩ =>
      ⟨id, allowed, follows.opens id waiting, begun⟩

theorem Runs.later {e : Expr} (runs : K.Runs ev w c e) (follows : w.Follows K.ambit s) :
    K.Runs ev s c e :=
  ⟨runs.reads.mono follows.extent_le, fun u env beside => runs.conducts u env (follows.beside beside)⟩

/-- The evaluation itself. -/
theorem Runs.here {e : Expr} (runs : K.Runs ev w c e) (env : EnvId) :
    K.Conducts w K.ambit.Admits fun i => ev i e env c :=
  runs.conducts w env ⟨.refl w, .inl rfl⟩

namespace Conducts

/-! Forcing. -/

theorem arrangingTwice {f g : Store → Store} (first : K.Conducts w Ambit.Any fun _ => modifyStore f)
    (second : K.Conducts w Ambit.Any fun _ => modifyStore g) :
    K.Conducts w Ambit.Any fun _ => modifyStore fun s => g (f s) :=
  andThen (m := fun _ => modifyStore f) (f := fun _ _ => modifyStore g) first
    fun _ _ follows _ => second.later follows

theorem fulfilling {v : Value} (id : PromiseId) (ok : K.ambit.Admits w.extent v) :
    K.Conducts w Ambit.Any fun _ => modifyStore fun store => (store.share v).fulfil id v := by
  refine arrangingTwice (modifying (Ambit.handles_share v)) (turning (fun n p le old => ?_) nofun)
  refine ⟨old.expr, fun u same => ?_, old.eager⟩
  cases same
  exact ok.mono le

theorem distrusting (site : NodeId) : K.Conducts w Ambit.Any fun _ => modifyStore (Store.distrust site) := by
  refine modifying (Ambit.handles_same (fun _ _ => trivial) ?_ ?_ ?_)
  · intro s
    change (s.distrust site).vectors = _
    unfold Store.distrust
    split <;> rfl
  · intro s
    change (s.distrust site).promises = _
    unfold Store.distrust
    split <;> rfl
  · intro s
    change (s.distrust site).dots = _
    unfold Store.distrust
    split <;> rfl

theorem deoptimizing (id : PromiseId) : K.Conducts w Ambit.Any fun _ => modifyStore (Store.deoptimize id) := by
  refine turning (fun n p _ old => ⟨old.expr, old.value, fun v same => old.eager v ?_⟩)
    fun p env same => ⟨env, same⟩
  rw [← same, Option.map_map]
  rfl

theorem takeEagerValue (id : PromiseId) :
    K.Conducts w K.ambit.AdmitsAny fun _ => takeEagerValue id := by
  refine reading fun s sound follows => ?_
  cases found : (s.store.promise id).eager with
  | none => exact value fun _ _ => nofun
  | some eager =>
    have ok : K.ambit.Admits s.extent eager.value :=
      (sound.store.promise id).eager _ (by rw [found]; rfl)
    refine branch (fun _ => value fun _ _ => nofun) fun _ => branch (fun _ => ?_) fun _ => ?_
    · refine andThen (fulfilling id ok) fun t _ onward _ =>
        andThen (noting fun _ => rfl) fun u _ onward' _ => ?_
      refine value fun k le v same => ?_
      cases same
      exact ok.mono (Nat.le_trans (onward.trans onward').extent_le le)
    · exact andThen (arrangingTwice (deoptimizing id) (distrusting eager.site)) fun _ _ _ _ =>
        andThen (noting fun _ => rfl) fun _ _ _ _ => value fun _ _ => nofun

end Conducts

theorem underRecord_apply {parent : Option RecordId} {call : Option Expr} {kind : RecordKind}
    (m : RecordId → EvalM α) (s : Session) :
    underRecord parent call kind m s = releasing ⟨s.records.next⟩ (m ⟨s.records.next⟩)
      (s.opening (s.newRecord parent call kind false)) := rfl

/-- What runs under a top-level record. -/
theorem topLevel {m : K.ι → RecordId → EvalM α} {Q : Nat → α → Prop} (sound : s.Sound K.ambit)
    (conducts : ∀ t r, t.Sound K.ambit → s.Nests K.ambit t r → r.eagerOnly = false →
      K.Conducts t Q fun i => m i r.id) :
    ∃ a t, (∀ᶠ i in K.late, underRecord none none .topLevel (m i) s = (a, t)) ∧ t.Sound K.ambit ∧
      s.Follows K.ambit t ∧ K.Ends s Q t.extent a := by
  let r := s.newRecord none none .topLevel false
  have opened : (s.opening r).Sound K.ambit := sound.opening nofun nofun ⟨nofun, nofun, nofun, nofun⟩
  have nests : s.Nests K.ambit (s.opening r) r := sound.nests nofun
  exact Conducts.closing nests (fun _ => rfl) ((conducts _ r opened nests rfl).lands opened)

/-- A record under one that is not flagged leaves the records in order. -/
theorem orderly_unflagged {r : Record} {A : Ambit} (sound : s.Sound A)
    (unflagged : s.records.eagerOnly c = false) (parent : r.parent = some c) :
    ∀ p ∈ s.records.live, r.parent = some p.id → p.eagerOnly = true →
      r.eagerOnly = true ∧ r.isFunction = false := by
  intro p member same flagged
  rw [parent] at same
  cases same
  rw [sound.records.eagerOnly_of_mem member, flagged] at unflagged
  cases unflagged

/-- What becomes of a promise when its evaluation ends. -/
def settlePromise (id : PromiseId) : Except Unwind Value → EvalM Value
  | .ok v => do
    modifyStore fun store => (store.share v).fulfil id v
    count fun c => { c with promisesForced := c.promisesForced + 1 }
    pure v
  | .error u => do
    modifyStore (·.resetPromise id)
    throw u

/-- The evaluation of a promise's code under a record of its own. -/
theorem Ready.promised (ready : K.Ready ev w c) {id : PromiseId} {own : EnvId} (env : EnvId)
    (allowed : K.ambit.promise id) (sound : w.Sound K.ambit)
    (unflagged : w.records.eagerOnly c = false)
    (waiting : (w.store.promise id).state = .unevaluated own) :
    ∃ a t, (∀ᶠ i in K.late, underRecord (some c) none (.promise (w.store.promise id).caller)
        (ev i (w.store.promise id).expr env) { w with store := w.store.begun id own } = (a, t)) ∧
      t.Sound K.ambit ∧ w.Follows K.ambit t ∧ K.Ends w K.ambit.Admits t.extent a := by
  let s : Session := { w with store := w.store.begun id own }
  have follows : w.Follows K.ambit s :=
    Session.follows_withStore (fun _ => Store.open_begun) .refl
  have sound' : s.Sound K.ambit := sound.withStore (sound.store.begun id own) (Nat.le_refl _)
  let r := s.newRecord (some c) none (.promise (w.store.promise id).caller) false
  have issued (p : RecordId) (same : some c = some p) : p.index < s.records.next := by
    cases same
    exact ready.issued
  have opened : (s.opening r).Sound K.ambit :=
    sound'.opening issued (orderly_unflagged (r := r) sound' unflagged rfl) ⟨nofun, nofun, nofun, nofun⟩
  have nests : s.Nests K.ambit (s.opening r) r := sound'.nests issued
  have conducts : K.Conducts (s.opening r) K.ambit.Admits fun i => ev i (w.store.promise id).expr env r.id :=
    ready.nested _ r _ env opened (follows.nests nests) rfl (sound.store.promise id).expr
      (.inr ⟨id, allowed, Store.open_of_unevaluated waiting, Store.not_open_begun waiting⟩)
  obtain ⟨a, t, runs, ok, onward, ends⟩ := Conducts.closing nests (fun _ => rfl) (conducts.lands opened)
  exact ⟨a, t, runs, ok, follows.trans onward, ends.back follows⟩

theorem evaluatePromise_apply (ev : Evaluator) (env : EnvId) {id : PromiseId} {own : EnvId}
    (state : (s.store.promise id).state = .unevaluated own) :
    evaluatePromise ev id env c s =
      (observe (underRecord (some c) none (.promise (s.store.promise id).caller)
          (ev (s.store.promise id).expr env)) >>= settlePromise id)
        { s with store := s.store.begun id own } := by
  have begun : onStore (Store.beginEvaluation id) s =
      (.ok (), { s with store := s.store.begun id own }) := by
    rw [onStore_apply, Store.beginEvaluation_apply state]
  have same : ({ s with store := s.store.begun id own } : Session).store.promise id = _ :=
    Store.promise_begun state
  unfold evaluatePromise
  rw [bind_apply, begun]
  dsimp only
  rw [get_bind, same]
  rfl

namespace Conducts

theorem resume_error {u : Unwind} {n : Nat} {Q : Nat → α → Prop} {R : Nat → β → Prop}
    (ends : K.Ends w Q n (.error u)) : K.Ends w R n (.error u) := by
  cases u with
  | failure f => exact ends
  | leave env v => exact ends

theorem evaluatePromise (ready : K.Ready ev w c) {id : PromiseId} {env : EnvId}
    (allowed : K.ambit.promise id) (unflagged : w.records.eagerOnly c = false) :
    K.Conducts w K.ambit.Admits fun i => evaluatePromise (ev i) id env c := by
  intro s sound follows
  have still := (follows.eagerOnly c).trans unflagged
  cases state : (s.store.promise id).state with
  | unevaluated own =>
    obtain ⟨a, t, runs, ok, onward, ends⟩ :=
      (ready.later follows).promised env allowed sound still state
    rcases a with u | v
    · refine ⟨.error u, { t with store := t.store.resetPromise id }, ?_,
        ok.withStore (ok.store.resetPromise id) (Nat.le_refl _), ?_, resume_error (ends.back follows)⟩
      · filter_upwards [runs] with i run
        rw [evaluatePromise_apply _ _ state, observe_bind, run]
        rfl
      · refine ⟨{ onward.toEvolves with opens := fun other waiting => ?_ }, onward.live⟩
        rcases Store.open_modifyPromise_or waiting with rfl | before
        · exact Store.open_of_unevaluated state
        · exact onward.opens other before
    · have tail : K.Conducts t K.ambit.Admits fun _ => settlePromise id (.ok v) := by
        refine andThen (fulfilling id ends) fun _ _ next _ =>
          andThen (noting fun _ => rfl) fun _ _ next' _ => ?_
        exact value fun k le => Ambit.Admits.mono ends
          (Nat.le_trans (next.trans next').extent_le le)
      obtain ⟨r', t', runs', ok', onward', ends'⟩ := tail t ok (.refl t)
      have whole := follows.trans onward
      refine ⟨r', t', ?_, ok', onward.trans onward', ends'.back whole⟩
      filter_upwards [runs, runs'] with i run run'
      rw [evaluatePromise_apply _ _ state, observe_bind, run]
      exact run'
  | underEvaluation own | evaluated v =>
    obtain ⟨message, refused⟩ := Store.beginEvaluation_refused id s.store (by simp [state])
    have gives (i : K.ι) : CallByNeed.evaluatePromise (ev i) id env c s =
        (.error (.failure (.internal message)), s) := by
      unfold CallByNeed.evaluatePromise
      rw [bind_apply, onStore_apply, refused]
    exact ⟨_, s, .of_forall gives, sound, .refl s, permits_of_fair rfl⟩

theorem force (ready : K.Ready ev w c) {id : PromiseId} (allowed : K.ambit.promise id) :
    K.Conducts w K.ambit.Admits fun i => force (ev i) id c := by
  refine reading fun s sound follows => ?_
  have ready := ready.later follows
  cases state : (s.store.promise id).state with
  | evaluated v =>
    refine value fun k le => Ambit.Admits.mono ?_ le
    exact (sound.store.promise id).value v (by rw [state]; rfl)
  | underEvaluation env =>
    exact branch (fun _ => failAt rfl) fun _ => value fun _ _ => Ambit.admits_missing
  | unevaluated env =>
    refine andThen (takeEagerValue id) fun t found onward ok => ?_
    cases found with
    | some v => exact value fun k le => (ok v rfl).mono le
    | none =>
      refine guarding fun u _ onward' unflagged => andThen polling fun x _ onward'' _ => ?_
      exact evaluatePromise (ready.later (onward.trans (onward'.trans onward''))) allowed
        ((onward''.eagerOnly c).trans unflagged)

theorem forceValue (ready : K.Ready ev w c) {v : Value} (ok : K.ambit.Admits w.extent v) :
    K.Conducts w K.ambit.Admits fun i => forceValue (ev i) v c := by
  cases v with
  | promise id => exact force ready (Ambit.admits_promise.mp ok)
  | _ => exact value fun _ le => ok.mono le

theorem forceAll {values : List Value} (ready : K.Ready ev w c)
    (ok : K.ambit.AdmitsAll w.extent values) :
    K.Conducts w K.ambit.AdmitsAll fun i => forceAll (ev i) c values := by
  induction values generalizing w with
  | nil => exact value fun _ _ => Ambit.admitsAll_nil
  | cons v rest ih =>
    obtain ⟨first, others⟩ := Ambit.admitsAll_cons.mp ok
    refine andThen (forceValue ready first) fun t v follows forced => ?_
    refine andThen (ih (ready.later follows) (others.mono follows.extent_le)) fun u vs onward all => ?_
    exact value fun k le => Ambit.admitsAll_cons.mpr
      ⟨forced.mono (Nat.le_trans onward.extent_le le), all.mono le⟩

/-! Variables. -/

theorem resolveBinding (ready : K.Ready ev w c) (name : Name) {v : Value}
    (ok : K.ambit.Admits w.extent v) :
    K.Conducts w K.ambit.Admits fun i => resolveBinding (ev i) name v c := by
  cases v with
  | missing | dots _ => exact failAt rfl
  | promise id => exact force ready (Ambit.admits_promise.mp ok)
  | _ => exact value fun _ le => ok.mono le

/-- What is bound to a name of the ambit, seen from an environment. -/
theorem lookup (env : EnvId) {name : Name} (allowed : K.ambit.symbol name) :
    K.Conducts w (fun n found => K.ambit.AdmitsAny n (found.map (·.2)))
      fun _ => readHeap (·.lookup env name) :=
  readingHeap fun _ sound _ => Heap.fair_lookup sound.heap env allowed

theorem getLocal (env : EnvId) {name : Name} (allowed : K.ambit.symbol name) :
    K.Conducts w K.ambit.AdmitsAny fun _ => readHeap (·.getLocal env name) :=
  readingHeap fun _ sound _ => Heap.fair_getLocal sound.heap env allowed

theorem readDotIndex (ready : K.Ready ev w c) (name : Name) (env : EnvId) :
    K.Conducts w K.ambit.Admits fun i => readDotIndex (ev i) name env c := by
  refine andThen (lookup env K.ambit.varargs) fun t found follows ok => ?_
  rcases found with _ | ⟨place, v⟩
  · exact failAt rfl
  · cases v with
    | dots id =>
      refine reading fun s sound onward => ?_
      cases there : if Name.dotIndex name = 0 then none
          else (s.store.dotsAt id).values[Name.dotIndex name - 1]? with
      | none =>
        dsimp only
        rw [there]
        exact failAt rfl
      | some v =>
        dsimp only
        rw [there]
        refine resolveBinding (ready.later (follows.trans onward)) name ?_
        split at there
        · cases there
        · exact sound.store.dotsAt id v (List.mem_of_getElem? there)
    | _ => exact failAt rfl

theorem readVariable (ready : K.Ready ev w c) {name : Name} (allowed : K.ambit.symbol name)
    (env : EnvId) : K.Conducts w K.ambit.Admits fun i => readVariable (ev i) name env c := by
  refine branch (fun _ => failAt rfl) fun _ => branch (fun _ => readDotIndex ready name env) fun _ => ?_
  refine andThen (lookup env allowed) fun t found follows ok => ?_
  rcases found with _ | ⟨place, v⟩
  · exact failAt rfl
  · exact resolveBinding (ready.later follows) name (ok v rfl)

theorem findFunctionAlong (ready : K.Ready ev w c) {name : Name} (allowed : K.ambit.symbol name)
    (chain : List EnvId) :
    K.Conducts w K.ambit.AdmitsAny fun i => findFunctionAlong (ev i) name c chain := by
  induction chain generalizing w with
  | nil => exact value fun _ _ => nofun
  | cons env rest ih =>
    refine andThen (getLocal env allowed) fun t found follows ok => ?_
    cases found with
    | none => exact ih (ready.later follows)
    | some v =>
      refine andThen (forceValue (ready.later follows) (ok v rfl)) fun u v onward forced => ?_
      refine branch (fun _ => value fun k le w same => ?_) fun _ =>
        ih (ready.later (follows.trans onward))
      cases same
      exact forced.mono le

theorem findFunction (ready : K.Ready ev w c) {name : Name} (allowed : K.ambit.symbol name)
    (env : EnvId) : K.Conducts w K.ambit.AdmitsAny fun i => findFunction (ev i) name env c :=
  reading fun _ _ follows => findFunctionAlong (ready.later follows) allowed _

theorem lookupFunction (ready : K.Ready ev w c) {name : Name} (allowed : K.ambit.symbol name)
    (env : EnvId) : K.Conducts w K.ambit.Admits fun i => lookupFunction (ev i) name env c := by
  refine andThen (findFunction ready allowed env) fun t found follows ok => ?_
  cases found with
  | none => exact failAt rfl
  | some f => exact value fun _ le => (ok f rfl).mono le

theorem assignVariable {v : Value} (name : Name) (env : EnvId) (outer : Bool)
    (ok : K.ambit.Admits w.extent v) :
    K.Conducts w Ambit.Any fun _ => assignVariable name v env outer := by
  have bound {u : Session} (late : w.Follows K.ambit u) : K.Conducts u Ambit.Any fun _ =>
      if outer then updateHeap fun h => (·.2) <$> h.assignOuter env name v
      else define env name v := by
    refine branch (fun _ => rebinding fun s sound onward => ?_) fun _ =>
      defining name (ok.mono late.extent_le)
    refine Ambit.fair_bind (Heap.fair_assignOuter s.heap env name v) fun r written => ?_
    obtain ⟨place, heap⟩ := r
    obtain ⟨target, rfl⟩ := written
    exact ⟨sound.heap.bind target fun _ => ok.mono (late.trans onward).extent_le,
      fun _ alive => Heap.contains_bind name v alive⟩
  refine andThen (readingHeap fun s _ _ => Heap.fair_replacedBinding s.heap name env outer)
    fun t current follows _ => reading fun s sound onward => ?_
  cases current.any fun c => holdsObject s.store c v with
  | true => exact bound (follows.trans onward)
  | false =>
    exact andThen (modifying (Ambit.handles_share v)) fun u _ onward' _ =>
      bound (follows.trans (onward.trans onward'))

/-! Arguments of a call. -/

theorem visibleDots (env : EnvId) (c : RecordId) :
    K.Conducts w (fun n d => K.ambit.AdmitsAll n d.values) fun _ => visibleDots env c := by
  refine andThen (lookup env K.ambit.varargs) fun t found _ _ => ?_
  rcases found with _ | ⟨place, v⟩
  · exact failAt rfl
  · cases v with
    | dots id =>
      exact reading fun s sound _ => value fun _ le => (sound.store.dotsAt id).mono le
    | missing => exact value fun _ _ => Ambit.admitsAll_nil
    | _ => exact failAt rfl

end Conducts

/-- What an argument of a call may be before a promise is made for it. -/
def Allows (K : Regime) (args : List Arg) (n : Nat) : Pending → Prop
  | .expr _ e => ∃ a ∈ args, a.value = e
  | .value v => K.ambit.Admits n v

theorem Allows.mono {args : List Arg} {n k : Nat} {p : Pending} (ok : K.Allows args n p)
    (le : n ≤ k) : K.Allows args k p := by
  cases p with
  | expr position e => exact ok
  | value v => exact Ambit.Admits.mono ok le

namespace Conducts

variable {args : List Arg}

theorem expandArgs (env : EnvId) (c : RecordId) (position : Nat) {rest : List Arg}
    (sub : rest ⊆ args) :
    K.Conducts w (fun n r => ∀ p ∈ r.2, K.Allows args n p)
      fun _ => expandArgs env c position rest := by
  induction rest generalizing w position with
  | nil => exact value fun _ _ => nofun
  | cons a rest ih =>
    obtain ⟨first, others⟩ := List.cons_subset.mp sub
    have onward {u : Session} (names : List (Option Name)) (pending : List Pending)
        (ok : ∀ p ∈ pending, K.Allows args u.extent p) :
        K.Conducts u (fun n r => ∀ p ∈ r.2, K.Allows args n p) fun _ =>
          CallByNeed.expandArgs env c (position + 1) rest >>= fun more =>
            pure (names ++ more.1, pending ++ more.2) := by
      refine andThen (ih (position + 1) others) fun t more follows all => value fun k le => ?_
      refine List.forall_mem_append.mpr ⟨fun p member => ?_, fun p member => (all p member).mono le⟩
      exact (ok p member).mono (Nat.le_trans follows.extent_le le)
    obtain ⟨name, e⟩ := a
    unfold CallByNeed.expandArgs
    refine branch (fun _ => ?_) fun _ => branch (fun _ => ?_) fun _ => ?_
    · refine andThen (visibleDots env c) fun t d _ ok => onward d.names _ fun p member => ?_
      obtain ⟨v, there, rfl⟩ := List.mem_map.mp member
      exact ok v there
    · refine onward [name] [.value .missing] fun p member => ?_
      cases List.mem_singleton.mp member
      exact Ambit.admits_missing
    · refine onward [name] [.expr position e] fun p member => ?_
      cases List.mem_singleton.mp member
      exact ⟨⟨name, e⟩, first, rfl⟩

theorem matchCall (f : Function) (names : List (Option Name)) (labels : List String) (call : Expr) :
    K.Conducts w Ambit.Any fun _ => matchCall f names labels call := by
  refine reading fun s _ _ => ?_
  cases matchArguments (.ofFormals f.names) (.supplied names) s.options.partialMatching with
  | ok slots => exact value fun _ _ => trivial
  | error e => exact failure (by cases e <;> rfl)

theorem matchSupplied (f : Function) (supplied : Supplied) (call : Expr) :
    K.Conducts w Ambit.Any fun _ => matchSupplied f supplied call :=
  reading fun _ _ _ => matchCall f _ _ call

/-- What becomes of an argument once its early evaluation has ended. -/
def eagerOutcome (e : Expr) (env : EnvId) (caller : RecordId) (site : NodeId)
    (snapshot : List (EnvId × Nat)) (previous : Bool) : Except Unwind Value → EvalM Value
  | .ok v => do
    count fun c => { c with eagerPromisesCreated := c.eagerPromisesCreated + 1 }
    allocate (Store.eagerPromise e env caller ⟨v, site, snapshot, false⟩)
  | .error (.failure .cannotOptimize) => do
    CallByNeed.failIf previous .cannotOptimize
    modifyStore (·.distrust site)
    count fun c => { c with eagerAborts := c.eagerAborts + 1 }
    allocate (Store.lazyPromise e env .supplied caller)
  | .error (.failure f) =>
    if f.isCatchable then do
      count fun c => { c with eagerAborts := c.eagerAborts + 1 }
      allocate (Store.lazyPromise e env .supplied caller)
    else fail f
  | .error u => throw u

/-- A computation with a record flagged, and the flag put back. -/
theorem flagging {m : K.ι → EvalM Value} {k : K.ι → Bool → Except Unwind Value → EvalM α}
    {Q : Nat → α → Prop} (childless : w.records.Childless c)
    (conducts : ∀ s, w.Beside K.ambit c s → K.Conducts s K.ambit.Admits m)
    (rest : ∀ (s t : Session) (previous : Bool) (r : Except Unwind Value), w.Follows K.ambit t →
      (previous = true → ¬w.records.Calm) → s.builtins = w.builtins →
      K.Ends s K.ambit.Admits t.extent r → K.Conducts t Q fun i => k i previous r) :
    K.Conducts w Q fun i => eagerOnly c >>= fun previous => setEagerOnly c true >>= fun _ =>
      observe (m i) >>= fun r => setEagerOnly c previous >>= fun _ => k i previous r := by
  intro s sound follows
  let flagged : Session := { s with records := s.records.setEagerOnly c true }
  have sound' : flagged.Sound K.ambit := by
    refine { sound with records := sound.records.flagged fun r member => ?_ }
    exact childless r (follows.live ▸ member)
  have beside : w.Beside K.ambit c flagged := by
    refine ⟨⟨follows.next, follows.options, follows.builtins, follows.frames, follows.opens,
      follows.course⟩, .inr ?_⟩
    unfold flagged Records.setEagerOnly
    rw [follows.live]
  obtain ⟨r, t, runs, ok, onward, ends⟩ := conducts flagged beside flagged sound' (.refl flagged)
  let restored : Session :=
    { t with records := t.records.setEagerOnly c (s.records.eagerOnly c) }
  have live : restored.records.live = s.records.live := sound.records.restored onward.live
  have follows' : s.Follows K.ambit restored :=
    ⟨⟨onward.next, onward.options, onward.builtins, onward.frames, onward.opens, onward.course⟩, live⟩
  have sound'' : restored.Sound K.ambit :=
    { ok with records := (sound.records.mono onward.extent_le).same live onward.next }
  have loud : s.records.eagerOnly c = true → ¬w.records.Calm := by
    intro flag calm
    rw [(calm_follows follows calm).eagerOnly c] at flag
    cases flag
  obtain ⟨r', t', runs', ok', onward', ends'⟩ := rest flagged restored _ r (follows.trans follows') loud
    follows.builtins ends restored sound'' (.refl restored)
  refine ⟨r', t', ?_, ok', follows'.trans onward', ends'.back (follows.trans follows')⟩
  filter_upwards [runs, runs'] with i run run'
  rw [eagerOnly_bind, setEagerOnly_bind, observe_bind, run, setEagerOnly_bind]
  exact run'

theorem eagerArgument {e : Expr} (env : EnvId) (site : NodeId) (childless : w.records.Childless c)
    (runs : K.Runs ev w c e) :
    K.Conducts w K.ambit.AdmitsFreely fun i => eagerArgument (ev i) e env c site := by
  refine andThen (readingHeap fun s _ _ => Heap.fair_versionSnapshot s.heap env)
    fun t snapshot follows _ => ?_
  have runs := runs.later follows
  refine flagging (k := fun _ previous => eagerOutcome e env c site snapshot previous)
    (fun r member => childless r (follows.live ▸ member))
    (fun s beside => runs.conducts s env beside) fun s u previous r onward loud builtins ends => ?_
  have reads := runs.reads.mono onward.extent_le
  have lazily {x : Session} (late : u.Follows K.ambit x) :
      K.Conducts x K.ambit.AdmitsFreely fun _ => allocate (Store.lazyPromise e env .supplied c) :=
    lazyPromise env .supplied c (reads.mono late.extent_le)
  rcases r with (f | ⟨target, v⟩) | v
  · cases f with
    | cannotOptimize =>
      cases previous with
      | true =>
        refine permitted ⟨fun _ calm => absurd ?_ (loud rfl), nofun⟩
        exact fun r member => calm r (onward.live ▸ member)
      | false =>
        refine andThen (Q := Ambit.Any) (value fun _ _ => trivial) fun _ _ first _ => ?_
        exact andThen (distrusting site) fun _ _ second _ => andThen (noting fun _ => rfl) fun _ _ third _ =>
          lazily (first.trans (second.trans third))
    | condition _ | generic _ => exact andThen (noting fun _ => rfl) fun _ _ first _ => lazily first
    | internal _ | interrupted => exact failure rfl
    | exhausted =>
      refine permitted ⟨nofun, fun same total => ?_⟩
      exact (Permits.wholly ends same total).congr (builtins.trans onward.builtins.symm)
  · exact leaving ends
  · refine andThen (noting fun _ => rfl) fun x _ late _ =>
      promising ⟨reads.mono late.extent_le, nofun, fun v same => ?_⟩
    cases same
    exact Ambit.Admits.mono ends late.extent_le

theorem simpleArgs (site : NodeId) (args : List Arg) :
    K.Conducts w Ambit.Any fun _ => simpleArgs site args := by
  intro s sound follows
  obtain ⟨simple, known | noted⟩ := simpleArgs_cases site args s
  · exact ⟨_, s, .of_forall fun _ => known, sound, .refl s, trivial⟩
  · exact ⟨_, _, .of_forall fun _ => noted, sound.setSite site (sound.cache site),
      Session.follows_setSite _ _, trivial⟩

theorem forcedFormals (f : Function) : K.Conducts w Ambit.Any fun _ => forcedFormals f := by
  intro s sound follows
  obtain ⟨forced, known | noted⟩ := forcedFormals_cases f s
  · exact ⟨_, s, .of_forall fun _ => known, sound, .refl s, trivial⟩
  · exact ⟨_, _, .of_forall fun _ => noted, sound.same rfl,
      Session.follows_same rfl rfl rfl rfl rfl, trivial⟩

theorem argumentValue (env : EnvId) (site : NodeId) (early : Nat → Nat → Bool) (index : Nat)
    {p : Pending} (childless : w.records.Childless c) (runs : ∀ a ∈ args, K.Runs ev w c a.value)
    (ok : K.Allows args w.extent p) :
    K.Conducts w K.ambit.AdmitsFreely fun i => argumentValue (ev i) env c site early index p := by
  cases p with
  | value v => exact value fun k le _ => Ambit.Admits.mono ok le
  | expr position e =>
    obtain ⟨a, member, rfl⟩ := ok
    have run := runs a member
    unfold CallByNeed.argumentValue
    dsimp only
    cases constant : a.value.constant? with
    | some v => exact evaluatedPromise .supplied run.reads constant
    | none =>
      refine reading fun s _ follows => branch (fun _ => ?_) fun _ => ?_
      · exact eagerArgument env site (fun r member => childless r (follows.live ▸ member))
          (run.later follows)
      · exact lazyPromise env .supplied c (run.reads.mono follows.extent_le)

theorem argumentValues (env : EnvId) (site : NodeId) (early : Nat → Nat → Bool) (index : Nat)
    {pending : List Pending} (childless : w.records.Childless c)
    (runs : ∀ a ∈ args, K.Runs ev w c a.value) (ok : ∀ p ∈ pending, K.Allows args w.extent p) :
    K.Conducts w (fun n vs => K.ambit.Free → K.ambit.AdmitsAll n vs)
      fun i => argumentValues (ev i) env c site early index pending := by
  induction pending generalizing w index with
  | nil => exact value fun _ _ _ => Ambit.admitsAll_nil
  | cons p rest ih =>
    obtain ⟨first, others⟩ := List.forall_mem_cons.mp ok
    refine andThen (argumentValue env site early index childless runs first) fun t v follows made => ?_
    refine andThen (ih (index + 1) (fun r member => childless r (follows.live ▸ member))
      (fun a member => (runs a member).later follows)
      fun p member => (others p member).mono follows.extent_le) fun u vs onward all => ?_
    exact value fun k le free => Ambit.admitsAll_cons.mpr
      ⟨(made free).mono (Nat.le_trans onward.extent_le le), (all free).mono le⟩

theorem suppliedValues (env : EnvId) (site : NodeId) (f : Function) (slots : List FormalSlot)
    {pending : List Pending} (childless : w.records.Childless c)
    (runs : ∀ a ∈ args, K.Runs ev w c a.value) (ok : ∀ p ∈ pending, K.Allows args w.extent p) :
    K.Conducts w (fun n vs => K.ambit.Free → K.ambit.AdmitsAll n vs)
      fun i => suppliedValues (ev i) env c site f args slots pending := by
  have values {u : Session} (late : w.Follows K.ambit u) (early : Nat → Nat → Bool) :
      K.Conducts u (fun n vs => K.ambit.Free → K.ambit.AdmitsAll n vs)
        fun i => CallByNeed.argumentValues (ev i) env c site early 0 pending :=
    argumentValues env site early 0 (late.childless childless)
      (fun a member => (runs a member).later late) fun p member => (ok p member).mono late.extent_le
  refine reading fun s _ follows => branch (fun _ => ?_) fun _ => values follows never
  exact andThen (simpleArgs site args) fun _ simple second _ =>
    andThen (forcedFormals f) fun _ forced third _ => values (follows.trans (second.trans third)) _

theorem closureArgs (env : EnvId) (f : Function) (call : Expr) (childless : w.records.Childless c)
    (runs : ∀ a ∈ args, K.Runs ev w c a.value) :
    K.Conducts w (fun n r => K.ambit.Free → K.ambit.AdmitsAll n r.1.values)
      fun i => closureArgs (ev i) f call args env c := by
  refine andThen (expandArgs env c 0 (List.Subset.refl args)) fun t expanded first ok => ?_
  refine reading fun s _ second => andThen (matchCall f _ _ call) fun u slots third _ => ?_
  have late := first.trans (second.trans third)
  refine andThen (suppliedValues env call.id f slots (late.childless childless)
    (fun a member => (runs a member).later late)
    fun p member => (ok p member).mono (second.trans third).extent_le) fun x values _ all => ?_
  exact value fun k le free => (all free).mono le

/-! Frames and bodies. -/

theorem formalValue {supplied : Supplied} (env : EnvId) (record : RecordId) {formal : Formal}
    (slot : FormalSlot) (free : K.ambit.Free)
    (default : ∀ e, formal.default = some e → K.ambit.Reads w.extent e)
    (ok : K.ambit.AdmitsAll w.extent supplied.values) :
    K.Conducts w K.ambit.Admits fun _ => formalValue supplied env record formal slot := by
  have given (n i : Nat) (le : w.extent ≤ n) :
      K.ambit.Admits n (supplied.values[i]?.getD .missing) := by
    cases found : supplied.values[i]? with
    | none => exact Ambit.admits_missing
    | some v => exact (ok v (List.mem_of_getElem? found)).mono le
  unfold CallByNeed.formalValue
  extract_lets unsupplied
  have unmatched : K.Conducts w K.ambit.Admits fun _ => unsupplied := by
    unfold unsupplied
    cases there : formal.default with
    | none => exact value fun _ _ => Ambit.admits_missing
    | some e =>
      dsimp only
      cases constant : e.constant? with
      | some v =>
        exact (evaluatedPromise .default (default e there) constant).weaken fun _ _ made => made free
      | none => exact (lazyPromise env .default record (default e there)).weaken fun _ _ made => made free
  cases slot with
  | varargs indices =>
    refine map (listing ?_) fun _ id _ => Ambit.admits_dots id
    intro v member
    obtain ⟨i, _, rfl⟩ := List.mem_map.mp member
    exact given _ i (Nat.le_refl _)
  | supplied i => exact branch (fun _ => unmatched) fun _ => value fun k le => given k i le
  | unfilled => exact unmatched

theorem formalValue_gives (supplied : Supplied) (env : EnvId) (record : RecordId) (formal : Formal)
    (slot : FormalSlot) (s : Session) :
    ∃ v, (CallByNeed.formalValue supplied env record formal slot s).1 = .ok v := by
  unfold CallByNeed.formalValue
  cases slot with
  | varargs indices => exact ⟨_, rfl⟩
  | supplied i =>
    dsimp only
    split
    · cases formal.default with
      | none => exact ⟨_, rfl⟩
      | some e =>
        dsimp only
        cases e.constant? <;> exact ⟨_, rfl⟩
    · exact ⟨_, rfl⟩
  | unfilled =>
    cases formal.default with
    | none => exact ⟨_, rfl⟩
    | some e =>
      dsimp only
      cases e.constant? <;> exact ⟨_, rfl⟩

theorem define_gives {env : EnvId} (alive : s.heap.contains env = true) (name : Name) (v : Value) :
    (define env name v s).1 = .ok () := by
  obtain ⟨f, found⟩ := Option.isSome_iff_exists.mp alive
  have there : s.heap.frame env = .ok f := by
    unfold Heap.frame
    rw [found]
  have read : discard (readHeap (·.frame env)) s = (.ok (), s) := by
    change ((fun _ => ()) <$> readHeap (·.frame env)) s = _
    rw [map_eq_pure_bind, bind_apply, readHeap_apply, there]
    rfl
  unfold define
  rw [bind_apply, read]
  rfl

/-- Every formal is bound, in a frame that is there. -/
theorem bindFormals {supplied : Supplied} {env : EnvId} (record : RecordId) {formals : List Formal}
    (slots : List FormalSlot) (free : K.ambit.Free) (sound : s.Sound K.ambit)
    (alive : s.heap.contains env = true)
    (defaults : ∀ f ∈ formals, ∀ e, f.default = some e → K.ambit.Reads s.extent e)
    (ok : K.ambit.AdmitsAll s.extent supplied.values) :
    ∃ t, CallByNeed.bindFormals supplied env record formals slots s = (.ok (), t) ∧
      t.Sound K.ambit ∧ s.Follows K.ambit t := by
  induction formals generalizing s slots with
  | nil => exact ⟨s, rfl, sound, .refl s⟩
  | cons f rest ih =>
    obtain ⟨v, gives⟩ := formalValue_gives supplied env record f (slots.head?.getD .unfilled) s
    obtain ⟨t, made, sound₁, first, admitted⟩ :=
      (formalValue env record _ free (defaults f List.mem_cons_self) ok).sure sound (.refl s) gives
    obtain ⟨u, bound, sound₂, second, _⟩ := (defining (K := K) f.name admitted).sure sound₁ (.refl t)
      (define_gives (first.frames env alive) f.name v)
    have late := first.trans second
    obtain ⟨x, run, sound₃, third⟩ := ih slots.tail sound₂ (late.frames env alive)
      (fun g member e default => (defaults g (List.mem_cons_of_mem _ member) e default).mono late.extent_le)
      (ok.mono late.extent_le)
    refine ⟨x, ?_, sound₃, late.trans third⟩
    unfold CallByNeed.bindFormals
    rw [bind_apply, made]
    dsimp only
    rw [bind_apply, bound]
    exact run

theorem bindFresh {env : EnvId} (name : Name) (xs : Elements) (atomic : xs.children = [])
    (sound : s.Sound K.ambit) (alive : s.heap.contains env = true) :
    ∃ t, (allocate (Store.vector xs) >>= define env name) s = (.ok (), t) ∧ t.Sound K.ambit ∧
      s.Follows K.ambit t := by
  obtain ⟨t, made, sound₁, first, admitted⟩ :=
    (vector (K := K) (w := s) atomic).sure sound (.refl s) rfl
  obtain ⟨u, bound, sound₂, second, _⟩ := (defining (K := K) name admitted).sure sound₁ (.refl t)
    (define_gives (first.frames env alive) name _)
  refine ⟨u, ?_, sound₂, first.trans second⟩
  rw [bind_apply, made]
  exact bound

theorem bindDispatch {env : EnvId} (context : DispatchContext) (sound : s.Sound K.ambit)
    (alive : s.heap.contains env = true) :
    ∃ t, CallByNeed.bindDispatch env context s = (.ok (), t) ∧ t.Sound K.ambit ∧
      s.Follows K.ambit t := by
  obtain ⟨t, run₁, sound₁, first⟩ := bindFresh (K := K) ".Generic"
    (.character [context.generic]) rfl sound alive
  obtain ⟨u, run₂, sound₂, second⟩ := bindFresh (K := K) ".Class"
    (.character (context.classes.drop context.position)) rfl sound₁ (first.frames env alive)
  refine ⟨u, ?_, sound₂, first.trans second⟩
  change ((allocate (Store.vector (.character [context.generic])) >>= define env ".Generic") >>=
    fun _ => allocate (Store.vector (.character (context.classes.drop context.position))) >>=
      define env ".Class") s = _
  rw [bind_apply, run₁]
  exact run₂

/-- A call that is not nested too deeply gets a frame with all formals bound, and a record. -/
theorem enterFrame (id : ClosureId) {f : Function} (definedIn : EnvId) {call : Expr}
    {supplied : Supplied} (slots : List FormalSlot) {dispatch : Option DispatchContext}
    (free : K.ambit.Free) (sound : s.Sound K.ambit) (issued : c.index < s.records.next)
    (unflagged : s.records.eagerOnly c = false) (room : s.records.depth c < s.options.maxDepth)
    (ok : K.ambit.AllowsCall s.extent f call supplied dispatch) :
    ∃ env r t, CallByNeed.enterFrame (.closure id f definedIn) f definedIn call supplied slots c
        dispatch s = (.ok (env, r.id), t) ∧ t.Sound K.ambit ∧ s.Nests K.ambit t r ∧
      r.parent = some c ∧ r.eagerOnly = false := by
  let made := s.heap.alloc (some definedIn) none
  let s₁ : Session := { s with heap := made.2 }
  let r := s₁.newRecord (some c) (some call)
    (.function made.1 (.closure id f definedIn) supplied dispatch) false
  have sound₁ : s₁.Sound K.ambit := { sound with heap := sound.heap.alloc _ _ }
  have first : s.Follows K.ambit s₁ := Session.follows_withHeap fun _ => Heap.contains_alloc
  have below (p : RecordId) (same : some c = some p) : p.index < s₁.records.next := by
    cases same
    exact issued
  have within : K.ambit.AllowsRecord s.extent r := by
    refine ⟨fun e same => ?_, fun v same => ?_, fun given same => ?_, ok.object⟩
    · cases same
      exact ok.call
    · cases same
      exact Ambit.admits_closure.mpr ok.code
    · cases same
      exact ok.supplied free
  have sound₂ : (s₁.opening r).Sound K.ambit :=
    sound₁.opening below (orderly_unflagged (r := r) sound₁ unflagged rfl) within
  have nests : s.Nests K.ambit (s₁.opening r) r := first.nests (sound₁.nests below)
  have alive : (s₁.opening r).heap.contains made.1 = true := Heap.contains_new sound.heap.free _ _
  obtain ⟨t, bound, sound₃, third⟩ := bindFormals r.id slots free sound₂ alive
    (Ambit.reads_function.mp ok.code).1 (ok.supplied free)
  have shallow : ¬s.options.maxDepth ≤ s.records.depth c := Nat.not_le_of_lt room
  cases dispatch with
  | none =>
    refine ⟨made.1, r, t, ?_, sound₃, nests.follow third, rfl, rfl⟩
    unfold CallByNeed.enterFrame
    rw [get_bind, if_neg shallow]
    change (CallByNeed.bindFormals supplied made.1 r.id f.formals slots >>=
      fun _ => pure (made.1, r.id)) (s₁.opening r) = _
    rw [bind_apply, bound]
    rfl
  | some context =>
    obtain ⟨u, named, sound₄, fourth⟩ := bindDispatch (K := K) context sound₃
      (third.frames made.1 alive)
    refine ⟨made.1, r, u, ?_, sound₄, nests.follow (third.trans fourth), rfl, rfl⟩
    unfold CallByNeed.enterFrame
    rw [get_bind, if_neg shallow]
    change (CallByNeed.bindFormals supplied made.1 r.id f.formals slots >>= fun _ =>
      CallByNeed.bindDispatch made.1 context >>= fun _ => pure (made.1, r.id)) (s₁.opening r) = _
    rw [bind_apply, bound]
    dsimp only
    rw [bind_apply, named]
    rfl

theorem enterFrame_refused {closure : Value} {f : Function} {definedIn : EnvId} {call : Expr}
    {supplied : Supplied} {slots : List FormalSlot} {dispatch : Option DispatchContext}
    (deep : s.options.maxDepth ≤ s.records.depth c) :
    CallByNeed.enterFrame closure f definedIn call supplied slots c dispatch s =
      (.error (.failure (recursionLimit.withCall (some (s.store.exprText call)))), s) := by
  unfold CallByNeed.enterFrame
  rw [get_bind, if_pos deep]
  rfl

/-- What becomes of a call when its body ends. Leaving the frame of the call ends it with a value. -/
def outcomeOf (env : EnvId) : Except Unwind Value → EvalM Value
  | .error (.leave target v) => if target = env then pure v else throw (.leave target v)
  | outcome => resume outcome

theorem callOutcome (env : EnvId) {a : Except Unwind Value} (follows : w.Follows K.ambit s)
    (ends : K.Ends w K.ambit.Admits s.extent a) :
    K.Conducts s K.ambit.Admits fun _ => outcomeOf env a := by
  rcases a with (f | ⟨target, v⟩) | v
  · exact permitted (Permits.on ends follows)
  · exact branch (fun _ => value fun _ le => Ambit.Admits.mono ends le) fun _ => leaving ends
  · exact value fun _ le => Ambit.Admits.mono ends le

theorem applyClosure (ready : K.Ready ev w c) (unflagged : w.records.eagerOnly c = false)
    (id : ClosureId) {f : Function} (definedIn : EnvId) {call : Expr} {supplied : Supplied}
    (slots : List FormalSlot) {dispatch : Option DispatchContext}
    (ok : K.ambit.AllowsCall w.extent f call supplied dispatch) :
    K.Conducts w K.ambit.Admits fun i =>
      applyClosure (ev i) (.closure id f definedIn) f definedIn call supplied slots c dispatch := by
  intro s sound follows
  have ready := ready.later follows
  by_cases deep : s.options.maxDepth ≤ s.records.depth c
  · let limit := recursionLimit.withCall (some (s.store.exprText call))
    refine ⟨.error (.failure limit), s, .of_forall fun i => ?_, sound, .refl s,
      permits_of_fair (f := limit) rfl⟩
    unfold CallByNeed.applyClosure
    dsimp only
    rw [bind_apply, enterFrame_refused deep]
  · have room := Nat.lt_of_not_le deep
    have still := (follows.eagerOnly c).trans unflagged
    obtain ⟨env, r, t, entered, sound₁, nests, parent, quiet⟩ :=
      enterFrame id definedIn slots (ready.room.resolve_right deep) sound ready.issued still room
        (ok.mono follows.extent_le)
    have body : K.Conducts t K.ambit.Admits fun i => ev i f.body env r.id :=
      ready.nested t r f.body env sound₁ nests parent
        ((Ambit.reads_function.mp ok.code).2.mono (Nat.le_trans follows.extent_le nests.extent_le))
        (.inl room)
    obtain ⟨a, u, runs, sound₂, onward, ends⟩ := closing nests (fun _ => quiet) (body.lands sound₁)
    obtain ⟨a', x, runs', sound₃, onward', ends'⟩ := callOutcome env onward ends u sound₂ (.refl u)
    refine ⟨a', x, ?_, sound₃, onward.trans onward', ends'.back (follows.trans onward)⟩
    filter_upwards [runs, runs'] with i run run'
    unfold CallByNeed.applyClosure
    rw [bind_apply, entered]
    dsimp only
    rw [observe_bind, run]
    exact run'

/-- A frame made for its own sake. -/
theorem framing (free : K.ambit.Free) (issued : c.index < w.records.next)
    (unflagged : w.records.eagerOnly c = false) (id : ClosureId) {f : Function} (definedIn : EnvId)
    {call : Expr} {supplied : Supplied} (slots : List FormalSlot) {dispatch : Option DispatchContext}
    (ok : K.ambit.AllowsCall w.extent f call supplied dispatch) :
    K.Conducts w Ambit.Any fun _ =>
      CallByNeed.enterFrame (.closure id f definedIn) f definedIn call supplied slots c dispatch >>=
        fun made => releasing made.2 (pure made.1) := by
  intro s sound follows
  by_cases deep : s.options.maxDepth ≤ s.records.depth c
  · let limit := recursionLimit.withCall (some (s.store.exprText call))
    refine ⟨.error (.failure limit), s, .of_forall fun i => ?_, sound, .refl s,
      permits_of_fair (f := limit) rfl⟩
    dsimp only
    rw [bind_apply, enterFrame_refused deep]
  · have still := (follows.eagerOnly c).trans unflagged
    obtain ⟨env, r, t, entered, sound', nests, _, _⟩ :=
      enterFrame id definedIn slots free sound (Nat.lt_of_lt_of_le issued follows.next) still
        (Nat.lt_of_not_le deep) (ok.mono follows.extent_le)
    obtain ⟨closed, onward⟩ := nests.closing sound'
    refine ⟨.ok env, _, .of_forall fun i => ?_, closed, onward, trivial⟩
    dsimp only
    rw [bind_apply, entered]
    rfl

theorem invokeClosure (ready : K.Ready ev w c) (id : ClosureId) {f : Function} (definedIn : EnvId)
    {call : Expr} {supplied : Supplied} {dispatch : Option DispatchContext}
    (ok : K.ambit.AllowsCall w.extent f call supplied dispatch) :
    K.Conducts w K.ambit.Admits fun i =>
      invokeClosure (ev i) (.closure id f definedIn) f definedIn call supplied c dispatch := by
  refine guarding fun s _ first unflagged => andThen (matchSupplied f supplied call) fun t slots second _ => ?_
  have late := first.trans second
  exact applyClosure (ready.later late) ((second.eagerOnly c).trans unflagged) id definedIn slots
    (ok.mono late.extent_le)

end Conducts
end Regime
end CallByNeed
