import CallByNeed.Proofs.Calling
import CallByNeed.Proofs.Promises
import CallByNeed.Proofs.Tracking

/-!
Tracking what evaluation is made of, given that what is nested in it is tracked: forcing of promises,
variables, and calls of closures.
-/
namespace CallByNeed

/-- What an argument of a call may refer to before a promise is made for it. -/
def Scope.AllowsPending (S : Scope) : Pending → Prop
  | .expr _ e => S.Spans e
  | .value v => S.Covers v

theorem Scope.AllowsPending.mono {S T : Scope} {p : Pending} (ok : S.AllowsPending p) (wider : S.Within T) :
    T.AllowsPending p := by
  cases p with
  | expr position e => exact Scope.Spans.mono ok wider
  | value v => exact Scope.Covers.mono ok wider

/-- What the call of a closure may refer to. -/
structure Scope.AllowsCall (S : Scope) (closure : Value) (call : Expr) (supplied : Supplied)
    (dispatch : Option DispatchContext) : Prop where
  closure : S.Covers closure
  call : S.Spans call
  supplied : S.CoversAll supplied.values
  dispatch : ∀ d, dispatch = some d → S.AllowsContext d

theorem Scope.AllowsCall.mono {S T : Scope} {closure : Value} {call : Expr} {supplied : Supplied}
    {dispatch : Option DispatchContext} (ok : S.AllowsCall closure call supplied dispatch)
    (wider : S.Within T) : T.AllowsCall closure call supplied dispatch where
  closure := ok.closure.mono wider
  call := ok.call.mono wider
  supplied := Scope.CoversAll.mono ok.supplied wider
  dispatch d same := (ok.dispatch d same).mono wider

theorem Store.Within.distrust {S : Scope} {s : Store} (within : s.Within S) (site : NodeId) :
    (s.distrust site).Within S := by
  unfold Store.distrust
  split
  · exact ⟨within.vectors, within.promises, within.dots⟩
  · exact within

theorem Store.Within.begun {S : Scope} {s : Store} {id : PromiseId} {env : EnvId} (within : s.Within S)
    (waiting : (s.promise id).state = .unevaluated env) : (s.begun id env).Within S := by
  have alive : S.frame env := (within.promise id).env env (by rw [waiting]; rfl)
  refine within.modifyPromise (f := ({ · with state := .underEvaluation env }))
    (fun p ok => ⟨ok.expr, fun e same => ?_, nofun, ok.eager⟩) id
  cases same
  exact alive

namespace Inquiry

variable (K : Inquiry)

/-- Every evaluation of code that a session may refer to is tracked. -/
def Evaluates (ev : Option (EvalM Unit) → Evaluator) : Prop :=
  ∀ (w : Session) (e : Expr) (env : EnvId) (c : RecordId), (K.scope w).Spans e → (K.scope w).frame env →
    K.Tracks w Scope.Covers fun alarm => ev alarm e env c

variable {K} {ev : Option (EvalM Unit) → Evaluator} {α β : Type} {w s t : Session} {c : RecordId}

namespace Tracks

/-! Forcing. -/

theorem fulfilling {v : Value} (id : PromiseId) (ok : (K.scope w).Covers v) :
    K.Tracks w Any fun _ => modifyStore fun store => (store.share v).fulfil id v := by
  refine modifying fun S wider s within => ?_
  refine (within.setSharing Sharing.promoted v).modifyPromise (f := ({ · with state := .evaluated v }))
    (fun p old => ⟨old.expr, nofun, fun u same => ?_, old.eager⟩) id
  cases same
  exact ok.mono wider

theorem distrusting (site : NodeId) : K.Tracks w Any fun _ => modifyStore (Store.distrust site) :=
  modifying fun _ _ _ within => within.distrust site

theorem within_reset {S : Scope} {s : Store} (within : s.Within S) (id : PromiseId) :
    (s.resetPromise id).Within S := by
  refine within.modifyPromise (f := fun p => { p with state := p.state.reset })
    (fun p ok => ⟨ok.expr, ?_, ?_, ok.eager⟩) id
  · have env := ok.env
    cases state : p.state with
    | unevaluated e | underEvaluation e =>
      rw [state] at env
      exact env
    | evaluated v => exact nofun
  · have value := ok.value
    cases state : p.state with
    | unevaluated e | underEvaluation e => exact nofun
    | evaluated v =>
      rw [state] at value
      exact value

theorem resetting (id : PromiseId) : K.Tracks w Any fun _ => modifyStore (·.resetPromise id) :=
  modifying fun _ _ _ within => within_reset within id

theorem deoptimizing (id : PromiseId) : K.Tracks w Any fun _ => modifyStore (Store.deoptimize id) := by
  refine modifying fun S wider s within => within.modifyPromise
    (f := fun p => { p with eager := p.eager.map ({ · with deoptimized := true }) })
    (fun p ok => ⟨ok.expr, ok.env, ok.value, fun v same => ok.eager v ?_⟩) id
  rw [← same, Option.map_map]
  rfl

theorem modifyingTwice {f g : Store → Store} (first : K.Tracks w Any fun _ => modifyStore f)
    (second : K.Tracks w Any fun _ => modifyStore g) :
    K.Tracks w Any fun _ => modifyStore fun s => g (f s) :=
  andThen (m := fun _ => modifyStore f) (f := fun _ _ => modifyStore g) first
    fun _ _ extend _ => second.later extend

theorem takeEagerValue (id : PromiseId) : K.Tracks w Scope.CoversAny fun _ => takeEagerValue id := by
  refine reading fun s sound _ => ?_
  cases found : (s.store.promise id).eager with
  | none => exact value fun _ _ => nofun
  | some eager =>
    have ok : (K.scope s).Covers eager.value :=
      (sound.store.promise id).eager _ (by rw [found]; rfl)
    refine branch (fun _ => value fun _ _ => nofun) fun _ => branch (fun _ => ?_) fun _ => ?_
    · refine andThen (fulfilling id ok) fun t _ first _ =>
        andThen (noting fun _ => ⟨rfl, rfl⟩) fun u _ second _ => ?_
      refine value fun S wider v same => ?_
      cases same
      exact ok.mono ((scope_within (first.trans second)).trans wider)
    · exact andThen (modifyingTwice (deoptimizing id) (distrusting eager.site)) fun _ _ _ _ =>
        andThen (noting fun _ => ⟨rfl, rfl⟩) fun _ _ _ _ => value fun _ _ => nofun

/-- A promise whose value computed ahead is not taken waits as before. -/
theorem takeEagerValue_state {id : PromiseId} (run : CallByNeed.takeEagerValue id s = (.ok none, t)) :
    (t.store.promise id).state = (s.store.promise id).state := by
  rcases takeEagerValue_cases id s with ⟨_, same⟩ | ⟨eager, _, _, ⟨_, same⟩ | same⟩
  · rw [same] at run
    cases run
    rfl
  · rw [same] at run
    cases run
  · rw [same] at run
    cases run
    change (((s.store.deoptimize id).distrust eager.site).promise id).state = _
    unfold Store.promise
    rw [Disciplined.distrust_promises]
    change ((s.store.modifyPromise id _).promise id).state = _
    rw [Store.promise_modify]
    split
    · rfl
    · rfl

/-- What becomes of a promise when its evaluation ends. -/
theorem settlePromise (id : PromiseId) {m : Option (EvalM Unit) → EvalM Value}
    (tracks : K.Tracks w Scope.Covers m) :
    K.Tracks w Scope.Covers fun alarm => observe (m alarm) >>= Regime.settlePromise id := by
  refine observing tracks (fun t r _ yields mild => ?_) fun f t _ sound _ =>
    ⟨_, rfl, sound.withStore (within_reset sound.store id), .same rfl rfl, rfl⟩
  cases r with
  | error u =>
    refine andThen (resetting id) fun x _ late _ => unwinding (P := Scope.Covers) ?_ mild
    rcases u with f | ⟨env, v⟩
    · trivial
    · exact Scope.Covers.mono yields (scope_within late)
  | ok v =>
    refine andThen (fulfilling id yields) fun x _ first _ =>
      andThen (noting fun _ => ⟨rfl, rfl⟩) fun y _ second _ => ?_
    exact value fun S wider => Scope.Covers.mono yields ((scope_within (first.trans second)).trans wider)

theorem evaluatePromise (evaluates : K.Evaluates ev) {id : PromiseId} {env own : EnvId}
    (sound : K.Sound s) (waiting : (s.store.promise id).state = .unevaluated own)
    (alive : (K.scope s).frame env) :
    K.Lands s Scope.Covers fun alarm => evaluatePromise (ev alarm) id env c := by
  let begun : Session := { s with store := s.store.begun id own }
  have marked : K.Sound begun := sound.withStore (sound.store.begun waiting)
  have onward : s.Extends begun := .same rfl rfl
  have body : K.Tracks begun Scope.Covers fun alarm =>
      CallByNeed.underRecord (some c) none (.promise (s.store.promise id).caller)
        (ev alarm (s.store.promise id).expr env) := by
    refine underRecord (fun _ _ => ⟨nofun, nofun, nofun, nofun, nofun⟩) fun t record late => ?_
    have wider := scope_within (K := K) late
    exact evaluates t _ env record ((sound.store.promise id).expr.mono wider) (wider (.frame env) alive)
  obtain ⟨r, t, runs, passes, yields⟩ := (settlePromise id body).lands marked
  refine ⟨r, t, fun alarm quiet => ?_, (Passes.quiet marked onward fun up => up).trans nofun passes, yields⟩
  dsimp only
  rw [Regime.evaluatePromise_apply _ _ waiting]
  exact runs alarm quiet

theorem force (evaluates : K.Evaluates ev) (id : PromiseId) :
    K.Tracks w Scope.Covers fun alarm => force (ev alarm) id c := by
  intro s sound extend
  refine Lands.reading ?_
  have ok := sound.store.promise id
  cases state : (s.store.promise id).state with
  | evaluated v =>
    refine (value fun S wider => ?_ : K.Tracks s Scope.Covers fun _ => pure v).lands sound
    exact (ok.value v (by rw [state]; rfl)).mono wider
  | underEvaluation env =>
    exact (branch (fun _ => failAt rfl) fun _ => value fun _ _ => Scope.covers_missing).lands sound
  | unevaluated env =>
    have alive : (K.scope s).frame env := ok.env env (by rw [state]; rfl)
    refine ((takeEagerValue id).lands sound).andThen fun t found run passes ok => ?_
    have sound := passes.sound
    cases found with
    | some v => exact (value fun S wider => (ok v rfl).mono wider : K.Tracks t Scope.Covers _).lands sound
    | none =>
      have waiting := (takeEagerValue_state (run none)).trans state
      refine ((ensureLazy c).lands sound).andThen fun u _ run _ _ => ?_
      cases ensureLazy_state (run none)
      refine (polling.lands sound).andThen fun u _ run _ _ => ?_
      cases checkInterrupt_state (run none)
      exact evaluatePromise evaluates sound waiting (scope_within passes.onward (.frame env) alive)

theorem forceValue (evaluates : K.Evaluates ev) {v : Value} (ok : (K.scope w).Covers v) :
    K.Tracks w Scope.Covers fun alarm => forceValue (ev alarm) v c := by
  cases v with
  | promise id => exact force evaluates id
  | _ => exact value fun _ wider => ok.mono wider

theorem forceAll (evaluates : K.Evaluates ev) {values : List Value}
    (ok : (K.scope w).CoversAll values) :
    K.Tracks w Scope.CoversAll fun alarm => forceAll (ev alarm) c values := by
  induction values generalizing w with
  | nil => exact value fun _ _ => Scope.coversAll_nil
  | cons v rest ih =>
    obtain ⟨first, others⟩ := Scope.coversAll_cons.mp ok
    refine andThen (forceValue evaluates first) fun t v extend forced => ?_
    refine andThen (ih (others.mono (scope_within extend))) fun u vs onward all => ?_
    exact value fun S wider => Scope.coversAll_cons.mpr
      ⟨forced.mono ((scope_within onward).trans wider), all.mono wider⟩

/-! Whether an argument is missing. -/

theorem promisedBinding {p : Promise} (ok : (K.scope w).AllowsPromise p) :
    K.Tracks w Scope.CoversAny fun _ => promisedBinding p := by
  unfold CallByNeed.promisedBinding
  cases p.expr.symbol? with
  | none => exact value fun _ _ => nofun
  | some name =>
    cases there : p.state.env? with
    | none => exact value fun _ _ => nofun
    | some env => exact readingHeap fun s sound extend =>
        sound.found_getLocal (scope_within extend (.frame env) (ok.env env there)) name

theorem promisedBinding_state {p : Promise} {found : Option Value}
    (run : CallByNeed.promisedBinding p s = (.ok found, t)) : t = s := by
  unfold CallByNeed.promisedBinding at run
  cases symbol : p.expr.symbol? with
  | none =>
    rw [symbol] at run
    cases run
    rfl
  | some name =>
    cases there : p.state.env? with
    | none =>
      rw [symbol, there] at run
      cases run
      rfl
    | some env =>
      rw [symbol, there] at run
      exact readHeap_state run

/-- A promise marked for the time of a computation. -/
theorem probing {id : PromiseId} {own : EnvId} {m : Option (EvalM Unit) → EvalM Bool} (sound : K.Sound s)
    (waiting : (s.store.promise id).state = .unevaluated own) (tracks : K.Tracks s Any m) :
    K.Lands s Any fun alarm => onStore (Store.beginEvaluation id) >>= fun _ =>
      observe (m alarm) >>= fun answer => modifyStore (·.resetPromise id) >>= fun _ => resume answer := by
  let begun : Session := { s with store := s.store.begun id own }
  have marked : K.Sound begun := sound.withStore (sound.store.begun waiting)
  have onward : s.Extends begun := .same rfl rfl
  have body : K.Tracks begun Any fun alarm => observe (m alarm) >>= fun answer =>
      modifyStore (·.resetPromise id) >>= fun _ => resume answer := by
    refine observing (tracks.later onward) (fun t r _ yields mild => ?_) fun f t _ sound _ =>
      ⟨_, rfl, sound.withStore (within_reset sound.store id), .same rfl rfl, rfl⟩
    refine andThen (resetting id) fun u _ late _ => resuming ?_ mild fun _ _ _ _ ok => ok
    rcases r with (f | ⟨env, v⟩) | answer
    · trivial
    · exact Scope.Covers.mono yields (scope_within late)
    · trivial
  obtain ⟨r, t, runs, passes, yields⟩ := body.lands marked
  refine ⟨r, t, fun alarm quiet => ?_, (Passes.quiet marked onward fun up => up).trans nofun passes, yields⟩
  dsimp only
  rw [bind_apply, onStore_apply, Store.beginEvaluation_apply waiting]
  exact runs alarm quiet

theorem isMissingWithin (steps : Nat) (outermost : Bool) {v : Value} :
    K.Tracks w Any fun _ => isMissingWithin steps outermost v := by
  induction steps generalizing w outermost v with
  | zero =>
    cases v with
    | dots id => exact reading fun _ _ _ => value fun _ _ => trivial
    | _ => exact value fun _ _ => trivial
  | succ steps ih =>
    cases v with
    | dots id => exact reading fun _ _ _ => value fun _ _ => trivial
    | promise id =>
      intro s sound _
      refine Lands.reading ?_
      have plain (b : Bool) : K.Lands s Any fun _ => (pure b : EvalM Bool) :=
        (value fun _ _ => trivial : K.Tracks s Any _).lands sound
      by_cases given : (outermost && decide ((s.store.promise id).origin = .default)) = true
      · simp only [if_pos given]
        exact plain true
      · simp only [if_neg given]
        cases state : (s.store.promise id).state with
        | evaluated v => exact plain false
        | underEvaluation env => exact plain true
        | unevaluated env =>
          cases (s.store.promise id).eager.filter (!·.deoptimized) with
          | some eager => exact plain _
          | none =>
            refine ((promisedBinding (sound.store.promise id)).lands sound).andThen fun t inner run _ _ => ?_
            cases promisedBinding_state (run none)
            cases inner with
            | none => exact plain false
            | some inner => exact probing sound state (ih false)
    | _ => exact value fun _ _ => trivial

theorem isMissingArgument (name : Name) {env : EnvId} (alive : (K.scope w).frame env) :
    K.Tracks w Any fun _ => isMissingArgument name env := by
  refine andThen (readingHeap fun s sound extend =>
    sound.found_getLocal (scope_within extend (.frame env) alive) name) fun t found _ _ => ?_
  cases found with
  | none => exact failure rfl
  | some binding => exact reading fun s _ _ => isMissingWithin _ true

/-! Variables. -/

theorem resolveBinding (evaluates : K.Evaluates ev) (name : Name) {v : Value} (ok : (K.scope w).Covers v) :
    K.Tracks w Scope.Covers fun alarm => resolveBinding (ev alarm) name v c := by
  cases v with
  | missing | dots _ => exact failAt rfl
  | promise id => exact force evaluates id
  | _ => exact value fun _ wider => ok.mono wider

theorem lookup {env : EnvId} (alive : (K.scope w).frame env) (name : Name) :
    K.Tracks w (fun S found => ∀ e v, found = some (e, v) → S.Covers v)
      fun _ => readHeap (·.lookup env name) :=
  readingHeap fun _ sound extend => sound.found_lookup (scope_within extend (.frame env) alive) name

theorem getLocal {env : EnvId} (alive : (K.scope w).frame env) (name : Name) :
    K.Tracks w Scope.CoversAny fun _ => readHeap (·.getLocal env name) :=
  readingHeap fun _ sound extend => sound.found_getLocal (scope_within extend (.frame env) alive) name

theorem readDotIndex (evaluates : K.Evaluates ev) (name : Name) {env : EnvId}
    (alive : (K.scope w).frame env) :
    K.Tracks w Scope.Covers fun alarm => readDotIndex (ev alarm) name env c := by
  refine andThen (lookup alive Name.varargs) fun t found _ _ => ?_
  rcases found with _ | ⟨place, v⟩
  · exact failAt rfl
  · cases v with
    | dots id =>
      refine reading fun s sound _ => ?_
      cases there : if Name.dotIndex name = 0 then none
          else (s.store.dotsAt id).values[Name.dotIndex name - 1]? with
      | none =>
        dsimp only
        rw [there]
        exact failAt rfl
      | some v =>
        dsimp only
        rw [there]
        refine resolveBinding evaluates name ?_
        split at there
        · cases there
        · exact sound.store.dotsAt id v (List.mem_of_getElem? there)
    | _ => exact failAt rfl

theorem readVariable (evaluates : K.Evaluates ev) (name : Name) {env : EnvId}
    (alive : (K.scope w).frame env) :
    K.Tracks w Scope.Covers fun alarm => readVariable (ev alarm) name env c := by
  refine branch (fun _ => failAt rfl) fun _ => branch (fun _ => readDotIndex evaluates name alive) fun _ => ?_
  refine andThen (lookup alive name) fun t found _ ok => ?_
  rcases found with _ | ⟨place, v⟩
  · exact failAt rfl
  · exact resolveBinding evaluates name (ok place v rfl)

/-- A function that a session may refer to. -/
def Callable (S : Scope) (f : Value) : Prop := f.isFunction = true ∧ S.Covers f

/-- The same of a function that may have been found. -/
def CallableAny (S : Scope) (found : Option Value) : Prop := ∀ f, found = some f → Callable S f

theorem findFunctionAlong (evaluates : K.Evaluates ev) (name : Name) {chain : List EnvId}
    (alive : ∀ env ∈ chain, (K.scope w).frame env) :
    K.Tracks w CallableAny fun alarm => findFunctionAlong (ev alarm) name c chain := by
  induction chain generalizing w with
  | nil => exact value fun _ _ => nofun
  | cons env rest ih =>
    obtain ⟨first, others⟩ := List.forall_mem_cons.mp alive
    have further {t : Session} (late : w.Extends t) :
        K.Tracks t CallableAny fun alarm => CallByNeed.findFunctionAlong (ev alarm) name c rest :=
      ih fun e member => scope_within late (.frame e) (others e member)
    refine andThen (getLocal first name) fun t found late ok => ?_
    cases found with
    | none => exact further late
    | some v =>
      refine andThen (forceValue evaluates (ok v rfl)) fun u v onward forced => ?_
      refine branch (fun function => value fun S wider f same => ?_) fun _ => further (late.trans onward)
      cases same
      exact ⟨function, forced.mono wider⟩

theorem findFunction (evaluates : K.Evaluates ev) (name : Name) {env : EnvId}
    (alive : (K.scope w).frame env) :
    K.Tracks w CallableAny fun alarm => findFunction (ev alarm) name env c :=
  reading fun _ sound extend =>
    findFunctionAlong evaluates name (sound.chain (scope_within extend (.frame env) alive))

theorem lookupFunction (evaluates : K.Evaluates ev) (name : Name) {env : EnvId}
    (alive : (K.scope w).frame env) :
    K.Tracks w Callable fun alarm => lookupFunction (ev alarm) name env c := by
  refine andThen (findFunction evaluates name alive) fun t found _ ok => ?_
  cases found with
  | none => exact failAt rfl
  | some f => exact value fun _ wider => ⟨(ok f rfl).1, (ok f rfl).2.mono wider⟩

theorem assignVariable {v : Value} (name : Name) {env : EnvId} (outer : Bool)
    (alive : (K.scope w).frame env) (ok : (K.scope w).Covers v) :
    K.Tracks w Any fun _ => assignVariable name v env outer := by
  have bound {u : Session} (late : w.Extends u) : K.Tracks u Any fun _ =>
      if outer then updateHeap fun h => (·.2) <$> h.assignOuter env name v
      else define env name v := by
    have wider := scope_within (K := K) late
    exact branch (fun _ => rebinding (wider (.frame env) alive) name (ok.mono wider)) fun _ =>
      defining (wider (.frame env) alive) name (ok.mono wider)
  refine andThen (readingHeap (Q := fun _ => Scope.Any) fun s sound extend =>
    sound.found_replacedBinding (scope_within extend (.frame env) alive) name outer)
    fun t current first _ => reading fun s _ second => ?_
  have late := first.trans second
  cases current.any fun c => holdsObject s.store c v with
  | true => exact bound late
  | false => exact andThen (sharing v) fun u _ third _ => bound (late.trans third)

/-! Arguments of a call. -/

theorem visibleDots {env : EnvId} (alive : (K.scope w).frame env) :
    K.Tracks w (fun S d => S.CoversAll d.values) fun _ => visibleDots env c := by
  refine andThen (lookup alive Name.varargs) fun t found _ _ => ?_
  rcases found with _ | ⟨place, v⟩
  · exact failAt rfl
  · cases v with
    | dots id =>
      exact reading fun s sound _ => value fun _ wider => Scope.CoversAll.mono (sound.store.dotsAt id) wider
    | missing => exact value fun _ _ => Scope.coversAll_nil
    | _ => exact failAt rfl

theorem expandArgs {env : EnvId} (alive : (K.scope w).frame env) (position : Nat) {args : List Arg}
    (code : ∀ a ∈ args, (K.scope w).Spans a.value) :
    K.Tracks w (fun S r => ∀ p ∈ r.2, S.AllowsPending p)
      fun _ => expandArgs env c position args := by
  induction args generalizing w position with
  | nil => exact value fun _ _ => nofun
  | cons a rest ih =>
    obtain ⟨first, others⟩ := List.forall_mem_cons.mp code
    have onward {u : Session} (late : w.Extends u) (names : List (Option Name)) (pending : List Pending)
        (ok : ∀ p ∈ pending, (K.scope u).AllowsPending p) :
        K.Tracks u (fun S r => ∀ p ∈ r.2, S.AllowsPending p) fun _ =>
          CallByNeed.expandArgs env c (position + 1) rest >>= fun more =>
            pure (names ++ more.1, pending ++ more.2) := by
      have wider := scope_within (K := K) late
      refine andThen (ih (wider (.frame env) alive) (position + 1) fun a member =>
        (others a member).mono wider) fun t more next all => value fun S further => ?_
      refine List.forall_mem_append.mpr ⟨fun p member => ?_, fun p member => (all p member).mono further⟩
      exact (ok p member).mono ((scope_within next).trans further)
    obtain ⟨name, e⟩ := a
    unfold CallByNeed.expandArgs
    refine branch (fun _ => ?_) fun _ => branch (fun _ => ?_) fun _ => ?_
    · refine andThen (visibleDots alive) fun t d late ok => onward late d.names _ fun p member => ?_
      obtain ⟨v, there, rfl⟩ := List.mem_map.mp member
      exact ok v there
    · refine onward (.refl w) [name] [.value .missing] fun p member => ?_
      cases List.mem_singleton.mp member
      exact Scope.covers_missing
    · refine onward (.refl w) [name] [.expr position e] fun p member => ?_
      cases List.mem_singleton.mp member
      exact first

theorem matchCall (f : Function) (names : List (Option Name)) (labels : List String) (call : Expr) :
    K.Tracks w Any fun _ => matchCall f names labels call := by
  refine reading fun s _ _ => ?_
  cases matchArguments (.ofFormals f.names) (.supplied names) s.options.partialMatching with
  | ok slots => exact value fun _ _ => trivial
  | error e => exact failure (by cases e <;> rfl)

theorem matchSupplied (f : Function) (supplied : Supplied) (call : Expr) :
    K.Tracks w Any fun _ => matchSupplied f supplied call :=
  reading fun _ _ _ => matchCall f _ _ call

theorem eagerOutcome {e : Expr} {env : EnvId} (site : NodeId) (snapshot : List (EnvId × Nat))
    (previous : Bool) {r : Except Unwind Value} (code : (K.scope w).Spans e)
    (alive : (K.scope w).frame env) (yields : (K.scope w).Yields Scope.Covers r)
    (mild : ∀ f, failing r = some f → f.isFatal = false) :
    K.Tracks w Scope.Covers fun _ => Regime.Conducts.eagerOutcome e env c site snapshot previous r := by
  have lazily {x : Session} (late : w.Extends x) :
      K.Tracks x Scope.Covers fun _ => allocate (Store.lazyPromise e env .supplied c) :=
    lazyPromise .supplied c (code.mono (scope_within late)) (scope_within late (.frame env) alive)
  rcases r with (f | ⟨target, v⟩) | v
  · cases f with
    | cannotOptimize =>
      refine andThen (failIf rfl) fun _ _ first _ => andThen (distrusting site) fun _ _ second _ => ?_
      exact andThen (noting fun _ => ⟨rfl, rfl⟩) fun _ _ third _ => lazily (first.trans (second.trans third))
    | condition _ | generic _ => exact andThen (noting fun _ => ⟨rfl, rfl⟩) fun _ _ first _ => lazily first
    | internal _ | interrupted | exhausted => exact failure (mild _ rfl)
  · exact leaving yields
  · refine andThen (noting fun _ => ⟨rfl, rfl⟩) fun x _ late _ => ?_
    have wider := scope_within (K := K) late
    refine promising ⟨code.mono wider, fun _ same => ?_, nofun, fun u same => ?_⟩
    · cases same
      exact wider (.frame env) alive
    · cases same
      exact Scope.Covers.mono yields wider

theorem eagerArgument (evaluates : K.Evaluates ev) {e : Expr} {env : EnvId} (site : NodeId)
    (code : (K.scope w).Spans e) (alive : (K.scope w).frame env) :
    K.Tracks w Scope.Covers fun alarm => eagerArgument (ev alarm) e env c site := by
  refine andThen (readingHeap (Q := fun _ => Scope.Any) fun s sound extend =>
    sound.found_versionSnapshot (scope_within extend (.frame env) alive)) fun t snapshot first _ => ?_
  refine andThen (eagerOnly c) fun u previous second _ => andThen (flagging c true) fun x _ third _ => ?_
  have wider := scope_within (K := K) (first.trans (second.trans third))
  have code := code.mono wider
  have alive := wider (.frame env) alive
  refine observing (k := fun r => CallByNeed.setEagerOnly c previous >>= fun _ =>
    Regime.Conducts.eagerOutcome e env c site snapshot previous r) (evaluates x e env c code alive)
    (fun y r late yields mild => ?_) fun f y fatal sound _ =>
      ⟨_, ?_, sound.flagged c previous, .same rfl rfl, rfl⟩
  · refine andThen (flagging c previous) fun z _ next _ => ?_
    have wider := scope_within (K := K) (late.trans next)
    refine eagerOutcome site snapshot previous (code.mono wider) (wider (.frame env) alive) ?_ mild
    rcases r with (f | ⟨target, v⟩) | v
    · trivial
    · exact Scope.Covers.mono yields (scope_within next)
    · exact Scope.Covers.mono yields (scope_within next)
  · rw [setEagerOnly_bind]
    cases f with
    | condition _ | cannotOptimize | generic _ => simp [Failure.isFatal] at fatal
    | internal _ | interrupted | exhausted => rfl

theorem simpleArgs (site : NodeId) (args : List Arg) : K.Tracks w Any fun _ => simpleArgs site args := by
  intro s sound _
  refine Lands.reading ?_
  cases (s.site site).simpleArgs with
  | some simple => exact (value fun _ _ => trivial : K.Tracks s Any fun _ => pure simple).lands sound
  | none =>
    refine Lands.andThen (Lands.putting ?_ (.same rfl rfl) fun up => up) fun t _ _ passes _ => ?_
    · exact sound.setSite site (sound.cache site)
    · exact (value fun _ _ => trivial : K.Tracks t Any _).lands passes.sound

theorem forcedFormals (f : Function) : K.Tracks w Any fun _ => forcedFormals f := by
  intro s sound _
  refine Lands.reading ?_
  cases s.forced.get? f.node with
  | some forced => exact (value fun _ _ => trivial : K.Tracks s Any fun _ => pure forced).lands sound
  | none =>
    refine Lands.andThen (Lands.putting ?_ (.same rfl rfl) fun up => up) fun t _ _ passes _ => ?_
    · exact sound.same rfl
    · exact (value fun _ _ => trivial : K.Tracks t Any _).lands passes.sound

theorem argumentValue (evaluates : K.Evaluates ev) {env : EnvId} (alive : (K.scope w).frame env)
    (site : NodeId) (early : Nat → Nat → Bool) (index : Nat) {p : Pending}
    (ok : (K.scope w).AllowsPending p) :
    K.Tracks w Scope.Covers fun alarm => argumentValue (ev alarm) env c site early index p := by
  cases p with
  | value v => exact value fun _ wider => Scope.Covers.mono ok wider
  | expr position e =>
    unfold CallByNeed.argumentValue
    dsimp only
    cases constant : e.constant? with
    | some v => exact evaluatedPromise .supplied ok constant
    | none =>
      refine reading fun s _ late => ?_
      have wider := scope_within (K := K) late
      have code : (K.scope s).Spans e := Scope.Spans.mono ok wider
      have alive := wider (.frame env) alive
      exact branch (fun _ => eagerArgument evaluates site code alive) fun _ =>
        lazyPromise .supplied c code alive

theorem argumentValues (evaluates : K.Evaluates ev) {env : EnvId} (alive : (K.scope w).frame env)
    (site : NodeId) (early : Nat → Nat → Bool) (index : Nat) {pending : List Pending}
    (ok : ∀ p ∈ pending, (K.scope w).AllowsPending p) :
    K.Tracks w Scope.CoversAll
      fun alarm => argumentValues (ev alarm) env c site early index pending := by
  induction pending generalizing w index with
  | nil => exact value fun _ _ => Scope.coversAll_nil
  | cons p rest ih =>
    obtain ⟨first, others⟩ := List.forall_mem_cons.mp ok
    refine andThen (argumentValue evaluates alive site early index first) fun t v late made => ?_
    have wider := scope_within (K := K) late
    refine andThen (ih (wider (.frame env) alive) (index + 1) fun p member =>
      (others p member).mono wider) fun u vs next all => ?_
    exact value fun S further => Scope.coversAll_cons.mpr
      ⟨made.mono ((scope_within next).trans further), all.mono further⟩

theorem suppliedValues (evaluates : K.Evaluates ev) {env : EnvId} (alive : (K.scope w).frame env)
    (site : NodeId) (f : Function) (args : List Arg) (slots : List FormalSlot) {pending : List Pending}
    (ok : ∀ p ∈ pending, (K.scope w).AllowsPending p) :
    K.Tracks w Scope.CoversAll
      fun alarm => suppliedValues (ev alarm) env c site f args slots pending := by
  have values {u : Session} (late : w.Extends u) (early : Nat → Nat → Bool) :
      K.Tracks u Scope.CoversAll
        fun alarm => CallByNeed.argumentValues (ev alarm) env c site early 0 pending :=
    argumentValues evaluates (scope_within late (.frame env) alive) site early 0 fun p member =>
      (ok p member).mono (scope_within late)
  refine reading fun s _ first => branch (fun _ => ?_) fun _ => values first never
  exact andThen (simpleArgs site args) fun _ simple second _ =>
    andThen (forcedFormals f) fun _ forced third _ => values (first.trans (second.trans third)) _

theorem closureArgs (evaluates : K.Evaluates ev) {env : EnvId} (alive : (K.scope w).frame env)
    (f : Function) (call : Expr) {args : List Arg} (code : ∀ a ∈ args, (K.scope w).Spans a.value) :
    K.Tracks w (fun S r => S.CoversAll r.1.values)
      fun alarm => closureArgs (ev alarm) f call args env c := by
  refine andThen (expandArgs alive 0 code) fun t expanded first ok => ?_
  refine reading fun s _ second => andThen (matchCall f _ _ call) fun u slots third _ => ?_
  have late := second.trans third
  refine andThen (suppliedValues evaluates (scope_within (first.trans late) (.frame env) alive) call.id f
    args slots fun p member => (ok p member).mono (scope_within late)) fun x values _ all => ?_
  exact value fun _ wider => Scope.CoversAll.mono all wider

/-! Frames and bodies. -/

theorem formalValue {supplied : Supplied} {env : EnvId} (record : RecordId) {formal : Formal}
    (slot : FormalSlot) (alive : (K.scope w).frame env)
    (default : ∀ e, formal.default = some e → (K.scope w).Spans e)
    (ok : (K.scope w).CoversAll supplied.values) :
    K.Tracks w Scope.Covers fun _ => formalValue supplied env record formal slot := by
  have given (i : Nat) : (K.scope w).Covers (supplied.values[i]?.getD .missing) := by
    cases found : supplied.values[i]? with
    | none => exact Scope.covers_missing
    | some v => exact ok v (List.mem_of_getElem? found)
  unfold CallByNeed.formalValue
  extract_lets unsupplied
  have unmatched : K.Tracks w Scope.Covers fun _ => unsupplied := by
    unfold unsupplied
    cases there : formal.default with
    | none => exact value fun _ _ => Scope.covers_missing
    | some e =>
      dsimp only
      cases constant : e.constant? with
      | some v => exact evaluatedPromise .default (default e there) constant
      | none => exact lazyPromise .default record (default e there) alive
  cases slot with
  | varargs indices =>
    refine map (Q := Any) (allocating fun S wider s within => ⟨within.addDots fun v member => ?_, trivial⟩)
      fun _ id _ => Scope.covers_dots id
    obtain ⟨i, _, rfl⟩ := List.mem_map.mp member
    exact (given i).mono wider
  | supplied i => exact branch (fun _ => unmatched) fun _ => value fun _ wider => (given i).mono wider
  | unfilled => exact unmatched

/-- Every formal is bound, unless something that need not be there is not. -/
theorem bindFormals {supplied : Supplied} {env : EnvId} (record : RecordId) {formals : List Formal}
    (slots : List FormalSlot) (alive : (K.scope w).frame env)
    (defaults : ∀ f ∈ formals, ∀ e, f.default = some e → (K.scope w).Spans e)
    (ok : (K.scope w).CoversAll supplied.values) :
    K.Tracks w Any fun _ => bindFormals supplied env record formals slots := by
  induction formals generalizing w slots with
  | nil => exact value fun _ _ => trivial
  | cons f rest ih =>
    refine andThen (formalValue record _ alive (defaults f List.mem_cons_self) ok) fun t v first made => ?_
    refine andThen (defining (scope_within first (.frame env) alive) f.name made) fun u _ second _ => ?_
    have wider := scope_within (K := K) (first.trans second)
    exact ih slots.tail (wider (.frame env) alive) (fun g member e default =>
      (defaults g (List.mem_cons_of_mem _ member) e default).mono wider) (Scope.CoversAll.mono ok wider)

theorem bindDispatch {env : EnvId} (context : DispatchContext) (alive : (K.scope w).frame env) :
    K.Tracks w Any fun _ => bindDispatch env context := by
  refine andThen (vector rfl) fun t v first ok => ?_
  have there := scope_within (K := K) first (.frame env) alive
  refine andThen (defining there _ ok) fun u _ second _ => andThen (vector rfl) fun x v third ok => ?_
  exact defining (scope_within (second.trans third) (.frame env) there) _ ok

theorem enterFrame {id : ClosureId} {f : Function} {definedIn : EnvId} {call : Expr} {supplied : Supplied}
    (slots : List FormalSlot) {dispatch : Option DispatchContext}
    (ok : (K.scope w).AllowsCall (.closure id f definedIn) call supplied dispatch) :
    K.Tracks w (fun S r => S.frame r.1) fun _ =>
      enterFrame (.closure id f definedIn) f definedIn call supplied slots c dispatch := by
  obtain ⟨outer, function⟩ := Scope.covers_closure.mp ok.closure
  have defaults := (Scope.spans_function.mp function).1
  refine reading fun s _ first => branch (fun _ => ?_) fun _ => ?_
  · exact andThen (Q := fun _ _ => False) (failure rfl) fun _ _ _ none => none.elim
  refine andThen (framing (scope_within first (.frame definedIn) outer)) fun t env second alive => ?_
  have ok := ok.mono (scope_within (first.trans second))
  refine andThen (recording fun _ _ => ⟨?_, ?_, ?_, ?_, ok.dispatch⟩) fun u record third _ => ?_
  · rintro e ⟨⟩
    exact ok.call
  · rintro e ⟨⟩
    exact alive
  · rintro v ⟨⟩
    exact ok.closure
  · rintro given ⟨⟩
    exact ok.supplied
  have alive := scope_within third (.frame env) alive
  have wider := scope_within (K := K) (first.trans (second.trans third))
  refine andThen (bindFormals record slots alive (fun g member e default =>
    (defaults g member e default).mono wider) (ok.mono (scope_within third)).supplied) fun x _ fourth _ => ?_
  have alive := scope_within fourth (.frame env) alive
  cases dispatch with
  | none => exact value fun _ wider => wider (.frame env) alive
  | some context =>
    exact andThen (bindDispatch context alive) fun y _ fifth _ => value fun _ wider =>
      wider (.frame env) (scope_within fifth (.frame env) alive)

theorem applyClosure (evaluates : K.Evaluates ev) {id : ClosureId} {f : Function} {definedIn : EnvId}
    {call : Expr} {supplied : Supplied} (slots : List FormalSlot) {dispatch : Option DispatchContext}
    (ok : (K.scope w).AllowsCall (.closure id f definedIn) call supplied dispatch) :
    K.Tracks w Scope.Covers fun alarm =>
      applyClosure (ev alarm) (.closure id f definedIn) f definedIn call supplied slots c dispatch := by
  have body := (Scope.spans_function.mp (Scope.covers_closure.mp ok.closure).2).2
  refine andThen (enterFrame slots ok) fun t made late alive => ?_
  obtain ⟨env, record⟩ := made
  refine observing (k := Regime.Conducts.outcomeOf env) (releasing record
    (evaluates t f.body env record (body.mono (scope_within late)) alive)) (fun u r _ yields mild => ?_)
    fun f u _ sound _ => ⟨u, rfl, sound, .refl u, rfl⟩
  rcases r with (f | ⟨target, v⟩) | v
  · exact failure (mild f rfl)
  · exact branch (fun _ => value fun _ wider => Scope.Covers.mono yields wider) fun _ => leaving yields
  · exact value fun _ wider => Scope.Covers.mono yields wider

theorem invokeClosure (evaluates : K.Evaluates ev) {id : ClosureId} {f : Function} {definedIn : EnvId}
    {call : Expr} {supplied : Supplied} {dispatch : Option DispatchContext}
    (ok : (K.scope w).AllowsCall (.closure id f definedIn) call supplied dispatch) :
    K.Tracks w Scope.Covers fun alarm =>
      invokeClosure (ev alarm) (.closure id f definedIn) f definedIn call supplied c dispatch := by
  refine andThen (ensureLazy c) fun s _ first _ =>
    andThen (matchSupplied f supplied call) fun t slots second _ => ?_
  exact applyClosure evaluates slots (ok.mono (scope_within (first.trans second)))

end Tracks
end Inquiry
end CallByNeed
