import CallByNeed.Proofs.Stepping
import CallByNeed.Proofs.TrackingBuiltins

/-!
Tracking one step of the evaluator, given that what is nested in it is tracked: dispatch from inside a
generic, special builtins, and each kind of expression.
-/
namespace CallByNeed

namespace Scope

/-- What a call of a special builtin may refer to. -/
structure AllowsSpecial (S : Scope) (c : SpecialCall) : Prop where
  call : S.Spans c.call
  args : ∀ a ∈ c.args, S.Spans a.value
  env : S.frame c.env

theorem AllowsSpecial.mono {S T : Scope} {c : SpecialCall} (ok : S.AllowsSpecial c) (wider : S.Within T) :
    T.AllowsSpecial c where
  call := ok.call.mono wider
  args a member := (ok.args a member).mono wider
  env := wider (.frame c.env) ok.env

theorem AllowsRecord.frameCall {S : Scope} {frame : Record} {fallback : Expr} (ok : S.AllowsRecord frame)
    (code : S.Spans fallback) : S.CoversAll (frameCall frame fallback).1.values ∧
      S.Spans (frameCall frame fallback).2.2 := by
  unfold CallByNeed.frameCall
  dsimp only
  constructor
  · cases given : frame.supplied? with
    | none => exact nofun
    | some supplied => exact ok.supplied supplied given
  · cases call : frame.call with
    | none => exact code
    | some e => exact ok.call e call

end Scope

namespace Inquiry

variable {K : Inquiry} {g : Guard} {ev : Option (EvalM Unit) → Evaluator} {α β : Type} {w s t : Session}
  {c : RecordId}

/-- The environment that a function was called from. -/
theorem Sound.callEnv (sound : K.Sound s) (id : RecordId) :
    (K.scope s).frame (((s.records.logicalParent id).bind (·.env?)).getD Session.global) := by
  cases there : (s.records.logicalParent id).bind (·.env?) with
  | none => exact sound.global
  | some env =>
    obtain ⟨r, parent, same⟩ := Option.bind_eq_some_iff.mp there
    obtain ⟨_, _, found⟩ := Option.bind_eq_some_iff.mp parent
    exact (sound.records r (Records.mem_of_logicalFunction found)).env env same

theorem Sound.genericFrame {frame : Record} {env definedIn : EnvId} {f : Function} (sound : K.Sound s)
    (found : genericFrame s c = some (frame, env, f, definedIn)) :
    (K.scope s).AllowsRecord frame ∧ (K.scope s).frame env ∧ (K.scope s).frame definedIn := by
  have ok := sound.records frame (Regime.Conducts.genericFrame_mem found)
  unfold CallByNeed.genericFrame at found
  split at found
  · cases found
  · split at found
    · rename_i place function
      cases found
      exact ⟨ok, ok.env env place, (Scope.covers_closure.mp (ok.function _ function)).1⟩
    · cases found

namespace Tracks

/-! Dispatch from inside a generic. -/

theorem callDefaultMethod (guards : K.Guards g) (evaluates : K.Evaluates ev) {method : Value} {call : Expr}
    {supplied : Supplied} {env : EnvId} (alive : (K.scope w).frame env) (ok : (K.scope w).Covers method)
    (code : (K.scope w).Spans call) (held : (K.scope w).CoversAll supplied.values) :
    K.Tracks w Scope.Covers fun alarm => g.callDefaultMethod (ev alarm) method call supplied env c := by
  cases method with
  | builtin name id =>
    refine andThen (findBuiltin name (Scope.covers_builtin.mp ok)) fun t b first known => ?_
    refine andThen (failIf rfl) fun u _ second strict => ?_
    have late := first.trans second
    refine andThen (forceAll evaluates (Scope.CoversAll.mono held (scope_within late)))
      fun x values third all => ?_
    have late := late.trans third
    have wider := scope_within (K := K) late
    exact invokeStrict guards evaluates _ false (late.builtins ▸ known) (.inl (by simpa using strict))
      (wider (.frame env) alive) (code.mono wider) all
  | _ => exact reading fun _ _ _ => failure rfl

theorem callMethod (guards : K.Guards g) (evaluates : K.Evaluates ev) {method : Value} {call : Expr}
    {supplied : Supplied} {context : DispatchContext} (ok : (K.scope w).Covers method)
    (code : (K.scope w).Spans call) (held : (K.scope w).CoversAll supplied.values)
    (allowed : (K.scope w).AllowsContext context) :
    K.Tracks w Scope.Covers fun alarm => g.callMethod (ev alarm) method call supplied c context := by
  cases method with
  | closure id f definedIn =>
    refine invokeClosure evaluates ⟨ok, code, held, fun d same => ?_⟩
    cases same
    exact allowed
  | _ => exact callDefaultMethod (c := c) guards evaluates allowed.callEnv ok code held

theorem dispatchObject (evaluates : K.Evaluates ev) (f : Function) {env : EnvId}
    (alive : (K.scope w).frame env) :
    K.Tracks w Scope.Covers fun alarm => dispatchObject (ev alarm) f env c := by
  unfold CallByNeed.dispatchObject
  cases f.names with
  | nil => exact value fun _ _ => Scope.covers_null
  | cons name rest =>
    refine branch (fun _ => ?_) fun _ => readVariable evaluates name alive
    refine andThen (getLocal alive name) fun t found _ _ => ?_
    rcases found with _ | v
    · exact value fun _ _ => Scope.covers_null
    · cases v with
      | dots id =>
        refine reading fun s sound _ => ?_
        have held := sound.store.dotsAt id
        cases entries : (s.store.dotsAt id).values with
        | nil => exact value fun _ _ => Scope.covers_null
        | cons v rest =>
          rw [entries] at held
          exact forceValue evaluates (held v List.mem_cons_self)
      | _ => exact value fun _ _ => Scope.covers_null

theorem selectMethod (evaluates : K.Evaluates ev) {search : MethodSearch} (chain : VectorId)
    (call : SpecialCall) (alive : ∀ env ∈ search.scope, (K.scope w).frame env) :
    K.Tracks w (fun S m => S.Covers m.method) fun alarm => selectMethod (ev alarm) search chain call := by
  simp only [selectMethod_eq]
  refine andThen (Q := fun S known => Suited S known.2) (altering (fun s sound _ => ?_) fun _ up => up)
    fun t known first ok => ?_
  · obtain ⟨found, kept⟩ := (sound.cache call.call.id).lookup search.generic [s.classView chain]
      ⟨s.heap.functionEpoch + s.methodsVersion, search.scope⟩
    exact ⟨sound.setSite (f := fun st => { st with cache := _ }) call.call.id kept, .same rfl rfl, found⟩
  · obtain ⟨stamp, cached⟩ := known
    cases cached with
    | some m => exact value fun _ wider => (ok m rfl).mono wider
    | none =>
      refine andThen (noting fun _ => ⟨rfl, rfl⟩) fun u _ second _ => ?_
      have late := first.trans second
      refine andThen (findMethod evaluates 0 fun e member =>
        scope_within late (.frame e) (alive e member)) fun x m third found => ?_
      cases m with
      | none => exact failure rfl
      | some m =>
        refine andThen (updating (fun y sound fourth => ⟨?_, .same rfl rfl⟩) fun _ up => up) fun z _ fifth _ =>
          value fun _ wider => (found m rfl).mono ((scope_within fifth).trans wider)
        have ok : (K.scope y).Covers m.method := (found m rfl).mono (scope_within fourth)
        exact sound.setSite call.call.id ((sound.cache call.call.id).insert _ _ _ ok)

theorem dispatchOn (guards : K.Guards g) (evaluates : K.Evaluates ev) (generic : Name) {frame : Record}
    {env definedIn : EnvId} {call : SpecialCall} {object : Value} (record : (K.scope w).AllowsRecord frame)
    (outer : (K.scope w).frame definedIn) (code : (K.scope w).Spans call.call)
    (ok : (K.scope w).Covers object) :
    K.Tracks w Scope.Covers fun alarm => g.dispatchOn (ev alarm) generic frame env definedIn call object := by
  refine reading fun s sound first => ?_
  have wider := scope_within (K := K) first
  obtain ⟨held, body⟩ := (record.mono wider).frameCall (code.mono wider)
  have inner := sound.callEnv frame.id
  have outer := wider (.frame definedIn) outer
  refine andThen (selectMethod evaluates _ call ?_) fun t m second found => ?_
  · exact List.forall_mem_cons.mpr ⟨inner, List.forall_mem_singleton.mpr outer⟩
  have further := scope_within (K := K) second
  refine andThen (callMethod guards evaluates found (body.mono further) (Scope.CoversAll.mono held further)
    ⟨ok.mono (wider.trans further), further (.frame _) inner, fun e same => ?_⟩)
    fun u v _ covered => leaving covered
  cases same
  exact further (.frame _) outer

theorem useMethod (guards : K.Guards g) (evaluates : K.Evaluates ev) (generic : Name)
    {object : Option Value} {call : SpecialCall} (code : (K.scope w).Spans call.call)
    (ok : (K.scope w).CoversAny object) :
    K.Tracks w Scope.Covers fun alarm => g.useMethod (ev alarm) generic object call := by
  refine reading fun s sound first => ?_
  cases found : CallByNeed.genericFrame s call.caller with
  | none => exact failure rfl
  | some parts =>
    obtain ⟨frame, env, f, definedIn⟩ := parts
    obtain ⟨record, alive, outer⟩ := sound.genericFrame found
    have rest (t : Session) (object : Value) (second : s.Extends t) (ok : (K.scope t).Covers object) :
        K.Tracks t Scope.Covers fun alarm =>
          g.dispatchOn (ev alarm) generic frame env definedIn call object := by
      have wider := scope_within (K := K) second
      exact dispatchOn guards evaluates generic (record.mono wider) (wider (.frame _) outer)
        (code.mono (scope_within (first.trans second))) ok
    cases object with
    | some v => exact andThen (value fun _ wider => (ok v rfl).mono ((scope_within first).trans wider)) rest
    | none => exact andThen (dispatchObject evaluates f alive) rest

theorem extraPromise {call : SpecialCall} {e : Expr} (code : (K.scope w).Spans e)
    (alive : (K.scope w).frame call.env) :
    K.Tracks w Scope.Covers fun _ => extraPromise call e := by
  unfold CallByNeed.extraPromise
  cases constant : e.constant? with
  | some v => exact evaluatedPromise .supplied code constant
  | none => exact lazyPromise .supplied call.caller code alive

theorem coversAll_add {S : Scope} {supplied : Supplied} {v : Value} (name : Option Name)
    (held : S.CoversAll supplied.values) (ok : S.Covers v) : S.CoversAll (supplied.add name v).values := by
  intro w member
  rcases Supplied.mem_values_add member with rfl | old
  · exact ok
  · exact held w old

theorem addExtraArgs {call : SpecialCall} (skipped : Nat) {supplied : Supplied} {args : List Arg}
    (alive : (K.scope w).frame call.env) (code : ∀ a ∈ args, (K.scope w).Spans a.value)
    (held : (K.scope w).CoversAll supplied.values) :
    K.Tracks w (fun S s => S.CoversAll s.values) fun _ => addExtraArgs call skipped supplied args := by
  induction args generalizing w skipped supplied with
  | nil => exact value fun _ wider => Scope.CoversAll.mono held wider
  | cons a rest ih =>
    obtain ⟨first, others⟩ := List.forall_mem_cons.mp code
    obtain ⟨name, e⟩ := a
    refine branch (fun _ => ih skipped alive others held) fun _ =>
      branch (fun _ => ih _ alive others held) fun _ =>
        branch (fun _ => ih skipped alive others held) fun _ => ?_
    refine andThen (extraPromise first alive) fun t v late covered => ?_
    have wider := scope_within (K := K) late
    exact ih skipped (wider (.frame _) alive) (fun a member => (others a member).mono wider)
      (coversAll_add name (Scope.CoversAll.mono held wider) covered)

variable {call : SpecialCall}

theorem nextMethod (guards : K.Guards g) (evaluates : K.Evaluates ev)
    (allowed : (K.scope w).AllowsSpecial call) :
    K.Tracks w Scope.Covers fun alarm => g.nextMethod (ev alarm) call := by
  refine reading fun s sound first => ?_
  cases found : s.records.logicalFunction call.caller with
  | none => exact failure rfl
  | some frame =>
    have record := sound.records frame (Records.mem_of_logicalFunction found)
    cases dispatched : frame.dispatch? with
    | none =>
      dsimp only [Option.bind]
      rw [dispatched]
      exact failure rfl
    | some context =>
      dsimp only [Option.bind]
      rw [dispatched]
      have allowed := allowed.mono (scope_within first)
      obtain ⟨held, body⟩ := record.frameCall allowed.call
      have ok := record.dispatch context dispatched
      have scope : ∀ env ∈ context.callEnv :: context.defEnv.toList, (K.scope s).frame env := by
        refine List.forall_mem_cons.mpr ⟨ok.callEnv, fun env member => ok.defEnv env ?_⟩
        exact Option.mem_toList.mp member
      refine andThen (findMethod evaluates _ scope) fun t m second chosen => ?_
      cases m with
      | none => exact failure rfl
      | some m =>
        have wider := scope_within (K := K) second
        refine andThen (addExtraArgs 0 (wider (.frame _) allowed.env)
          (fun a member => (allowed.args a member).mono wider) (Scope.CoversAll.mono held wider))
          fun u supplied third all => ?_
        have ok := ok.mono (scope_within (second.trans third))
        exact callMethod guards evaluates ((chosen m rfl).mono (scope_within third))
          (body.mono (scope_within (second.trans third))) all ⟨ok.object, ok.callEnv, ok.defEnv⟩

theorem signatureValue (evaluates : K.Evaluates ev) {env : EnvId} (alive : (K.scope w).frame env)
    (formal : Name) :
    K.Tracks w Scope.Covers fun alarm => signatureValue (ev alarm) env c formal := by
  refine andThen (getLocal alive formal) fun t found _ ok => ?_
  rcases found with _ | v
  · exact value fun _ _ => Scope.covers_missing
  · cases v with
    | missing => exact value fun _ _ => Scope.covers_missing
    | promise id =>
      exact reading fun s _ _ => branch (fun _ => value fun _ _ => Scope.covers_missing) fun _ =>
        force evaluates id
    | _ => exact value fun _ wider => (ok _ rfl).mono wider

theorem signatureChains (evaluates : K.Evaluates ev) {env : EnvId} (alive : (K.scope w).frame env)
    (formals : List Name) : K.Tracks w Any fun alarm => signatureChains (ev alarm) env c formals := by
  induction formals generalizing w with
  | nil => exact value fun _ _ => trivial
  | cons formal rest ih =>
    refine andThen (signatureValue evaluates alive formal) fun t v first _ => reading fun s _ second => ?_
    exact andThen (ih (scope_within (first.trans second) (.frame env) alive)) fun _ _ _ _ =>
      value fun _ _ => trivial

theorem selectFormal (generic : Generic) (chains : List VectorId) (site : NodeId) :
    K.Tracks w (fun S r => r.All S.Covers) fun _ => selectFormal generic chains site := by
  refine altering (fun s sound _ => ?_) fun _ up => up
  obtain ⟨result, table, cache⟩ := MethodTable.all_formalDispatch generic.name
    (chains.map s.classView) s.resolver s.classes (coversAll_tableAt sound generic.table) (sound.cache site)
  refine ⟨?_, .same rfl rfl, result⟩
  have stored := (sound_setTable generic.table sound table).setSite
    (f := fun st => { st with cache := _ }) site cache
  exact stored.same rfl

theorem standardGeneric (guards : K.Guards g) (evaluates : K.Evaluates ev) (name : Name)
    (code : (K.scope w).Spans call.call) :
    K.Tracks w Scope.Covers fun alarm => g.standardGeneric (ev alarm) name call := by
  refine reading fun s sound first => ?_
  cases s.generics.get? name with
  | none => exact failure rfl
  | some generic =>
    cases found : s.records.logicalFunction call.caller with
    | none => exact failure rfl
    | some frame =>
      have record := sound.records frame (Records.mem_of_logicalFunction found)
      cases environment : frame.env? with
      | none =>
        dsimp only [Option.bind]
        rw [environment]
        exact failure rfl
      | some env =>
        dsimp only [Option.bind]
        rw [environment]
        have alive := record.env env environment
        obtain ⟨held, body⟩ := record.frameCall (code.mono (scope_within first))
        refine andThen (signatureChains evaluates alive generic.signature) fun t chains second _ => ?_
        refine andThen (selectFormal generic chains call.call.id) fun u result third chosen => ?_
        have wider := scope_within (K := K) (second.trans third)
        have body := body.mono wider
        have held := Scope.CoversAll.mono held wider
        have default {method : Value} (ok : (K.scope u).Covers method) :
            K.Tracks u Scope.Covers fun alarm => g.callDefaultMethod (ev alarm) method
              (frameCall frame call.call).2.2 (frameCall frame call.call).1 env
              (frameCall frame call.call).2.1 :=
          callDefaultMethod guards evaluates (wider (.frame env) alive) ok body held
        cases result with
        | found method =>
          cases method with
          | closure id f definedIn => exact invokeClosure evaluates ⟨chosen, body, held, nofun⟩
          | _ => exact default chosen
        | deferred method => exact default chosen
        | notFound => exact reading fun _ _ _ => failure rfl

/-! Special builtins. -/

theorem evalArg? (evaluates : K.Evaluates ev) (allowed : (K.scope w).AllowsSpecial call) (name : Name)
    (position : Nat) : K.Tracks w Scope.CoversAny fun alarm => evalArg? (ev alarm) call name position := by
  unfold CallByNeed.evalArg?
  cases found : call.arg? name position with
  | none => exact value fun _ _ => nofun
  | some e =>
    obtain ⟨a, member, rfl⟩ := Regime.Conducts.arg?_mem found
    refine map (evaluates w a.value call.env call.caller (allowed.args a member) allowed.env)
      fun S v covered w same => ?_
    cases same
    exact covered

theorem caughtValue (f : Failure) : K.Tracks w Scope.Covers fun _ => allocate (caughtValue f) := by
  refine allocating fun S _ => Scope.makes_bind (Scope.makes_vector Scope.coversAll_nil) fun v covered => ?_
  refine Scope.makes_map (Scope.makes_addVector fun u member => ?_) fun id _ => Scope.covers_vector id
  have marked : u ∈ (([("class", v)] : List (Name × Value)).foldl (fun t e => t.insert e.1 e.2)
    ({} : Attributes)).values := member
  rcases Table.mem_values_foldl_insert marked with there | none
  · cases List.mem_singleton.mp there
    exact covered
  · cases none

/-- A `try` catches no fatal failure. -/
theorem attempt (evaluates : K.Evaluates ev) (allowed : (K.scope w).AllowsSpecial call) :
    K.Tracks w Scope.Covers fun alarm => attempt (ev alarm) call := by
  unfold CallByNeed.attempt
  cases found : call.arg? "expr" 0 with
  | none => exact value fun _ _ => Scope.covers_null
  | some e =>
    obtain ⟨a, member, rfl⟩ := Regime.Conducts.arg?_mem found
    refine andThen (evalArg? evaluates allowed "silent" 1) fun t flag first _ => reading fun s _ second => ?_
    have allowed := allowed.mono (scope_within (first.trans second))
    refine observing (evaluates s a.value call.env call.caller (allowed.args a member) allowed.env)
      (fun u r _ yields mild => ?_) fun f u fatal sound _ => ⟨u, ?_, sound, .refl u, rfl⟩
    · rcases r with (f | ⟨env, v⟩) | v
      · refine branch (fun _ => ?_) fun _ => failure (mild f rfl)
        exact branch (fun _ => caughtValue f) fun _ =>
          andThen (noting fun _ => ⟨rfl, rfl⟩) fun _ _ _ _ => caughtValue f
      · exact leaving yields
      · exact value fun _ wider => Scope.Covers.mono yields wider
    · cases f with
      | condition _ | cannotOptimize | generic _ => simp [Failure.isFatal] at fatal
      | internal _ | interrupted | exhausted => rfl

theorem leave (evaluates : K.Evaluates ev) (allowed : (K.scope w).AllowsSpecial call) :
    K.Tracks w Scope.Covers fun alarm => leave (ev alarm) call := by
  refine andThen (evalArg? evaluates allowed "value" 0) fun t v _ covered => leaving ?_
  exact covered.getD Scope.covers_null

theorem isMissing (alive : (K.scope w).frame call.env) :
    K.Tracks w Scope.Covers fun _ => isMissing call := by
  refine reading fun s _ first => ?_
  cases probedName s.store call with
  | none => exact failure rfl
  | some name =>
    exact andThen (isMissingArgument name (scope_within first (.frame _) alive)) fun _ _ _ _ => vector rfl

theorem currentCall (call : SpecialCall) : K.Tracks w Scope.Covers fun _ => currentCall call := by
  refine andThen (ensureLazy _) fun _ _ _ _ => reading fun s sound _ => value fun S wider => ?_
  refine Scope.CoversAny.getD (fun v same => ?_) Scope.covers_null
  obtain ⟨e, found, rfl⟩ := Option.map_eq_some_iff.mp same
  obtain ⟨frame, there, code⟩ := Option.bind_eq_some_iff.mp found
  have record := sound.records frame (Records.mem_of_logicalFunction there)
  exact Scope.covers_language.mpr ((record.call e code).mono wider)

theorem currentFunction (call : SpecialCall) : K.Tracks w Scope.Covers fun _ => currentFunction call := by
  refine andThen (ensureLazy _) fun _ _ _ _ => reading fun s sound _ => value fun S wider => ?_
  refine Scope.CoversAny.getD (fun v same => ?_) Scope.covers_null
  obtain ⟨frame, there, function⟩ := Option.bind_eq_some_iff.mp same
  have record := sound.records frame (Records.mem_of_logicalFunction there)
  exact (record.function v function).mono wider

theorem parentFrame (call : SpecialCall) : K.Tracks w Scope.Covers fun _ => parentFrame call :=
  andThen (ensureLazy _) fun _ _ _ _ => reading fun _ _ _ => value fun _ _ => Scope.covers_environment _

theorem environment (evaluates : K.Evaluates ev) (allowed : (K.scope w).AllowsSpecial call) :
    K.Tracks w Scope.Covers fun alarm => environment (ev alarm) call := by
  refine andThen (evalArg? evaluates allowed "fun" 0) fun t found _ _ => ?_
  rcases found with _ | v
  · exact value fun _ _ => Scope.covers_environment _
  · cases v with
    | null => exact value fun _ _ => Scope.covers_environment _
    | closure id f env => exact value fun _ _ => Scope.covers_environment _
    | _ => exact value fun _ _ => Scope.covers_null

theorem useMethodBuiltin (guards : K.Guards g) (evaluates : K.Evaluates ev)
    (allowed : (K.scope w).AllowsSpecial call) :
    K.Tracks w Scope.Covers fun alarm => g.useMethodBuiltin (ev alarm) call := by
  refine andThen (evalArg? evaluates allowed "generic" 0) fun t found first _ => ?_
  cases found with
  | none => exact failure rfl
  | some v =>
    refine reading fun s _ second => ?_
    cases s.store.string? v with
    | none => exact failure rfl
    | some generic =>
      have allowed := allowed.mono (scope_within (first.trans second))
      exact andThen (evalArg? evaluates allowed "object" 1) fun u object third ok =>
        useMethod guards evaluates generic (allowed.call.mono (scope_within third)) ok

theorem standardGenericBuiltin (guards : K.Guards g) (evaluates : K.Evaluates ev)
    (allowed : (K.scope w).AllowsSpecial call) :
    K.Tracks w Scope.Covers fun alarm => g.standardGenericBuiltin (ev alarm) call := by
  refine andThen (evalArg? evaluates allowed "f" 0) fun t found first _ => ?_
  cases found with
  | none => exact failure rfl
  | some v =>
    refine reading fun s _ second => ?_
    cases s.store.string? v with
    | none => exact failure rfl
    | some name =>
      exact standardGeneric guards evaluates name (allowed.call.mono (scope_within (first.trans second)))

theorem runSpecial (guards : K.Guards g) (evaluates : K.Evaluates ev) (op : SpecialOp)
    (allowed : (K.scope w).AllowsSpecial call) :
    K.Tracks w Scope.Covers fun alarm => g.runSpecial (ev alarm) op call := by
  cases op with
  | attempt => exact attempt evaluates allowed
  | leave => exact leave evaluates allowed
  | isMissing => exact isMissing allowed.env
  | currentCall => exact currentCall call
  | currentFunction => exact currentFunction call
  | parentFrame => exact parentFrame call
  | environment => exact environment evaluates allowed
  | useMethod => exact useMethodBuiltin guards evaluates allowed
  | nextMethod => exact nextMethod guards evaluates allowed
  | standardGeneric => exact standardGenericBuiltin guards evaluates allowed
  | quote =>
    refine value fun S wider => Scope.CoversAny.getD (fun v same => ?_) Scope.covers_null
    obtain ⟨e, found, rfl⟩ := Option.map_eq_some_iff.mp same
    obtain ⟨a, member, rfl⟩ := Regime.Conducts.arg?_mem found
    exact Scope.covers_language.mpr ((allowed.args a member).mono wider)

/-! Expressions. -/

theorem evaluateArgs (evaluates : K.Evaluates ev) {env : EnvId} {args : List Arg}
    (alive : (K.scope w).frame env) (code : ∀ a ∈ args, (K.scope w).Spans a.value) :
    K.Tracks w (fun S r => S.CoversAll r.2) fun alarm => evaluateArgs (ev alarm) env c args := by
  induction args generalizing w with
  | nil => exact value fun _ _ => Scope.coversAll_nil
  | cons a rest ih =>
    obtain ⟨first, others⟩ := List.forall_mem_cons.mp code
    obtain ⟨name, e⟩ := a
    have onward {u : Session} (names : List (Option Name)) (values : List Value) (late : w.Extends u)
        (ok : (K.scope u).CoversAll values) :
        K.Tracks u (fun S r => S.CoversAll r.2) fun alarm =>
          CallByNeed.evaluateArgs (ev alarm) env c rest >>= fun more =>
            pure (names ++ more.1, values ++ more.2) := by
      have wider := scope_within (K := K) late
      refine andThen (ih (wider (.frame env) alive) fun a member => (others a member).mono wider)
        fun t more next all => value fun S further => ?_
      exact Scope.coversAll_append.mpr
        ⟨Scope.CoversAll.mono ok ((scope_within next).trans further), Scope.CoversAll.mono all further⟩
    unfold CallByNeed.evaluateArgs
    refine branch (fun _ => ?_) fun _ => branch (fun _ => ?_) fun _ => ?_
    · refine andThen (visibleDots alive) fun t d late ok => ?_
      refine andThen (forceAll evaluates fun v member => ok v ?_) fun u values next forced => ?_
      · obtain ⟨⟨_, entry⟩, there, rfl⟩ := List.mem_map.mp member
        exact (List.of_mem_zip there).2
      · exact onward _ values (late.trans next) forced
    · refine onward [name] [.missing] (.refl w) fun v member => ?_
      cases List.mem_singleton.mp member
      exact Scope.covers_missing
    · refine andThen (evaluates w e env c first alive) fun t v late covered => onward [name] [v] late ?_
      exact Scope.coversAll_cons.mpr ⟨covered, Scope.coversAll_nil⟩

variable {code : Expr} {args : List Arg}

theorem runCalled (guards : K.Guards g) (evaluates : K.Evaluates ev) {b : Builtin} {env : EnvId}
    (known : b ∈ w.builtins.functions) (alive : (K.scope w).frame env) (spans : (K.scope w).Spans code)
    (all : ∀ a ∈ args, (K.scope w).Spans a.value) :
    K.Tracks w Scope.Covers fun alarm => g.runCalled (ev alarm) b code args env c := by
  unfold Guard.runCalled
  cases operation : b.operation with
  | special op => exact attributing code (runSpecial guards evaluates op ⟨spans, all, alive⟩)
  | strict op =>
    refine andThen (evaluateArgs evaluates alive all) fun t evaluated late held => ?_
    have wider := scope_within (K := K) late
    have strict : b.isStrict = true := by
      unfold Builtin.isStrict
      rw [operation]
    exact invokeStrict guards evaluates evaluated.1 true (late.builtins ▸ known) (.inl strict)
      (wider (.frame env) alive) (spans.mono wider) held

theorem callBuiltin (guards : K.Guards g) (evaluates : K.Evaluates ev) {b : Builtin} {env : EnvId}
    (known : b ∈ w.builtins.functions) (alive : (K.scope w).frame env) (spans : (K.scope w).Spans code)
    (all : ∀ a ∈ args, (K.scope w).Spans a.value) :
    K.Tracks w Scope.Covers fun alarm => g.callBuiltin (ev alarm) b code args env c := by
  refine branch (fun _ => andThen (ensureLazy c) fun s _ late _ => ?_) fun _ =>
    runCalled guards evaluates known alive spans all
  have wider := scope_within (K := K) late
  exact runCalled guards evaluates (late.builtins ▸ known) (wider (.frame env) alive) (spans.mono wider)
    fun a member => (all a member).mono wider

theorem calledFunction (evaluates : K.Evaluates ev) {f : Expr} {env : EnvId}
    (alive : (K.scope w).frame env) (spans : (K.scope w).Spans f) :
    K.Tracks w Callable fun alarm => calledFunction (ev alarm) f env c := by
  unfold CallByNeed.calledFunction
  cases f.symbol? with
  | some name => exact lookupFunction evaluates name alive
  | none =>
    refine andThen (evaluates w f env c spans alive) fun t v _ covered => ?_
    exact branch (fun function => value fun _ wider => ⟨function, covered.mono wider⟩) fun _ => failAt rfl

theorem evalCall (guards : K.Guards g) (evaluates : K.Evaluates ev) {f : Expr} {env : EnvId}
    (alive : (K.scope w).frame env) (spans : (K.scope w).Spans code) (callee : (K.scope w).Spans f)
    (all : ∀ a ∈ args, (K.scope w).Spans a.value) :
    K.Tracks w Scope.Covers fun alarm => g.evalCall (ev alarm) code f args env c := by
  refine andThen polling fun s _ first _ => ?_
  have wider := scope_within (K := K) first
  refine andThen (calledFunction evaluates (wider (.frame env) alive) (callee.mono wider))
    fun t function second callable => ?_
  have late := first.trans second
  cases function with
  | closure id function definedIn =>
    refine andThen (ensureLazy c) fun u _ third _ => ?_
    have wider := scope_within (K := K) (late.trans third)
    refine andThen (closureArgs evaluates (wider (.frame env) alive) function code
      fun a member => (all a member).mono wider) fun x supplied fourth held => ?_
    exact applyClosure evaluates supplied.2 ⟨callable.2.mono (scope_within (third.trans fourth)),
      spans.mono (wider.trans (scope_within fourth)), held, nofun⟩
  | builtin name id =>
    refine andThen (findBuiltin name (Scope.covers_builtin.mp callable.2)) fun u b third known => ?_
    have wider := scope_within (K := K) (late.trans third)
    exact callBuiltin guards evaluates (third.builtins ▸ known) (wider (.frame env) alive) (spans.mono wider)
      fun a member => (all a member).mono wider
  | _ => cases callable.1

theorem evalBlock (evaluates : K.Evaluates ev) {env : EnvId} {last : Value} {body : List Expr}
    (alive : (K.scope w).frame env) (ok : (K.scope w).Covers last) (all : ∀ e ∈ body, (K.scope w).Spans e) :
    K.Tracks w Scope.Covers fun alarm => evalBlock (ev alarm) env c last body := by
  induction body generalizing w last with
  | nil => exact value fun _ wider => ok.mono wider
  | cons e rest ih =>
    obtain ⟨first, others⟩ := List.forall_mem_cons.mp all
    refine andThen (evaluates w e env c first alive) fun t v late covered => ?_
    have wider := scope_within (K := K) late
    exact ih (wider (.frame env) alive) covered fun e member => (others e member).mono wider

theorem truth_mild {v : Value} {f : Failure} (failed : truth s.store v = .error f) : f.isFatal = false := by
  unfold truth at failed
  split at failed
  · cases failed
  · cases failed
  · split at failed
    · cases failed
      rfl
    · cases failed
  all_goals
    cases failed
    rfl

theorem evalBranch (evaluates : K.Evaluates ev) {env : EnvId} {test yes : Expr} {no : Option Expr}
    (alive : (K.scope w).frame env) (tested : (K.scope w).Spans test) (taken : (K.scope w).Spans yes)
    (other : ∀ e, no = some e → (K.scope w).Spans e) :
    K.Tracks w Scope.Covers fun alarm => evalBranch (ev alarm) test yes no env c := by
  refine andThen (evaluates w test env c tested alive) fun t v first _ => reading fun s _ second => ?_
  have wider := scope_within (K := K) (first.trans second)
  have further {e : Expr} (ok : (K.scope w).Spans e) :
      K.Tracks s Scope.Covers fun alarm => ev alarm e env c :=
    evaluates s e env c (ok.mono wider) (wider (.frame env) alive)
  cases outcome : truth s.store v with
  | error f => exact failAt (truth_mild outcome)
  | ok holds =>
    cases holds with
    | true => exact further taken
    | false =>
      cases no with
      | none => exact value fun _ _ => Scope.covers_null
      | some e => exact further (other e rfl)

/-- One step of the evaluator. -/
theorem evalStep (guards : K.Guards g) (evaluates : K.Evaluates ev) {e : Expr} {env : EnvId}
    (spans : (K.scope w).Spans e) (alive : (K.scope w).frame env) :
    K.Tracks w Scope.Covers fun alarm => g.evalStep (ev alarm) e env c := by
  cases e with
  | constant id v => exact value fun _ wider => (Scope.spans_constant.mp spans).mono wider
  | symbol id name => exact readVariable evaluates name alive
  | empty id => exact value fun _ _ => Scope.covers_missing
  | call id f args =>
    obtain ⟨callee, all⟩ := Scope.spans_call.mp spans
    exact evalCall guards evaluates alive spans callee all
  | function f =>
    refine allocating (Q := Scope.Covers) (m := Store.closure f env) fun S wider s within =>
      ⟨⟨within.vectors, within.promises, within.dots⟩, ?_⟩
    exact Scope.covers_closure.mpr ⟨wider (.frame env) alive, spans.mono wider⟩
  | block id body => exact evalBlock evaluates alive Scope.covers_null (Scope.spans_block.mp spans)
  | branch id test yes no =>
    obtain ⟨tested, taken, other⟩ := Scope.spans_branch.mp spans
    exact evalBranch evaluates alive tested taken other
  | assign id target value outer =>
    obtain ⟨written, read⟩ := Scope.spans_assign.mp spans
    refine andThen (evaluates w value env c read alive) fun t v first covered => ?_
    have wider := scope_within (K := K) first
    exact andThen (assign guards evaluates outer (wider (.frame env) alive) (written.mono wider) covered)
      fun u _ second _ => Tracks.value fun _ further => covered.mono ((scope_within second).trans further)

end Tracks

/-- Every evaluation under guard is tracked. -/
theorem evaluates_guarded (guards : K.Guards g) (depth : Nat) : K.Evaluates fun _ => g.eval depth := by
  induction depth with
  | zero => exact fun _ _ _ _ _ _ => Tracks.permitted allows_exhausted
  | succ depth ih => exact fun _ _ _ _ spans alive => Tracks.evalStep guards ih spans alive

end Inquiry
end CallByNeed
