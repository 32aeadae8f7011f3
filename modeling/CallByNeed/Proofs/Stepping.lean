import CallByNeed.Proofs.Invoking

/-!
The conduct of one step of the evaluator, given the conduct of what is nested in it: dispatch from
inside a generic, special builtins, and each kind of expression.
-/
namespace CallByNeed

namespace DispatchCache.All

variable {P : Value → Prop} {cache : DispatchCache} (generic : Name) (classes : List ClassView)
  (stamp : Stamp)

/-! What a cache gives is as what it remembers. -/

theorem remember (all : cache.All P) {m : CachedMethod} (ok : P m.method) :
    (cache.remember generic classes stamp m).All P := by
  refine ⟨fun e same => ?_, all.named⟩
  cases same
  exact ok

theorem insert (all : cache.All P) {m : CachedMethod} (ok : P m.method) :
    (cache.insert generic classes stamp m).All P := by
  refine ⟨(all.remember generic classes stamp ok).last, fun e member => ?_⟩
  rcases Table.mem_values_insert member with rfl | old
  · exact ok
  · exact all.named e old

theorem lookup (all : cache.All P) :
    (∀ m, (cache.lookup generic classes stamp).1 = some m → P m.method) ∧
      (cache.lookup generic classes stamp).2.All P := by
  unfold DispatchCache.lookup
  split
  · rename_i entry hit
    refine ⟨fun m same => ?_, all.last, all.named⟩
    cases same
    exact all.last entry (Option.filter_eq_some_iff.mp hit).1
  · split
    · rename_i method hit
      unfold DispatchCache.named? at hit
      obtain ⟨⟨_, m⟩, kept, rfl⟩ := Option.map_eq_some_iff.mp hit
      have ok := all.named _ (Table.mem_values_of_get? (Option.filter_eq_some_iff.mp kept).1)
      refine ⟨fun m same => ?_, remember generic classes stamp ?_ ok⟩
      · cases same
        exact ok
      · exact ⟨all.last, all.named⟩
    · exact ⟨nofun, all.last, all.named⟩

end DispatchCache.All

/-- The method that a dispatch on formal classes chose is as stated. -/
def DispatchResult.All (P : Value → Prop) : DispatchResult → Prop
  | .found method | .deferred method => P method
  | .notFound => True

namespace MethodTable

variable {P : Value → Prop} {table table' : MethodTable} {cache : DispatchCache}

theorem all_of {method : Value} (ok : P method) (deferred : Bool) :
    (DispatchResult.of method deferred).All P := by
  cases deferred with
  | true => exact ok
  | false => exact ok

theorem all_resolve {resolver : Resolver} {r : ClassRegistry} {chains : List (List Name)} {key : String}
    (all : ∀ v ∈ table.methods.values, P v) (resolved : resolver.resolve r chains table key = some table') :
    ∀ v ∈ table'.methods.values, P v := by
  unfold Resolver.resolve at resolved
  split at resolved
  · cases resolved
  · split at resolved
    · cases resolved
    · obtain ⟨method, found, rfl⟩ := Option.map_eq_some_iff.mp resolved
      obtain ⟨_, _, there⟩ := List.exists_of_findSome?_eq_some found
      intro v member
      rcases Table.mem_values_insert member with rfl | old
      · exact all v (Table.mem_values_of_get? there)
      · exact all v old

theorem all_tableMethod (resolver : Resolver) (r : ClassRegistry) (chains : List (List Name))
    (key : String) (all : ∀ v ∈ table.methods.values, P v) :
    (∀ v, (tableMethod resolver r chains table key).1 = some v → P v) ∧
      ∀ v ∈ (tableMethod resolver r chains table key).2.methods.values, P v := by
  unfold tableMethod MethodTable.lookup MethodTable.peek?
  cases there : table.methods.get? key with
  | some method =>
    refine ⟨fun v same => ?_, all⟩
    cases same
    exact all _ (Table.mem_values_of_get? there)
  | none =>
    dsimp only
    split
    · rename_i table' resolved
      have held : ∀ v ∈ table'.methods.values, P v := by
        refine all_resolve ?_ resolved
        exact all
      exact ⟨fun v same => held v (Table.mem_values_of_get? same), held⟩
    · exact ⟨nofun, all⟩

theorem all_formalDispatch (generic : Name) (classes : List ClassView) (resolver : Resolver)
    (r : ClassRegistry) (all : ∀ v ∈ table.methods.values, P v) (caches : cache.All P) :
    (formalDispatch resolver r generic classes table cache).1.All P ∧
      (∀ v ∈ (formalDispatch resolver r generic classes table cache).2.1.methods.values, P v) ∧
      (formalDispatch resolver r generic classes table cache).2.2.All P := by
  unfold formalDispatch
  dsimp only
  have looked := caches.lookup generic classes ⟨table.version, []⟩
  rcases searched : cache.lookup generic classes ⟨table.version, []⟩ with ⟨_ | cached, cache'⟩
  · rw [searched] at looked
    have tabled := all_tableMethod resolver r (DispatchCache.nameLists classes)
      (dispatchKey ((DispatchCache.nameLists classes).map fun chain => chain.head?.getD anyClass)) all
    dsimp only
    split
    · rename_i table' missed
      rw [missed] at tabled
      exact ⟨trivial, tabled.2, looked.2⟩
    · rename_i method table' found
      rw [found] at tabled
      have ok := tabled.1 method rfl
      refine ⟨all_of ok _, tabled.2, looked.2.insert generic classes _ ?_⟩
      exact ok
  · rw [searched] at looked
    exact ⟨all_of (looked.1 _ rfl) _, all, looked.2⟩

end MethodTable

theorem Ambit.allowsCache_iff {A : Ambit} {n : Nat} {cache : DispatchCache} :
    A.AllowsCache n cache ↔ cache.All (A.Admits n) :=
  ⟨fun ok => ⟨ok.last, ok.named⟩, fun all => ⟨all.last, all.named⟩⟩

namespace Regime

variable {K : Regime} {g : Guard} {ev : K.ι → Evaluator} {α β : Type} {w s t : Session} {c : RecordId}

/-- What a function was called with. -/
theorem frameCall_allowed {frame : Record} {fallback : Expr} (sound : s.Sound K.ambit)
    (member : frame ∈ s.records.live) (ok : K.ambit.Reads s.extent fallback) :
    K.ambit.AdmitsAll s.extent (frameCall frame fallback).1.values ∧
      (frameCall frame fallback).2.1.index < s.records.next ∧
      K.ambit.Reads s.extent (frameCall frame fallback).2.2 := by
  have within := sound.records.within frame member
  unfold frameCall
  dsimp only
  refine ⟨?_, ?_, ?_⟩
  · cases given : frame.supplied? with
    | none => exact nofun
    | some supplied => exact within.supplied supplied given
  · cases parent : frame.parent with
    | none => exact sound.records.issued frame member
    | some p => exact sound.records.parents frame member p parent
  · cases call : frame.call with
    | none => exact ok
    | some e => exact within.call e call

namespace Conducts

/-! Dispatch from inside a generic. -/

theorem callDefaultMethod (guarded : K.Guarded g) (liberal : K.Liberal ev)
    (lenient : K.Lenient ev w.builtins) {method : Value} {call : Expr} {supplied : Supplied} (env : EnvId)
    (issued : c.index < w.records.next) (ok : K.ambit.Admits w.extent method)
    (code : K.ambit.Reads w.extent call) (held : K.ambit.AdmitsAll w.extent supplied.values) :
    K.Conducts w K.ambit.Admits fun i => g.callDefaultMethod (ev i) method call supplied env c := by
  cases method with
  | builtin name id =>
    refine andThen (findBuiltin name (Ambit.admits_builtin.mp ok)) fun t b first known => ?_
    refine andThen (failIf rfl) fun u _ second _ => ?_
    have late := first.trans second
    have ready := (liberal.ready issued).later late
    refine andThen (forceAll ready (held.mono late.extent_le)) fun x values third all => ?_
    have late := late.trans third
    exact invokeStrict guarded (ready.later third) (late.builtins ▸ lenient) _ env false (late.builtins ▸ known)
      (code.mono late.extent_le) all
  | _ => exact reading fun _ _ _ => failure rfl

theorem callMethod (guarded : K.Guarded g) (liberal : K.Liberal ev) (lenient : K.Lenient ev w.builtins)
    {method : Value} {call : Expr} {supplied : Supplied} {context : DispatchContext}
    (issued : c.index < w.records.next) (ok : K.ambit.Admits w.extent method)
    (code : K.ambit.Reads w.extent call) (held : K.ambit.AdmitsAll w.extent supplied.values)
    (object : K.ambit.Admits w.extent context.object) :
    K.Conducts w K.ambit.Admits fun i => g.callMethod (ev i) method call supplied c context := by
  cases method with
  | closure id f definedIn =>
    refine invokeClosure (liberal.ready issued) id definedIn ⟨Ambit.admits_closure.mp ok, code,
      fun _ => held, fun d same => ?_⟩
    cases same
    exact object
  | _ => exact callDefaultMethod guarded liberal lenient context.callEnv issued ok code held

theorem dispatchObject (liberal : K.Liberal ev) (f : Function) (env : EnvId)
    (issued : c.index < w.records.next) :
    K.Conducts w K.ambit.Admits fun i => dispatchObject (ev i) f env c := by
  unfold CallByNeed.dispatchObject
  cases f.names with
  | nil => exact value fun _ _ => Ambit.admits_null
  | cons name rest =>
    refine branch (fun _ => ?_) fun _ => readVariable (liberal.ready issued) (liberal.names name) env
    refine andThen (getLocal env (liberal.names name)) fun t found first _ => ?_
    rcases found with _ | v
    · exact value fun _ _ => Ambit.admits_null
    · cases v with
      | dots id =>
        refine reading fun s sound second => ?_
        have held := sound.store.dotsAt id
        cases entries : (s.store.dotsAt id).values with
        | nil => exact value fun _ _ => Ambit.admits_null
        | cons v rest =>
          rw [entries] at held
          exact forceValue ((liberal.ready issued).later (first.trans second)) (held v List.mem_cons_self)
      | _ => exact value fun _ _ => Ambit.admits_null

theorem selectMethod (liberal : K.Liberal ev) (search : MethodSearch) (chain : VectorId)
    {call : SpecialCall} (issued : call.caller.index < w.records.next) :
    K.Conducts w (fun n m => K.ambit.Admits n m.method)
      fun i => selectMethod (ev i) search chain call := by
  let stamp (s : Session) : Stamp := ⟨s.heap.functionEpoch + s.methodsVersion, search.scope⟩
  let looked (s : Session) := (s.site call.call.id).cache.lookup search.generic [s.classView chain] (stamp s)
  have allowed (s : Session) (sound : s.Sound K.ambit) :=
    (Ambit.allowsCache_iff.mp (sound.cache call.call.id)).lookup search.generic [s.classView chain] (stamp s)
  refine replacing (f := fun s => s.setSite call.call.id ({ · with cache := (looked s).2 }))
    (k := fun i s => selectAnew (ev i) search chain call (stamp s) (looked s).1)
    (fun s sound _ => ⟨sound.setSite _ (Ambit.allowsCache_iff.mpr (allowed s sound).2),
      Session.follows_setSite _ _⟩)
    fun s sound first => ?_
  have known := (allowed s sound).1
  change ∀ m, (looked s).1 = some m → K.ambit.Admits s.extent m.method at known
  generalize (looked s).1 = cached at known
  cases cached with
  | some m => exact value fun k le => (known m rfl).mono le
  | none =>
    have onward : w.Follows K.ambit (s.setSite call.call.id ({ · with cache := (looked s).2 })) :=
      first.trans (Session.follows_setSite _ _)
    refine andThen (noting fun _ => rfl) fun t _ second _ => ?_
    have ready := (liberal.ready issued).later (onward.trans second)
    refine andThen (findMethod ready (liberal.names search.generic) 0) fun u m third found => ?_
    cases m with
    | none => exact failure rfl
    | some m =>
      have admitted := found m.method rfl
      refine andThen (updating fun x sound fourth => ⟨sound.setSite _ ?_, Session.follows_setSite _ _⟩)
        fun y _ fifth _ => value fun k le => admitted.mono (Nat.le_trans fifth.extent_le le)
      exact Ambit.allowsCache_iff.mpr ((Ambit.allowsCache_iff.mp (sound.cache call.call.id)).insert _ _ _
        (admitted.mono fourth.extent_le))

theorem dispatching (guarded : K.Guarded g) (liberal : K.Liberal ev) (lenient : K.Lenient ev w.builtins)
    (generic : Name) {frame : Record} (env definedIn : EnvId) {call : SpecialCall} {object : Value}
    (member : frame ∈ w.records.live) (issued : call.caller.index < w.records.next)
    (code : K.ambit.Reads w.extent call.call) (ok : K.ambit.Admits w.extent object) :
    K.Conducts w K.ambit.Admits fun i => g.dispatchOn (ev i) generic frame env definedIn call object := by
  refine reading fun s sound first => ?_
  obtain ⟨held, parent, code⟩ := frameCall_allowed sound (first.live ▸ member)
    (code.mono first.extent_le)
  refine andThen (selectMethod liberal _ _ (Nat.lt_of_lt_of_le issued first.next)) fun t m second found => ?_
  have late := first.trans second
  refine andThen (callMethod guarded liberal (late.builtins ▸ lenient) (Nat.lt_of_lt_of_le parent second.next) found
    (code.mono second.extent_le) (held.mono second.extent_le) (ok.mono late.extent_le))
    fun u v _ admitted => leaving admitted

theorem genericFrame_mem {frame : Record} {env definedIn : EnvId} {f : Function}
    (found : genericFrame s c = some (frame, env, f, definedIn)) : frame ∈ s.records.live := by
  unfold genericFrame at found
  split at found
  · cases found
  · rename_i record there
    split at found
    · cases found
      exact Records.mem_of_logicalFunction there
    · cases found

theorem useMethod (guarded : K.Guarded g) (liberal : K.Liberal ev) (lenient : K.Lenient ev w.builtins)
    (generic : Name) {object : Option Value} {call : SpecialCall}
    (issued : call.caller.index < w.records.next) (code : K.ambit.Reads w.extent call.call)
    (ok : K.ambit.AdmitsAny w.extent object) :
    K.Conducts w K.ambit.Admits fun i => g.useMethod (ev i) generic object call := by
  refine reading fun s sound first => ?_
  cases found : genericFrame s call.caller with
  | none => exact failure rfl
  | some parts =>
    obtain ⟨frame, env, f, definedIn⟩ := parts
    have member := genericFrame_mem found
    have rest (t : Session) (object : Value) (second : s.Follows K.ambit t)
        (ok : K.ambit.Admits t.extent object) : K.Conducts t K.ambit.Admits fun i =>
          g.dispatchOn (ev i) generic frame env definedIn call object := by
      have late := first.trans second
      exact dispatching guarded liberal (late.builtins ▸ lenient) generic env definedIn (second.live ▸ member)
        (Nat.lt_of_lt_of_le issued late.next) (code.mono late.extent_le) ok
    cases object with
    | some v => exact andThen (value fun k le => (ok v rfl).mono (Nat.le_trans first.extent_le le)) rest
    | none => exact andThen (dispatchObject liberal f env (sound.records.issued frame member)) rest

theorem extraPromise (free : K.ambit.Free) (call : SpecialCall) {e : Expr}
    (ok : K.ambit.Reads w.extent e) : K.Conducts w K.ambit.Admits fun _ => extraPromise call e := by
  unfold CallByNeed.extraPromise
  cases constant : e.constant? with
  | some v => exact (evaluatedPromise .supplied ok constant).weaken fun _ _ made => made free
  | none => exact (lazyPromise call.env .supplied call.caller ok).weaken fun _ _ made => made free

theorem admitsAll_add {n : Nat} {supplied : Supplied} {v : Value} (name : Option Name)
    (held : K.ambit.AdmitsAll n supplied.values) (ok : K.ambit.Admits n v) :
    K.ambit.AdmitsAll n (supplied.add name v).values := by
  intro w member
  rcases Supplied.mem_values_add member with rfl | old
  · exact ok
  · exact held w old

theorem addExtraArgs (free : K.ambit.Free) (call : SpecialCall) (skipped : Nat) {supplied : Supplied}
    {args : List Arg} (code : ∀ a ∈ args, K.ambit.Reads w.extent a.value)
    (held : K.ambit.AdmitsAll w.extent supplied.values) :
    K.Conducts w (fun n s => K.ambit.AdmitsAll n s.values)
      fun _ => addExtraArgs call skipped supplied args := by
  induction args generalizing w skipped supplied with
  | nil => exact value fun _ le => held.mono le
  | cons a rest ih =>
    obtain ⟨first, others⟩ := List.forall_mem_cons.mp code
    obtain ⟨name, e⟩ := a
    refine branch (fun _ => ih skipped others held) fun _ => branch (fun _ => ih _ others held) fun _ =>
      branch (fun _ => ih skipped others held) fun _ => ?_
    refine andThen (extraPromise free call first) fun t v follows admitted => ?_
    exact ih skipped (fun a member => (others a member).mono follows.extent_le)
      (admitsAll_add name (held.mono follows.extent_le) admitted)

theorem nextMethod (guarded : K.Guarded g) (liberal : K.Liberal ev) (lenient : K.Lenient ev w.builtins)
    {call : SpecialCall} (issued : call.caller.index < w.records.next)
    (code : K.ambit.Reads w.extent call.call) (args : ∀ a ∈ call.args, K.ambit.Reads w.extent a.value) :
    K.Conducts w K.ambit.Admits fun i => g.nextMethod (ev i) call := by
  refine reading fun s sound first => ?_
  cases found : s.records.logicalFunction call.caller with
  | none => exact failure rfl
  | some frame =>
    have member := Records.mem_of_logicalFunction found
    cases context : frame.dispatch? with
    | none =>
      dsimp only [Option.bind]
      rw [context]
      exact failure rfl
    | some dispatch =>
      dsimp only [Option.bind]
      rw [context]
      obtain ⟨held, parent, body⟩ := frameCall_allowed sound member
        (code.mono first.extent_le)
      have object := (sound.records.within frame member).object dispatch context
      refine andThen (findMethod ((liberal.ready issued).later first) (liberal.names _) _)
        fun t m second chosen => ?_
      cases m with
      | none => exact failure rfl
      | some m =>
        have late := first.trans second
        refine andThen (addExtraArgs liberal.free call 0
          (fun a there => (args a there).mono late.extent_le) (held.mono second.extent_le))
          fun u supplied third all => ?_
        have late := late.trans third
        have onward := second.trans third
        exact callMethod guarded liberal (late.builtins ▸ lenient) (Nat.lt_of_lt_of_le parent onward.next)
          ((chosen m.method rfl).mono third.extent_le) (body.mono onward.extent_le) all
          (object.mono onward.extent_le)

theorem signatureValue (liberal : K.Liberal ev) (env : EnvId) (formal : Name)
    (issued : c.index < w.records.next) :
    K.Conducts w K.ambit.Admits fun i => signatureValue (ev i) env c formal := by
  refine andThen (getLocal env (liberal.names formal)) fun t found first ok => ?_
  rcases found with _ | v
  · exact value fun _ _ => Ambit.admits_missing
  · cases v with
    | missing => exact value fun _ _ => Ambit.admits_missing
    | promise id =>
      refine reading fun s _ second => branch (fun _ => value fun _ _ => Ambit.admits_missing) fun _ => ?_
      exact force ((liberal.ready issued).later (first.trans second)) (liberal.free id)
    | _ => exact value fun k le => (ok _ rfl).mono le

theorem signatureChains (liberal : K.Liberal ev) (env : EnvId) (formals : List Name)
    (issued : c.index < w.records.next) :
    K.Conducts w Ambit.Any fun i => signatureChains (ev i) env c formals := by
  induction formals generalizing w with
  | nil => exact value fun _ _ => trivial
  | cons formal rest ih =>
    refine andThen (signatureValue liberal env formal issued) fun t v first _ => ?_
    refine reading fun s _ second => ?_
    exact andThen (ih (Nat.lt_of_lt_of_le issued (first.trans second).next)) fun _ _ _ _ =>
      value fun _ _ => trivial

theorem selectFormal (generic : Generic) (chains : List VectorId) (site : NodeId) :
    K.Conducts w (fun n r => r.All (K.ambit.Admits n)) fun _ => selectFormal generic chains site := by
  refine altering fun s sound _ => ?_
  obtain ⟨result, table, cache⟩ := MethodTable.all_formalDispatch generic.name
    (chains.map s.classView) s.resolver s.classes
    (tableAt sound (Nat.le_refl _) generic.table) (Ambit.allowsCache_iff.mp (sound.cache site))
  refine ⟨?_, ?_, result⟩
  · have stored := (sound_setTable generic.table sound table).setSite
      (f := fun st => { st with cache := _ }) site (Ambit.allowsCache_iff.mpr cache)
    exact stored.same rfl
  · exact Session.follows_same rfl rfl rfl rfl rfl

theorem standardGeneric (guarded : K.Guarded g) (liberal : K.Liberal ev)
    (lenient : K.Lenient ev w.builtins) (name : Name) {call : SpecialCall}
    (issued : call.caller.index < w.records.next) (code : K.ambit.Reads w.extent call.call) :
    K.Conducts w K.ambit.Admits fun i => g.standardGeneric (ev i) name call := by
  refine reading fun s sound first => ?_
  cases s.generics.get? name with
  | none => exact failure rfl
  | some generic =>
    cases found : s.records.logicalFunction call.caller with
    | none => exact failure rfl
    | some frame =>
      have member := Records.mem_of_logicalFunction found
      cases environment : frame.env? with
      | none =>
        dsimp only [Option.bind]
        rw [environment]
        exact failure rfl
      | some env =>
        dsimp only [Option.bind]
        rw [environment]
        obtain ⟨held, parent, body⟩ := frameCall_allowed sound member
          (code.mono first.extent_le)
        refine andThen (signatureChains liberal env generic.signature
          (Nat.lt_of_lt_of_le issued first.next)) fun t chains second _ => ?_
        refine andThen (selectFormal generic chains call.call.id) fun u result third chosen => ?_
        have late := first.trans (second.trans third)
        have onward := second.trans third
        have issued := Nat.lt_of_lt_of_le parent onward.next
        have default {method : Value} (ok : K.ambit.Admits u.extent method) :
            K.Conducts u K.ambit.Admits fun i => g.callDefaultMethod (ev i) method
              (frameCall frame call.call).2.2 (frameCall frame call.call).1 env
              (frameCall frame call.call).2.1 :=
          callDefaultMethod guarded liberal (late.builtins ▸ lenient) env issued ok (body.mono onward.extent_le)
            (held.mono onward.extent_le)
        cases result with
        | found method =>
          cases method with
          | closure id f definedIn =>
            exact invokeClosure (liberal.ready issued) id definedIn ⟨Ambit.admits_closure.mp chosen,
              body.mono onward.extent_le, fun _ => held.mono onward.extent_le, nofun⟩
          | _ => exact default chosen
        | deferred method => exact default chosen
        | notFound => exact reading fun _ _ _ => failure rfl

/-! Special builtins. -/

theorem arg?_mem {call : SpecialCall} {name : Name} {position : Nat} {e : Expr}
    (found : call.arg? name position = some e) : ∃ a ∈ call.args, a.value = e := by
  unfold SpecialCall.arg? at found
  split at found
  · rename_i a there
    cases found
    exact ⟨a, List.mem_of_find?_eq_some there, rfl⟩
  · obtain ⟨a, there, rfl⟩ := Option.map_eq_some_iff.mp found
    exact ⟨a, (List.mem_filter.mp (List.mem_of_getElem? there)).1, rfl⟩

variable {call : SpecialCall}

theorem evalArg? (runs : ∀ a ∈ call.args, K.Runs ev w call.caller a.value) (name : Name) (position : Nat) :
    K.Conducts w K.ambit.AdmitsAny fun i => evalArg? (ev i) call name position := by
  unfold CallByNeed.evalArg?
  cases found : call.arg? name position with
  | none => exact value fun _ _ => nofun
  | some e =>
    obtain ⟨a, member, rfl⟩ := arg?_mem found
    refine map ((runs a member).here call.env) fun n v admitted w same => ?_
    cases same
    exact admitted

theorem caughtValue (f : Failure) : K.Conducts w K.ambit.Admits fun _ => allocate (caughtValue f) := by
  refine allocating (Ambit.handles_bind (Ambit.handles_vector Ambit.admitsAll_nil) fun k v _ admitted => ?_)
  refine Ambit.handles_map (Ambit.handles_addVector fun u member => ?_) fun _ _ ok => ok
  have marked : u ∈ (([("class", v)] : List (Name × Value)).foldl (fun t e => t.insert e.1 e.2)
    ({} : Attributes)).values := member
  rcases Table.mem_values_foldl_insert marked with there | none
  · cases List.mem_singleton.mp there
    exact admitted
  · cases none

theorem attempt (runs : ∀ a ∈ call.args, K.Runs ev w call.caller a.value) :
    K.Conducts w K.ambit.Admits fun i => attempt (ev i) call := by
  unfold CallByNeed.attempt
  cases found : call.arg? "expr" 0 with
  | none => exact value fun _ _ => Ambit.admits_null
  | some e =>
    obtain ⟨a, member, rfl⟩ := arg?_mem found
    refine andThen (evalArg? runs "silent" 1) fun t flag first _ => reading fun s _ second => ?_
    have late := first.trans second
    refine observing (((runs a member).later late).here call.env) fun u r third ends => ?_
    rcases r with (f | ⟨env, v⟩) | v
    · refine branch (fun _ => ?_) fun _ => permitted (Permits.on ends third)
      exact branch (fun _ => caughtValue f) fun _ => andThen (noting fun _ => rfl) fun _ _ _ _ => caughtValue f
    · exact leaving ends
    · exact value fun k le => Ambit.Admits.mono ends le

theorem leave (runs : ∀ a ∈ call.args, K.Runs ev w call.caller a.value) :
    K.Conducts w K.ambit.Admits fun i => leave (ev i) call := by
  refine andThen (evalArg? runs "value" 0) fun t v _ admitted => leaving ?_
  exact admitted.getD Ambit.admits_null

/-- A promise marked for the time of a computation. -/
theorem probing (id : PromiseId) {m : K.ι → EvalM Bool} (conducts : K.Conducts w Ambit.Any m) :
    K.Conducts w Ambit.Any fun i => onStore (Store.beginEvaluation id) >>= fun _ =>
      observe (m i) >>= fun answer => modifyStore (·.resetPromise id) >>= fun _ => resume answer := by
  intro s sound follows
  cases state : (s.store.promise id).state with
  | unevaluated own =>
    let begun : Session := { s with store := s.store.begun id own }
    have marked : s.Follows K.ambit begun := Session.follows_withStore (fun _ => Store.open_begun) .refl
    obtain ⟨a, t, runs, ok, onward, ends⟩ := conducts begun
      (sound.withStore (sound.store.begun id own) (Nat.le_refl _)) (follows.trans marked)
    refine ⟨a, { t with store := t.store.resetPromise id }, ?_,
      ok.withStore (ok.store.resetPromise id) (Nat.le_refl _), ?_, ?_⟩
    · filter_upwards [runs] with i run
      rw [bind_apply, onStore_apply, Store.beginEvaluation_apply state]
      dsimp only
      rw [observe_bind, run]
      rcases a with u | answer <;> rfl
    · have whole := marked.trans onward
      refine ⟨{ whole.toEvolves with opens := fun other waiting => ?_ }, whole.live⟩
      rcases Store.open_modifyPromise_or waiting with rfl | before
      · exact Store.open_of_unevaluated state
      · exact whole.opens other before
    · rcases a with (f | ⟨env, v⟩) | answer
      · exact ends
      · exact ends
      · exact ends
  | underEvaluation own | evaluated v =>
    obtain ⟨message, refused⟩ := Store.beginEvaluation_refused id s.store (by simp [state])
    refine ⟨.error (.failure (.internal message)), s, .of_forall fun i => ?_, sound, .refl s,
      permits_of_fair rfl⟩
    dsimp only
    rw [bind_apply, onStore_apply, refused]

theorem promisedBinding (p : Promise) : K.Conducts w Ambit.Any fun _ => promisedBinding p := by
  unfold CallByNeed.promisedBinding
  cases p.expr.symbol? with
  | none => exact value fun _ _ => trivial
  | some name =>
    cases p.state.env? with
    | none => exact value fun _ _ => trivial
    | some env => exact readingHeap fun s _ _ => Heap.fair_anyLocal s.heap env name

theorem isMissingWithin (steps : Nat) (outermost : Bool) (v : Value) :
    K.Conducts w Ambit.Any fun _ => isMissingWithin steps outermost v := by
  induction steps generalizing w outermost v with
  | zero =>
    cases v with
    | dots id => exact reading fun _ _ _ => value fun _ _ => trivial
    | _ => exact value fun _ _ => trivial
  | succ steps ih =>
    cases v with
    | dots id => exact reading fun _ _ _ => value fun _ _ => trivial
    | promise id =>
      refine reading fun s _ _ => branch (fun _ => value fun _ _ => trivial) fun _ => ?_
      cases (s.store.promise id).state with
      | evaluated v => exact value fun _ _ => trivial
      | underEvaluation env => exact value fun _ _ => trivial
      | unevaluated env =>
        cases (s.store.promise id).eager.filter (!·.deoptimized) with
        | some eager => exact value fun _ _ => trivial
        | none =>
          refine andThen (promisedBinding _) fun t inner _ _ => ?_
          cases inner with
          | none => exact value fun _ _ => trivial
          | some inner => exact probing id (ih false inner)
    | _ => exact value fun _ _ => trivial

theorem isMissingArgument (name : Name) (env : EnvId) :
    K.Conducts w Ambit.Any fun _ => isMissingArgument name env := by
  refine andThen (readingHeap fun s _ _ => Heap.fair_anyLocal s.heap env name) fun t found _ _ => ?_
  cases found with
  | none => exact failure rfl
  | some binding => exact reading fun s _ _ => isMissingWithin _ true binding

theorem isMissing (call : SpecialCall) : K.Conducts w K.ambit.Admits fun _ => isMissing call := by
  refine reading fun s _ _ => ?_
  cases probedName s.store call with
  | none => exact failure rfl
  | some name => exact andThen (isMissingArgument name call.env) fun _ _ _ _ => vector rfl

theorem currentCall (call : SpecialCall) : K.Conducts w K.ambit.Admits fun _ => currentCall call := by
  refine guarding fun _ _ _ _ => reading fun s sound _ => value fun k le => ?_
  refine Ambit.AdmitsAny.getD (fun v same => ?_) Ambit.admits_null
  obtain ⟨e, found, rfl⟩ := Option.map_eq_some_iff.mp same
  obtain ⟨frame, there, code⟩ := Option.bind_eq_some_iff.mp found
  have within := sound.records.within frame (Records.mem_of_logicalFunction there)
  exact Ambit.admits_language.mpr ((within.call e code).mono le)

theorem currentFunction (call : SpecialCall) :
    K.Conducts w K.ambit.Admits fun _ => currentFunction call := by
  refine guarding fun _ _ _ _ => reading fun s sound _ => value fun k le => ?_
  refine Ambit.AdmitsAny.getD (fun v same => ?_) Ambit.admits_null
  obtain ⟨frame, there, function⟩ := Option.bind_eq_some_iff.mp same
  have within := sound.records.within frame (Records.mem_of_logicalFunction there)
  exact (within.function v function).mono le

theorem parentFrame (call : SpecialCall) : K.Conducts w K.ambit.Admits fun _ => parentFrame call :=
  guarding fun _ _ _ _ => reading fun _ _ _ => value fun _ _ => Ambit.admits_environment _

theorem environment (runs : ∀ a ∈ call.args, K.Runs ev w call.caller a.value) :
    K.Conducts w K.ambit.Admits fun i => environment (ev i) call := by
  refine andThen (evalArg? runs "fun" 0) fun t found _ _ => ?_
  rcases found with _ | v
  · exact value fun _ _ => Ambit.admits_environment _
  · cases v with
    | null => exact value fun _ _ => Ambit.admits_environment _
    | closure id f env => exact value fun _ _ => Ambit.admits_environment _
    | _ => exact value fun _ _ => Ambit.admits_null

/-- What a call of a special builtin comes with. -/
structure Called (K : Regime) (ev : K.ι → Evaluator) (w : Session) (call : SpecialCall) : Prop where
  issued : call.caller.index < w.records.next
  code : K.ambit.Reads w.extent call.call
  runs : ∀ a ∈ call.args, K.Runs ev w call.caller a.value

theorem useMethodBuiltin (guarded : K.Guarded g) (liberal : K.Liberal ev)
    (lenient : K.Lenient ev w.builtins) (called : Called K ev w call) :
    K.Conducts w K.ambit.Admits fun i => g.useMethodBuiltin (ev i) call := by
  refine andThen (evalArg? called.runs "generic" 0) fun t found first _ => ?_
  cases found with
  | none => exact failure rfl
  | some v =>
    refine reading fun s _ second => ?_
    cases s.store.string? v with
    | none => exact failure rfl
    | some generic =>
      have late := first.trans second
      refine andThen (evalArg? (fun a member => (called.runs a member).later late) "object" 1)
        fun u object third ok => ?_
      have late := late.trans third
      exact useMethod guarded liberal (late.builtins ▸ lenient) generic
        (Nat.lt_of_lt_of_le called.issued late.next) (called.code.mono late.extent_le) ok

theorem standardGenericBuiltin (guarded : K.Guarded g) (liberal : K.Liberal ev)
    (lenient : K.Lenient ev w.builtins) (called : Called K ev w call) :
    K.Conducts w K.ambit.Admits fun i => g.standardGenericBuiltin (ev i) call := by
  refine andThen (evalArg? called.runs "f" 0) fun t found first _ => ?_
  cases found with
  | none => exact failure rfl
  | some v =>
    refine reading fun s _ second => ?_
    cases s.store.string? v with
    | none => exact failure rfl
    | some name =>
      have late := first.trans second
      exact standardGeneric guarded liberal (late.builtins ▸ lenient) name
        (Nat.lt_of_lt_of_le called.issued late.next) (called.code.mono late.extent_le)

theorem runSpecial (guarded : K.Guarded g) (lenient : K.Lenient ev w.builtins) {b : Builtin} {op : SpecialOp}
    (known : K.ambit.Knows w.builtins b) (special : b.operation = .special op)
    (called : Called K ev w call) : K.Conducts w K.ambit.Admits fun i => g.runSpecial (ev i) op call := by
  cases op with
  | attempt => exact attempt called.runs
  | leave => exact leave called.runs
  | isMissing => exact isMissing call
  | currentCall => exact currentCall call
  | currentFunction => exact currentFunction call
  | parentFrame => exact parentFrame call
  | environment => exact environment called.runs
  | useMethod =>
    exact useMethodBuiltin guarded (lenient b known (by rw [special]; rfl)) lenient called
  | nextMethod =>
    exact nextMethod guarded (lenient b known (by rw [special]; rfl)) lenient called.issued
      called.code fun a member => (called.runs a member).reads
  | standardGeneric =>
    exact standardGenericBuiltin guarded (lenient b known (by rw [special]; rfl)) lenient called
  | quote =>
    refine value fun k le => Ambit.AdmitsAny.getD (fun v same => ?_) Ambit.admits_null
    obtain ⟨e, found, rfl⟩ := Option.map_eq_some_iff.mp same
    obtain ⟨a, member, rfl⟩ := arg?_mem found
    exact Ambit.admits_language.mpr ((called.runs a member).reads.mono le)

/-! Expressions. -/

theorem evaluateArgs (ready : K.Ready ev w c) (env : EnvId) {args : List Arg}
    (runs : ∀ a ∈ args, K.Runs ev w c a.value) :
    K.Conducts w (fun n r => K.ambit.AdmitsAll n r.2) fun i => evaluateArgs (ev i) env c args := by
  induction args generalizing w with
  | nil => exact value fun _ _ => Ambit.admitsAll_nil
  | cons a rest ih =>
    obtain ⟨first, others⟩ := List.forall_mem_cons.mp runs
    obtain ⟨name, e⟩ := a
    have onward {u : Session} (names : List (Option Name)) (values : List Value)
        (late : w.Follows K.ambit u) (ok : K.ambit.AdmitsAll u.extent values) :
        K.Conducts u (fun n r => K.ambit.AdmitsAll n r.2) fun i =>
          CallByNeed.evaluateArgs (ev i) env c rest >>= fun more =>
            pure (names ++ more.1, values ++ more.2) := by
      refine andThen (ih (ready.later late) fun a member => (others a member).later late)
        fun t more follows all => value fun k le => ?_
      exact Ambit.admitsAll_append.mpr ⟨ok.mono (Nat.le_trans follows.extent_le le), all.mono le⟩
    unfold CallByNeed.evaluateArgs
    refine branch (fun _ => ?_) fun _ => branch (fun _ => ?_) fun _ => ?_
    · refine andThen (visibleDots env c) fun t d follows ok => ?_
      refine andThen (forceAll (ready.later follows) fun v member => ok v ?_) fun u values next forced => ?_
      · obtain ⟨⟨_, entry⟩, there, rfl⟩ := List.mem_map.mp member
        exact (List.of_mem_zip there).2
      · exact onward _ values (follows.trans next) forced
    · refine onward [name] [.missing] (.refl w) fun v member => ?_
      cases List.mem_singleton.mp member
      exact Ambit.admits_missing
    · refine andThen (first.here env) fun t v follows admitted => onward [name] [v] follows ?_
      exact Ambit.admitsAll_cons.mpr ⟨admitted, Ambit.admitsAll_nil⟩

variable {code : Expr} {args : List Arg}

theorem running (guarded : K.Guarded g) (ready : K.Ready ev w c) (lenient : K.Lenient ev w.builtins)
    {b : Builtin} (env : EnvId) (known : K.ambit.Knows w.builtins b) (reads : K.ambit.Reads w.extent code)
    (runs : ∀ a ∈ args, K.Runs ev w c a.value) :
    K.Conducts w K.ambit.Admits fun i => g.runCalled (ev i) b code args env c := by
  unfold Guard.runCalled
  cases operation : b.operation with
  | special op =>
    exact attributing code (runSpecial guarded lenient known operation ⟨ready.issued, reads, runs⟩)
      fun _ _ _ le ok => ok.mono le
  | strict op =>
    refine andThen (evaluateArgs ready env runs) fun t evaluated follows held => ?_
    exact invokeStrict guarded (ready.later follows) (follows.builtins ▸ lenient) evaluated.1 env true
      (follows.builtins ▸ known) (reads.mono follows.extent_le) held

theorem callBuiltin (guarded : K.Guarded g) (ready : K.Ready ev w c) (lenient : K.Lenient ev w.builtins)
    {b : Builtin} (env : EnvId) (known : K.ambit.Knows w.builtins b) (reads : K.ambit.Reads w.extent code)
    (runs : ∀ a ∈ args, K.Runs ev w c a.value) :
    K.Conducts w K.ambit.Admits fun i => g.callBuiltin (ev i) b code args env c := by
  refine branch (fun _ => guarding fun s _ follows _ => ?_) fun _ => running guarded ready lenient env known reads runs
  exact running guarded (ready.later follows) (follows.builtins ▸ lenient) env (follows.builtins ▸ known)
    (reads.mono follows.extent_le) fun a member => (runs a member).later follows

theorem calledFunction (ready : K.Ready ev w c) {f : Expr} (env : EnvId) (runs : K.Runs ev w c f) :
    K.Conducts w K.ambit.Admits fun i => calledFunction (ev i) f env c := by
  unfold CallByNeed.calledFunction
  cases symbol : f.symbol? with
  | some name => exact lookupFunction ready (runs.reads.ofSymbol symbol) env
  | none =>
    refine andThen (runs.here env) fun t v _ admitted => ?_
    exact branch (fun _ => value fun k le => admitted.mono le) fun _ => failAt rfl

theorem evalCall (guarded : K.Guarded g) (ready : K.Ready ev w c) (lenient : K.Lenient ev w.builtins)
    (childless : w.records.Childless c) {f : Expr} (env : EnvId) (reads : K.ambit.Reads w.extent code)
    (callee : K.Runs ev w c f) (runs : ∀ a ∈ args, K.Runs ev w c a.value) :
    K.Conducts w K.ambit.Admits fun i => g.evalCall (ev i) code f args env c := by
  refine andThen polling fun s _ first _ => ?_
  refine andThen (calledFunction (ready.later first) env (callee.later first)) fun t function second ok => ?_
  have late := first.trans second
  cases function with
  | closure id function definedIn =>
    refine guarding fun u _ third unflagged => ?_
    have late := late.trans third
    refine andThen (closureArgs env function code (late.childless childless)
      fun a member => (runs a member).later late) fun x supplied fourth held => ?_
    have late := late.trans fourth
    refine applyClosure (ready.later late) ?_ id definedIn supplied.2
      ⟨(Ambit.admits_closure.mp ok).mono (third.trans fourth).extent_le, reads.mono late.extent_le,
        held, nofun⟩
    rw [fourth.eagerOnly]
    exact unflagged
  | builtin name id =>
    refine andThen (findBuiltin name (Ambit.admits_builtin.mp ok)) fun u b third known => ?_
    have late := late.trans third
    exact callBuiltin guarded (ready.later late) (late.builtins ▸ lenient) env (third.builtins ▸ known)
      (reads.mono late.extent_le) fun a member => (runs a member).later late
  | _ => exact failure rfl

theorem evalBlock (env : EnvId) {last : Value} {body : List Expr} (ok : K.ambit.Admits w.extent last)
    (runs : ∀ e ∈ body, K.Runs ev w c e) :
    K.Conducts w K.ambit.Admits fun i => evalBlock (ev i) env c last body := by
  induction body generalizing w last with
  | nil => exact value fun k le => ok.mono le
  | cons e rest ih =>
    obtain ⟨first, others⟩ := List.forall_mem_cons.mp runs
    exact andThen (first.here env) fun t v follows admitted =>
      ih admitted fun e member => (others e member).later follows

theorem fair_truth {n : Nat} (s : Store) (v : Value) : Ambit.Fair Ambit.Any n (truth s v) := by
  unfold truth
  split
  · trivial
  · trivial
  · split
    · rfl
    · trivial
  · rfl
  · rfl
  · rfl

theorem evalBranch (env : EnvId) {test yes : Expr} {no : Option Expr} (tested : K.Runs ev w c test)
    (taken : K.Runs ev w c yes) (other : ∀ e, no = some e → K.Runs ev w c e) :
    K.Conducts w K.ambit.Admits fun i => evalBranch (ev i) test yes no env c := by
  refine andThen (tested.here env) fun t v first _ => reading fun s _ second => ?_
  have late := first.trans second
  have fair := fair_truth (n := 0) s.store v
  cases outcome : truth s.store v with
  | error f =>
    rw [outcome] at fair
    exact failAt fair
  | ok holds =>
    cases holds with
    | true => exact (taken.later late).here env
    | false =>
      cases no with
      | none => exact value fun _ _ => Ambit.admits_null
      | some e => exact ((other e rfl).later late).here env

/-- One step of the evaluator under guard. -/
theorem guardedStep (guarded : K.Guarded g) (ready : K.Ready ev w c) (lenient : K.Lenient ev w.builtins)
    (childless : w.records.Childless c) {e : Expr} (env : EnvId) (reads : K.ambit.Reads w.extent e)
    (below : K.Below ev w c (sizeOf e)) :
    K.Conducts w K.ambit.Admits fun i => g.evalStep (ev i) e env c := by
  have part (e' : Expr) (smaller : sizeOf e' < sizeOf e) (ok : K.ambit.Reads w.extent e') :
      K.Runs ev w c e' := below w e' (.refl w) smaller ok
  cases e with
  | constant id v => exact value fun k le => (Ambit.reads_constant.mp reads).mono le
  | symbol id name => exact readVariable ready (Ambit.reads_symbol.mp reads) env
  | empty id => exact value fun _ _ => Ambit.admits_missing
  | call id f args =>
    obtain ⟨callee, parts⟩ := Ambit.reads_call.mp reads
    exact evalCall guarded ready lenient childless env reads (part f Expr.sizeOf_callee callee) fun a member =>
      part a.value (Expr.sizeOf_arg member) (parts a member)
  | function f =>
    refine arranging (m := Store.closure f env) fun s sound first =>
      ⟨⟨sound.store.vectors, sound.store.promises, sound.store.dots⟩, fun _ waiting => waiting, rfl, ?_⟩
    exact Ambit.admits_closure.mpr (reads.mono first.extent_le)
  | block id body =>
    exact evalBlock env Ambit.admits_null fun e member =>
      part e (Expr.sizeOf_statement member) (Ambit.reads_block.mp reads e member)
  | branch id test yes no =>
    obtain ⟨tested, taken, other⟩ := Ambit.reads_branch.mp reads
    refine evalBranch env (part test Expr.sizeOf_test tested) (part yes Expr.sizeOf_yes taken)
      fun e same => part e ?_ (other e same)
    cases same
    exact Expr.sizeOf_no
  | assign id target value outer =>
    obtain ⟨written, read⟩ := Ambit.reads_assign.mp reads
    refine andThen ((part value Expr.sizeOf_value read).here env) fun t v first admitted => ?_
    exact andThen (assign guarded (ready.later first) (first.builtins ▸ lenient) env outer (below.later first)
      Expr.sizeOf_target (written.mono first.extent_le) admitted) fun u _ second _ =>
        Conducts.value fun k le => admitted.mono (Nat.le_trans second.extent_le le)

/-- One step of the evaluator, where every write is allowed. -/
theorem evalStep (lax : K.ambit.Lax) (ready : K.Ready ev w c) (lenient : K.Lenient ev w.builtins)
    (childless : w.records.Childless c) {e : Expr} (env : EnvId) (reads : K.ambit.Reads w.extent e)
    (below : K.Below ev w c (sizeOf e)) :
    K.Conducts w K.ambit.Admits fun i => CallByNeed.evalStep (ev i) e env c := by
  have step := guardedStep (guarded_idle lax) ready lenient childless env reads below
  simp only [Guard.idle_evalStep] at step
  exact step

end Conducts
end Regime
end CallByNeed
