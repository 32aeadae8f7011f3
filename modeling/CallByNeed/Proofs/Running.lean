import CallByNeed.Interpreter

/-!
How computations run: what sequencing, observing and work on the store come to on a given session. A
strict builtin that works on objects only changes objects and records, and nothing else.
-/
namespace CallByNeed

variable {α β : Type}

theorem bind_apply (m : EvalM α) (f : α → EvalM β) (s : Session) :
    (m >>= f) s = match m s with
      | (.ok a, t) => f a t
      | (.error u, t) => (.error u, t) := by
  change ExceptT.bindCont f (m s).1 (m s).2 = _
  rcases m s with ⟨a | a, t⟩ <;> rfl

/-- A sequence that comes to a value comes to one after each of its parts. -/
theorem parts_of_bind {m : EvalM α} {f : α → EvalM β} {s t : Session} {b : β}
    (run : (m >>= f) s = (.ok b, t)) : ∃ a u, m s = (.ok a, u) ∧ f a u = (.ok b, t) := by
  rw [bind_apply] at run
  rcases first : m s with ⟨w | a, u⟩
  · rw [first] at run
    cases run
  · rw [first] at run
    exact ⟨a, u, rfl, run⟩

/-- A sequence ends in the session that its first part leaves, or in the one that the rest leaves after it. -/
theorem after_bind {P : Session → Prop} {m : EvalM α} {f : α → EvalM β} {s : Session} (first : P (m s).2)
    (rest : ∀ a t, m s = (.ok a, t) → P t → P (f a t).2) : P ((m >>= f) s).2 := by
  rw [bind_apply]
  rcases run : m s with ⟨u | a, t⟩
  · rw [run] at first
    exact first
  · rw [run] at first
    exact rest a t run first

theorem get_bind (f : Session → EvalM α) (s : Session) : (get >>= f) s = f s s := rfl

theorem observe_bind (m : EvalM α) (k : Except Unwind α → EvalM β) (s : Session) :
    (observe m >>= k) s = k (m s).1 (m s).2 := rfl

theorem eagerOnly_bind (caller : RecordId) (f : Bool → EvalM α) (s : Session) :
    (eagerOnly caller >>= f) s = f (s.records.eagerOnly caller) s := rfl

theorem setEagerOnly_bind (caller : RecordId) (flag : Bool) (f : Unit → EvalM α) (s : Session) :
    (setEagerOnly caller flag >>= f) s =
      f () { s with records := s.records.setEagerOnly caller flag } := rfl

theorem ensureLazy_apply (caller : RecordId) (s : Session) :
    ensureLazy caller s =
      (if s.records.eagerOnly caller then .error (.failure .cannotOptimize) else .ok (), s) := by
  change failIf (s.records.eagerOnly caller) .cannotOptimize s = _
  unfold failIf
  split <;> rfl

theorem readHeap_apply (f : Heap → Except Failure α) (s : Session) :
    readHeap f s = match f s.heap with
      | .ok a => (.ok a, s)
      | .error e => (.error (.failure e), s) := by
  unfold readHeap
  rw [get_bind]
  cases f s.heap <;> rfl

/-! Checks that pass and reads leave the session as it is. -/

theorem ensureLazy_state {caller : RecordId} {u : Unit} {s t : Session}
    (run : ensureLazy caller s = (.ok u, t)) : t = s := by
  rw [ensureLazy_apply] at run
  exact (congrArg Prod.snd run).symm

theorem checkInterrupt_state {u : Unit} {s t : Session} (run : checkInterrupt s = (.ok u, t)) : t = s := by
  unfold checkInterrupt at run
  rw [get_bind] at run
  cases flag : s.interrupt with
  | true =>
    rw [flag] at run
    cases run
  | false =>
    rw [flag] at run
    cases run
    rfl

theorem readHeap_state {f : Heap → Except Failure α} {a : α} {s t : Session}
    (run : readHeap f s = (.ok a, t)) : t = s := by
  rw [readHeap_apply] at run
  cases read : f s.heap with
  | ok a =>
    rw [read] at run
    cases run
    rfl
  | error g =>
    rw [read] at run
    cases run

theorem failIf_ok {condition : Bool} {f : Failure} {u : Unit} {s t : Session}
    (run : failIf condition f s = (.ok u, t)) : condition = false ∧ s = t := by
  cases condition with
  | true => cases run
  | false =>
    cases run
    exact ⟨rfl, rfl⟩

theorem liftExcept_ok {read : Except Failure α} {a : α} {s t : Session}
    (run : liftExcept read s = (.ok a, t)) : read = .ok a ∧ s = t := by
  cases read with
  | error f => cases run
  | ok b =>
    cases run
    exact ⟨rfl, rfl⟩

theorem updateHeap_apply (f : Heap → Except Failure Heap) (s : Session) :
    updateHeap f s = match f s.heap with
      | .ok heap => (.ok (), { s with heap })
      | .error e => (.error (.failure e), s) := by
  unfold updateHeap
  rw [get_bind]
  cases f s.heap <;> rfl

theorem define_apply (env : EnvId) (x : Name) (v : Value) (s : Session) :
    define env x v s = match s.heap.frame? env with
      | some _ => (.ok (), { s with heap := s.heap.bind env x v })
      | none => (.error (.failure (Heap.collected env)), s) := by
  unfold define
  change ((fun _ => ()) <$> readHeap (·.frame env) >>= _) s = _
  rw [map_eq_pure_bind, bind_assoc, bind_apply, readHeap_apply]
  unfold Heap.frame
  cases s.heap.frame? env <;> rfl

theorem Heap.slots_bind (h : Heap) (env : EnvId) (name : Name) (v : Value) :
    (h.bind env name v).slots = h.slots.modify env.index fun slot =>
      { slot with frame := slot.frame.map fun f =>
        { f with bindings := f.bindings.insert name v, version := f.version + 1 } } := by
  unfold Heap.bind Heap.bumpEpoch
  dsimp only
  split <;> rfl

/-- Changing a frame that is alive changes no other. -/
theorem Heap.frame?_updateFrame {h : Heap} {env : EnvId} {f : Frame} (alive : h.frame? env = some f)
    (change : Frame → Frame) (other : EnvId) :
    (h.updateFrame env change).frame? other =
      if other = env then some (change f) else h.frame? other := by
  unfold Heap.frame? Heap.updateFrame at *
  rw [Array.getElem?_modify]
  by_cases here : env.index = other.index
  · rw [if_pos here]
    cases found : h.slots[env.index]? with
    | none => simp [found] at alive
    | some slot =>
      rw [← here, found]
      simp only [found] at alive
      by_cases same : other = env
      · subst same
        split at alive
        · simp_all
        · cases alive
      · have generation : slot.generation ≠ other.generation := by
          intro equal
          split at alive
          · exact same (by cases other; cases env; simp_all)
          · cases alive
        simp [same, generation]
  · have apart : other ≠ env := fun same => here (by rw [same])
    rw [if_neg here, if_neg apart]

theorem Heap.frame?_bumpEpoch (changed : Bool) (h : Heap) (id : EnvId) :
    (h.bumpEpoch changed).frame? id = h.frame? id := by
  cases changed <;> rfl

/-- Binding a name in a frame that is alive changes that frame and no other. -/
theorem Heap.frame_bind {h : Heap} {env : EnvId} {f : Frame} (alive : h.frame? env = some f)
    (x : Name) (v : Value) (other : EnvId) :
    (h.bind env x v).frame? other = if other = env then
        some { f with bindings := f.bindings.insert x v, version := f.version + 1 }
      else h.frame? other :=
  (frame?_bumpEpoch _ _ other).trans (frame?_updateFrame alive _ other)

theorem onStore_apply (m : StoreM α) (s : Session) :
    onStore m s = match m s.store with
      | (.ok a, store) => (.ok a, { s with store })
      | (.error f, store) => (.error (.failure f), { s with store }) := rfl

theorem onStore_session (m : StoreM α) (s : Session) :
    (onStore m s).2 = { s with store := (m s.store).2 } ∧
      ∀ a, (onStore m s).1 = .ok a ↔ (m s.store).1 = .ok a := by
  rw [onStore_apply]
  rcases m s.store with ⟨f | a, t⟩
  · exact ⟨rfl, fun _ => ⟨nofun, nofun⟩⟩
  · refine ⟨rfl, fun b => ⟨?_, ?_⟩⟩
    · intro answer
      cases answer
      rfl
    · intro answer
      cases answer
      rfl

/-- What a value computed ahead comes to: nothing, where there is none or it was given up; or it is used,
while its call site is trusted, or given up now. -/
theorem takeEagerValue_cases (id : PromiseId) (s : Session) :
    ((∀ eager, (s.store.promise id).eager = some eager → eager.deoptimized = true) ∧
      takeEagerValue id s = (.ok none, s)) ∨
    ∃ eager, (s.store.promise id).eager = some eager ∧ eager.deoptimized = false ∧
      ((s.store.trusts eager.site = true ∧ takeEagerValue id s = (.ok (some eager.value), { s with
          store := (s.store.share eager.value).fulfil id eager.value
          stats := { s.stats with
            eagerHits := s.stats.eagerHits + 1
            promisesForced := s.stats.promisesForced + 1 } })) ∨
        takeEagerValue id s = (.ok none, { s with
          store := (s.store.deoptimize id).distrust eager.site
          stats := { s.stats with eagerDeopts := s.stats.eagerDeopts + 1 } })) := by
  unfold takeEagerValue
  rw [get_bind]
  cases ahead : (s.store.promise id).eager with
  | none => exact .inl ⟨nofun, rfl⟩
  | some eager =>
    cases given : eager.deoptimized with
    | true =>
      refine .inl ⟨?_, ?_⟩
      · rintro _ ⟨⟩
        exact given
      · dsimp only
        rw [given]
        rfl
    | false =>
      refine .inr ⟨eager, rfl, given, ?_⟩
      dsimp only
      rw [given]
      by_cases stands : (s.store.trusts eager.site && s.heap.isCurrent eager.snapshot) = true
      · refine .inl ⟨(Bool.and_eq_true_iff.mp stands).1, ?_⟩
        rw [if_neg Bool.false_ne_true, if_pos stands]
        rfl
      · right
        rw [if_neg Bool.false_ne_true, if_neg stands]
        rfl

/-- Which arguments of a call are simple is noted at its site, if it was not known. -/
theorem simpleArgs_cases (site : NodeId) (args : List Arg) (s : Session) :
    ∃ simple, simpleArgs site args s = (.ok simple, s) ∨
      simpleArgs site args s = (.ok simple, s.setSite site ({ · with simpleArgs := some simple })) := by
  unfold simpleArgs
  rw [get_bind]
  cases (s.site site).simpleArgs with
  | some simple => exact ⟨simple, .inl rfl⟩
  | none => exact ⟨_, .inr rfl⟩

/-- Which formals a function always forces is noted for it, if it was not known. -/
theorem forcedFormals_cases (f : Function) (s : Session) :
    ∃ forced, forcedFormals f s = (.ok forced, s) ∨
      forcedFormals f s = (.ok forced, { s with forced := s.forced.insert f.node forced }) := by
  unfold forcedFormals
  rw [get_bind]
  cases s.forced.get? f.node with
  | some forced => exact ⟨forced, .inl rfl⟩
  | none => exact ⟨_, .inr rfl⟩

/-- Matching a call reads the names of its arguments, and for a failure what they are shown as. -/
theorem matchCall_apply (f : Function) (names : List (Option Name)) (labels : List String) (call : Expr)
    (s : Session) : matchCall f names labels call s =
      ((matchArguments (.ofFormals f.names) (.supplied names) s.options.partialMatching).mapError fun e =>
        .failure (e.toFailure names labels (s.store.exprText call)), s) := by
  unfold matchCall
  rw [get_bind]
  cases matchArguments (.ofFormals f.names) (.supplied names) s.options.partialMatching <;> rfl

theorem matchSupplied_eq (f : Function) (supplied : Supplied) (call : Expr) (s : Session) :
    matchSupplied f supplied call s =
      matchCall f supplied.names (supplied.values.map (valueLabel s.store)) call s := by
  unfold matchSupplied
  rw [get_bind]

/-- A call of a closure goes on with its arguments, and then with the body. -/
theorem evalCall_closure {ev : Evaluator} {call f : Expr} {args : List Arg} {env definedIn : EnvId}
    {caller : RecordId} {id : ClosureId} {g : Function} {s t : Session}
    (called : (checkInterrupt >>= fun _ => calledFunction ev f env caller) s =
      (.ok (.closure id g definedIn), t)) :
    evalCall ev call f args env caller s = (ensureLazy caller >>= fun _ =>
      closureArgs ev g call args env caller >>= fun p =>
        applyClosure ev (.closure id g definedIn) g definedIn call p.1 p.2 caller none) t := by
  unfold evalCall
  rw [← bind_assoc, bind_apply, called]

/-- Attributing a failure to a call changes neither the session nor a value. -/
theorem attributeTo_session (call : Expr) (m : EvalM α) (s : Session) :
    (attributeTo call m s).2 = (m s).2 ∧
      ∀ a, (attributeTo call m s).1 = .ok a ↔ (m s).1 = .ok a := by
  unfold attributeTo
  rw [observe_bind]
  rcases (m s).1 with (f | _) | v
  · dsimp only
    split
    · exact ⟨rfl, fun a => ⟨nofun, nofun⟩⟩
    · exact ⟨rfl, fun a => ⟨nofun, nofun⟩⟩
  · exact ⟨rfl, fun a => ⟨nofun, nofun⟩⟩
  · exact ⟨rfl, fun a => Iff.rfl⟩

theorem findBuiltin_apply {s : Session} {id : Nat} {b : Builtin}
    (found : s.builtins.functions[id]? = some b) (name : Name) :
    findBuiltin name id s = (.ok b, s) := by
  unfold findBuiltin
  rw [get_bind, found]
  rfl

/-- A builtin that works on objects only, run under a record of its own. -/
theorem runBuiltin_storing {ev : Evaluator} {b : Builtin} {op : StrictOp} {call : Expr}
    {names : List (Option Name)} {values : List Value} {env : EnvId} {caller : RecordId}
    {m : StoreM Value}
    (storing : ∀ record, runStrict ev op ⟨⟨names, values⟩, env, record⟩ = onStore m) (s : Session) :
    (∃ records, (runBuiltin ev b op call names values env caller s).2 =
        { s with store := (m s.store).2, records }) ∧
      ∀ v, (runBuiltin ev b op call names values env caller s).1 = .ok v ↔
        (m s.store).1 = .ok v := by
  let under := s.records.push (some caller) (some call) (.builtin b.name)
  let t : Session :=
    { s with records := under.2.setEagerOnly under.1 (s.records.eagerOnly caller) }
  have run : runBuiltin ev b op call names values env caller s =
      releasing under.1 (attributeTo call (onStore m)) t := by
    rw [← storing under.1]
    rfl
  obtain ⟨attributed, answers⟩ := attributeTo_session call (onStore m) t
  obtain ⟨stored, results⟩ := onStore_session m t
  rw [run]
  constructor
  · refine ⟨((onStore m t).2.records).release under.1, ?_⟩
    change { (attributeTo call (onStore m) t).2 with
      records := ((attributeTo call (onStore m) t).2.records).release under.1 } = _
    rw [attributed, stored]
  · intro v
    exact (answers v).trans (results v)

/-- Such a builtin called without a dispatch. -/
theorem invokeStrict_storing {ev : Evaluator} {b : Builtin} {op : StrictOp} {call : Expr}
    {names : List (Option Name)} {values : List Value} {env : EnvId} {caller : RecordId}
    {dispatch : Bool} {m : StoreM Value} (strict : b.operation = .strict op)
    (undispatched : dispatch = true → b.dispatch = .none)
    (storing : ∀ record, runStrict ev op ⟨⟨names, values⟩, env, record⟩ = onStore m) (s : Session) :
    (∃ records, (invokeStrict ev b call names values env caller dispatch s).2 =
        { s with store := (m s.store).2, records }) ∧
      ∀ v, (invokeStrict ev b call names values env caller dispatch s).1 = .ok v ↔
        (m s.store).1 = .ok v := by
  have run : invokeStrict ev b call names values env caller dispatch =
      runBuiltin ev b op call names values env caller := by
    unfold invokeStrict
    have plain : (dispatch && decide (b.dispatch ≠ .none)) = false := by
      cases dispatch with
      | false => rfl
      | true => simp [undispatched rfl]
    rw [strict, plain]
    rfl
  rw [run]
  exact runBuiltin_storing storing s

/-! Records that are found are alive. -/

namespace Records

theorem get?_setEagerOnly (rs : Records) (c id : RecordId) (flag : Bool) :
    (rs.setEagerOnly c flag).get? id =
      (rs.get? id).map fun r => if r.id = c then { r with eagerOnly := flag } else r := by
  unfold Records.get? setEagerOnly
  dsimp only
  rw [List.find?_map]
  congr 2
  funext r
  dsimp only [Function.comp]
  split <;> rfl

variable {rs : Records} {r : Record} {c : RecordId}

theorem mem_of_get? (found : rs.get? c = some r) : r ∈ rs.live ∧ r.id = c :=
  ⟨List.mem_of_find?_eq_some found, by simpa using List.find?_some found⟩

theorem mem_of_functionWithin {steps : Nat} (found : rs.functionWithin steps c = some r) :
    r ∈ rs.live := by
  induction steps generalizing c with
  | zero => cases found
  | succ steps ih =>
    obtain ⟨first, there, next⟩ := Option.bind_eq_some_iff.mp found
    split at next
    · cases next
      exact (mem_of_get? there).1
    · obtain ⟨below, _, rest⟩ := Option.bind_eq_some_iff.mp next
      exact ih rest

theorem mem_of_logicalFunction (found : rs.logicalFunction c = some r) : r ∈ rs.live :=
  mem_of_functionWithin found

end Records

/-! The parts of a dispatch on the class of an object. -/

/-- What the cache of a call site says about a class chain. -/
def consultCache (search : MethodSearch) (chain : VectorId) (site : NodeId) (s : Session) :
    (Stamp × Option CachedMethod) × Session :=
  let stamp : Stamp := ⟨s.heap.functionEpoch + s.methodsVersion, search.scope⟩
  let found := (s.site site).cache.lookup search.generic [s.classView chain] stamp
  ((stamp, found.1), s.setSite site ({ · with cache := found.2 }))

/-- The method the cache of a call site had, or else the one a search finds, which is then remembered. -/
def selectAnew (ev : Evaluator) (search : MethodSearch) (chain : VectorId) (c : SpecialCall)
    (stamp : Stamp) : Option CachedMethod → EvalM CachedMethod
  | some m => pure m
  | none => do
    count fun n => { n with classSearches := n.classSearches + 1 }
    match ← findMethod ev search 0 c.caller with
    | none => fail (.raise .dispatchNotFound (s!"no applicable method for '{search.generic}' " ++
        s!"applied to an object of class {describeClasses search.classes}"))
    | some m =>
      modify fun s => s.setSite c.call.id fun st =>
        { st with cache := st.cache.insert search.generic [s.classView chain] stamp m }
      pure m

theorem selectMethod_eq (ev : Evaluator) (search : MethodSearch) (chain : VectorId) (c : SpecialCall) :
    selectMethod ev search chain c = (modifyGet (consultCache search chain c.call.id) >>=
      fun known => selectAnew ev search chain c known.1 known.2) := rfl

/-- Dispatches on an object in a generic whose frame is known. -/
def dispatchOn (ev : Evaluator) (generic : Name) (frame : Record) (env definedIn : EnvId)
    (c : SpecialCall) (object : Value) : EvalM Value := do
  let s ← get
  let chain := s.classOf object
  let classes := s.store.classNames chain
  let callEnv := ((s.records.logicalParent frame.id).bind (·.env?)).getD Session.global
  let group := (s.builtins.lookup? generic).bind (·.dispatch.group?)
  let m ← selectMethod ev ⟨generic, group, classes, [callEnv, definedIn]⟩ chain c
  let context : DispatchContext :=
    ⟨generic, m.group, classes, m.position, object, callEnv, some definedIn⟩
  let (supplied, parent, call) := frameCall frame c.call
  let v ← callMethod ev m.method call supplied parent context
  throw (.leave env v)

end CallByNeed
