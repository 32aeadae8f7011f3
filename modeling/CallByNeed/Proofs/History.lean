import CallByNeed.Proofs.Hosting

/-!
What becomes of a session. As far as methods are found by it, a session changes in a few ways: names are
bound, frames come and go, methods, generics and builtins are entered. Call sites come to remember a method
in two ways only, after a search that found it and by a dispatch on formal classes. A run is any sequence of
such changes; every evaluation is a run, and so is everything a host does.
-/
namespace CallByNeed

variable {α β : Type}

theorem ok_of_bind {ε : Type} {x : Except ε α} {f : α → Except ε β} {b : β} (run : (x >>= f) = .ok b) :
    ∃ a, x = .ok a ∧ f a = .ok b := by
  cases x with
  | error e => cases run
  | ok a => exact ⟨a, rfl, run⟩

namespace Heap

variable {h k : Heap} {id target : EnvId} {name : Name} {v : Value}

theorem frame?_of_frame {f : Frame} (alive : h.frame id = .ok f) : h.frame? id = some f := by
  unfold frame at alive
  split at alive
  · rename_i there
    cases alive
    exact there
  · cases alive

theorem alive_of_define (defined : h.define id name v = .ok k) :
    h.contains id ∧ k = h.bind id name v := by
  obtain ⟨f, alive, bound⟩ := ok_of_bind defined
  cases bound
  have there := frame?_of_frame alive
  exact ⟨by rw [contains, there]; rfl, rfl⟩

theorem alive_of_assignOuter (assigned : h.assignOuter id name v = .ok (target, k)) :
    h.contains target ∧ k = h.bind target name v := by
  obtain ⟨parent, -, below⟩ := ok_of_bind assigned
  obtain ⟨frame, -, rest⟩ := ok_of_bind below
  obtain ⟨l, defined, same⟩ := ok_of_bind rest
  cases same
  exact alive_of_define defined

end Heap

namespace Session

/-- A search for the methods of a generic along a class chain, from some environments. -/
def methodSearch (s : Session) (generic : Name) (chain : VectorId) (scope : List EnvId) : MethodSearch :=
  ⟨generic, (s.builtins.lookup? generic).bind (·.dispatch.group?), s.store.classNames chain, scope⟩

/-- What the methods found from some environments are stored with. -/
def stamp (s : Session) (scope : List EnvId) : Stamp := ⟨s.heap.functionEpoch + s.methodsVersion, scope⟩

/-- A change of a session after which no call site remembers more. -/
inductive Change (s : Session) : Session → Prop
  | enters {t : Session} (enters : s.Enters t) (heap : t.heap = s.heap) (builtins : t.builtins = s.builtins) :
    Change s t
  | consults (site : NodeId) (generic : Name) (classes : List ClassView) (stamp : Stamp) :
    Change s (s.setSite site fun known =>
      { known with cache := ((s.site site).cache.lookup generic classes stamp).2 })
  | binds {t : Session} (id : EnvId) (name : Name) (v : Value) (alive : s.heap.contains id)
    (same : s.SameMemory t) (heap : t.heap = s.heap.bind id name v) (builtins : t.builtins = s.builtins) :
    Change s t
  | frames {t : Session} (parent : Option EnvId) (label : Option Name) (same : s.SameMemory t)
    (heap : t.heap = (s.heap.alloc parent label).2) (builtins : t.builtins = s.builtins) : Change s t
  | collects {t : Session} (same : s.SameMemory t)
    (heap : t.heap = (s.heap.collect s.store [global, base] s.methodValues).2)
    (builtins : t.builtins = s.builtins) : Change s t
  | registers {t : Session} (b : Builtin) (id : Nat) (alive : s.heap.contains base) (same : s.SameMemory t)
    (heap : t.heap = s.heap.bind base b.name (.builtin b.name id))
    (builtins : t.builtins = (s.builtins.register b).2) : Change s t

/-- What comes after what in a history that starts with a session `o`. A search for a method is part of the
history itself, and so is what lies between the look at a generic and the dispatch on it. -/
inductive Run (o : Session) : Session → Session → Prop
  | refl (s : Session) : Run o s s
  | change {s p t : Session} (before : Run o s p) (change : p.Change t) : Run o s t
  | remembered {s p t : Session} {depth : Nat} {caller : RecordId} {m : CachedMethod} (generic : Name)
    (chain : VectorId) (scope : List EnvId) (somewhere : scope ≠ []) (site : NodeId) (before : Run o s t)
    (begun : Run o o p) (search : Run o p t)
    (found : findMethod (eval depth) (p.methodSearch generic chain scope) 0 caller p = (.ok (some m), t)) :
    Run o s (t.setSite site fun known =>
      { known with cache := known.cache.insert generic [t.classView chain] (p.stamp scope) m })
  | dispatched {s q t : Session} {name : Name} {g : Generic} (chains : List VectorId) (site : NodeId)
    (before : Run o s t) (begun : Run o o q) (known : q.generics.get? name = some g) (between : Run o q t) :
    Run o s (selectFormal g chains site t).2

variable {o s t u : Session}

theorem Run.trans (first : Run o s t) (second : Run o t u) : Run o s u := by
  induction second with
  | refl => exact first
  | change _ change ih => exact (ih first).change change
  | remembered generic chain scope somewhere site _ begun search found ih =>
    exact .remembered generic chain scope somewhere site (ih first) begun search found
  | dispatched chains site _ begun known between ih =>
    exact .dispatched chains site (ih first) begun known between

theorem Change.run (change : s.Change t) : Run o s t := (Run.refl s).change change

/-- A change of objects, records, messages or counts. -/
theorem Run.of_same (heap : t.heap = s.heap) (builtins : t.builtins = s.builtins) (same : s.SameMemory t) :
    Run o s t := (Change.enters (.nothing same) heap builtins).run

end Session

open Session

/-! Evaluations. -/

/-- However a computation ends, what it makes of a session of a history comes next in it. -/
def Runs (m : EvalM α) : Prop := ∀ o s, Run o o s → Run o s (m s).2

namespace Runs

theorem of_same {m : EvalM α} (heap : ∀ s, (m s).2.heap = s.heap)
    (builtins : ∀ s, (m s).2.builtins = s.builtins) (same : ∀ s : Session, s.SameMemory (m s).2) : Runs m :=
  fun _ s _ => .of_same (heap s) (builtins s) (same s)

theorem reading {f : Session → EvalM α} (runs : ∀ s, Runs (f s)) : Runs (get >>= f) :=
  fun o s here => runs s o s here

theorem andThen_at {m : EvalM α} {f : α → EvalM β} {o s t : Session} (here : Run o o s)
    (first : Run o s (m t).2) (rest : ∀ a, Runs (f a)) : Run o s ((m >>= f) t).2 :=
  after_bind (P := Run o s) first fun a u _ reached => reached.trans (rest a o u (here.trans reached))

theorem andThen {m : EvalM α} {f : α → EvalM β} (first : Runs m) (rest : ∀ a, Runs (f a)) :
    Runs (m >>= f) := fun o s here => andThen_at here (first o s here) rest

theorem defining (env : EnvId) (name : Name) (v : Value) : Runs (define env name v) := by
  intro o s _
  rw [define_apply]
  cases alive : s.heap.frame? env with
  | none => exact .refl s
  | some f =>
    exact Change.run (.binds env name v (by rw [Heap.contains, alive]; rfl) {} rfl rfl)

theorem assigningOuter (env : EnvId) (name : Name) (v : Value) :
    Runs (updateHeap fun h => (·.2) <$> h.assignOuter env name v) := by
  intro o s _
  rw [updateHeap_apply]
  cases assigned : s.heap.assignOuter env name v with
  | error f => exact .refl s
  | ok written =>
    obtain ⟨target, heap⟩ := written
    obtain ⟨alive, rfl⟩ := Heap.alive_of_assignOuter assigned
    exact Change.run (.binds target name v alive {} rfl rfl)

theorem administering {g : Session → α × Session} (clerical : Clerical g) :
    Runs (modifyGet g : EvalM α) :=
  fun _ s _ => Change.run (.enters (clerical.enters s) (clerical.heap s) (clerical.builtins s))

theorem counting (f : Stats → Stats) : Runs (count f) := of_same (fun _ => rfl) (fun _ => rfl) fun _ => {}

theorem storing (m : StoreM α) : Runs (onStore m) := by
  refine of_same (fun s => ?_) (fun s => ?_) fun s => ?_ <;> rw [(onStore_session m s).1]
  exact {}

/-- The rules for runs. Objects may change in any way. -/
def rules : Rules where
  Holds := Runs
  Grounded _ _ := True
  Grows _ _ := True
  evolution := Store.evolution_true
  value _ := fun _ s _ => .refl s
  andThen := andThen
  failure _ := fun _ s _ => .refl s
  leaving _ _ := fun _ s _ => .refl s
  reading _ := reading
  observing first rest _ := fun o s here =>
    (first o s here).trans (rest _ o _ (here.trans (first o s here)))
  storing _ := storing _
  administering := administering
  interrupting := of_same (fun _ => rfl) (fun _ => rfl) fun _ => {}
  polling := by
    refine reading fun s => ?_
    split
    · exact of_same (fun _ => rfl) (fun _ => rfl) fun _ => {}
    · exact fun _ s _ => .refl s
  framing parent := fun _ _ _ => Change.run (.frames (some parent) none {} rfl rfl)
  binding := defining
  outerBinding := assigningOuter
  recording _ _ _ _ := of_same (fun _ => rfl) (fun _ => rfl) fun _ => {}
  closing _ _ runs := fun o s here => (runs o s here).trans (.of_same rfl rfl {})
  flagging _ _ := of_same (fun _ => rfl) (fun _ => rfl) fun _ => {}

theorem forcing : rules.Forcing where
  life _ _ _ := True.intro
  distrusting _ _ := True.intro
  hit := counting _
  fulfilled := counting _
  givenUp := counting _

/-- What is worked out about a call site is kept beside its cache. -/
theorem planning : rules.Planning where
  promising _ _ _ _ _ := True.intro
  distrusting _ _ := True.intro
  created := counting _
  aborted := counting _
  looking := reading
  simple site args := by
    intro o s _
    obtain ⟨_, run | run⟩ := simpleArgs_cases site args s <;> rw [run]
    · exact .refl s
    · refine .of_same rfl rfl { caches := fun node => ?_ }
      change ((s.setSite site _).site node).cache = _
      rw [site_setSite]
      split
      · rename_i same
        rw [same]
      · rfl
  forced f := by
    intro o s _
    obtain ⟨_, run | run⟩ := forcedFormals_cases f s <;> rw [run]
    · exact .refl s
    · exact .of_same rfl rfl {}

def plain : Law := SearchLaw.law
  { toRules := rules
    force := forcing.holds_force
    missingProbe := forcing.holds_isMissingArgument } fun _ _ => trivial

section Dispatch

variable {depth : Nat} (evaluates : rules.Evaluates (eval depth))
include evaluates

/-- What a search finds is stored with the stamp it started from. -/
theorem selecting (generic : Name) (chain : VectorId) {scope : List EnvId} (somewhere : scope ≠ [])
    (c : SpecialCall) {o s : Session} (here : Run o o s) :
    Run o s (selectMethod (eval depth) (s.methodSearch generic chain scope) chain c s).2 := by
  let consulted := consultCache (s.methodSearch generic chain scope) chain c.call.id s
  have first : Run o s consulted.2 :=
    Change.run (.consults c.call.id generic [s.classView chain] (s.stamp scope))
  rw [selectMethod_eq]
  change Run o s (selectAnew (eval depth) (s.methodSearch generic chain scope) chain c consulted.1.1
    consulted.1.2 consulted.2).2
  cases consulted.1.2 with
  | some m => exact first
  | none =>
    let counted := { consulted.2 with
      stats := { consulted.2.stats with classSearches := consulted.2.stats.classSearches + 1 } }
    have second : Run o s counted := first.trans (.of_same rfl rfl {})
    change Run o s ((findMethod (eval depth) (s.methodSearch generic chain scope) 0 c.caller >>= _) counted).2
    have search : Run o counted
        (findMethod (eval depth) (s.methodSearch generic chain scope) 0 c.caller counted).2 :=
      plain.holds_findMethod evaluates _ _ _ o counted (here.trans second)
    rw [bind_apply]
    rcases found : findMethod (eval depth) (s.methodSearch generic chain scope) 0 c.caller counted
      with ⟨u | m, t⟩
    · rw [found] at search
      exact second.trans search
    · rw [found] at search
      cases m with
      | none => exact second.trans search
      | some m =>
        exact .remembered (p := counted) generic chain scope somewhere c.call.id (second.trans search)
          (here.trans second) search found

theorem dispatching (generic : Name) (frame : Record) (env definedIn : EnvId) (c : SpecialCall)
    (object : Value) : Runs (dispatchOn (eval depth) generic frame env definedIn c object) := by
  intro o s here
  unfold dispatchOn
  rw [get_bind]
  exact andThen_at here (selecting evaluates generic _ (List.cons_ne_nil _ _) c here) fun _ =>
    andThen (plain.holds_callMethod evaluates _ _ _ trivial) fun _ => rules.leaving _ _

theorem usingMethod (generic : Name) (object : Option Value) (c : SpecialCall) :
    Runs (useMethod (eval depth) generic object c) :=
  plain.holds_useMethod_of evaluates (fun frame env definedIn =>
    dispatching evaluates generic frame env definedIn c) object

/-- The generic is looked up before its arguments are forced, the method only afterwards. -/
theorem standardGeneric (name : Name) (c : SpecialCall) : Runs (standardGeneric (eval depth) name c) := by
  intro o s here
  unfold CallByNeed.standardGeneric
  rw [get_bind]
  cases known : s.generics.get? name with
  | none => exact .refl s
  | some g =>
    cases s.records.logicalFunction c.caller with
    | none => exact .refl s
    | some frame =>
      dsimp only [Option.bind_some]
      cases frame.env? with
      | none => exact .refl s
      | some env =>
        dsimp only
        have chained : Run o s (signatureChains (eval depth) env c.caller g.signature s).2 :=
          plain.holds_signatureChains evaluates _ _ _ o s here
        rw [bind_apply]
        rcases signed : signatureChains (eval depth) env c.caller g.signature s with ⟨u | chains, t⟩
        · rw [signed] at chained
          exact chained
        · rw [signed] at chained
          have selected : Run o s (selectFormal g chains c.call.id t).2 :=
            .dispatched chains c.call.id chained here known chained
          refine andThen_at here selected fun result => ?_
          split
          · exact plain.holds_invokeClosure evaluates _ _ _ _ _ _ nofun
          · exact plain.holds_callDefaultMethod evaluates _ _ _ _ _
          · exact plain.holds_callDefaultMethod evaluates _ _ _ _ _
          · exact reading fun _ => rules.failure _

end Dispatch

def law : CallLaw where
  toLaw := plain
  arguments h := planning.holds_arguments h
  useMethod h := usingMethod h
  nextMethod h := plain.holds_nextMethod h fun _ _ => trivial
  standardGeneric h := standardGeneric h

theorem evaluating (depth : Nat) : rules.Evaluates (eval depth) := law.evaluates_eval depth

end Runs

/-! Hosts. -/

namespace Session

variable {o s t : Session} (here : Run o o s)
include here

theorem run_atTopLevel {m : RecordId → EvalM α} (runs : ∀ top, Runs (m top)) :
    Run o s (atTopLevel m s).2 := by
  rw [atTopLevel_session]
  exact Runs.rules.holds_underRecord rfl runs o s here

theorem run_evalIn (e : Expr) (env : EnvId) : Run o s (evalIn e env s).2 := by
  have evaluated : Run o s (atTopLevel (eval nestingLimit e env) s).2 :=
    run_atTopLevel here fun top => Runs.evaluating _ e env top
  unfold evalIn
  rcases run : atTopLevel (eval nestingLimit e env) s with ⟨f | v, t⟩
  · rw [run] at evaluated
    refine evaluated.trans ?_
    cases f <;> exact .of_same rfl rfl {}
  · rw [run] at evaluated
    exact evaluated

theorem run_apply (function : Value) (names : List (Option Name)) (values : List Value) :
    Run o s (apply function names values s).2 :=
  run_atTopLevel here (Runs.law.holds_hostApply function names values)

theorem run_buildFrame (function : Value) (supplied : Supplied) :
    Run o s (buildFrame function supplied s).2 := by
  unfold buildFrame
  split
  · exact run_atTopLevel here (Runs.law.holds_hostFrame _ _ _ _)
  · exact .refl s

omit here in
theorem run_defineIn (env : EnvId) (name : Name) (v : Value) (s : Session) :
    Run o s (defineIn env name v s).2 := by
  unfold defineIn
  cases defined : s.heap.define env name v with
  | error f => exact .refl s
  | ok heap =>
    obtain ⟨alive, rfl⟩ := Heap.alive_of_define defined
    exact Change.run (.binds env name v alive {} rfl rfl)

omit here in
theorem run_registerBuiltin (b : Builtin) (alive : s.heap.contains base) :
    Run o s (registerBuiltin b s).2 := by
  change Run o s (defineIn base b.name (.builtin b.name (s.builtins.register b).1)
    { s with builtins := (s.builtins.register b).2 }).2
  obtain ⟨f, found⟩ := Option.isSome_iff_exists.mp alive
  have defined (v : Value) : s.heap.define base b.name v = .ok (s.heap.bind base b.name v) := by
    unfold Heap.define Heap.frame
    rw [found]
    rfl
  unfold defineIn
  dsimp only
  rw [defined]
  exact Change.run (.registers b _ alive {} rfl rfl)

/-- What a host does comes next in the history, as long as the base frame is there to bind builtins in. -/
theorem HostStep.run (step : HostStep s t) (alive : s.heap.contains base) : Run o s t := by
  cases step with
  | load code | makeVector c | makeDots d | makeClosure f env => exact .of_same rfl rfl {}
  | makePromise e env => exact run_atTopLevel here fun _ => Runs.rules.holds_allocate fun _ => trivial
  | evalIn e env => exact run_evalIn here e env
  | apply function names values => exact run_apply here function names values
  | force id => exact run_atTopLevel here fun _ => Runs.plain.force (Runs.evaluating _) _ _
  | buildFrame function supplied => exact run_buildFrame here function supplied
  | defineIn env name v => exact run_defineIn env name v s
  | defineGlobal name v =>
    have shared : Run o s { s with store := s.store.share v } := .of_same rfl rfl {}
    exact shared.trans (run_defineIn global name v _)
  | registerBuiltin b => exact run_registerBuiltin b alive
  | raiseInterrupt | setResolver r | clearDiagnostics | takeOutput => exact .of_same rfl rfl {}
  | collectGarbage => exact Change.run (.collects {} rfl rfl)

end Session
end CallByNeed
