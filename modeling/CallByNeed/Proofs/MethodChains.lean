import CallByNeed.Proofs.ClassChains
import CallByNeed.Proofs.MethodOrder

/-!
From a method to the next one. A method that a dispatch comes to runs under a record that keeps the state of
the dispatch, and a call for the next method goes on from there. What is said of a method when a search finds it,
or when the next one is found by going on from it, is true of every such record while it is alive. So each of
them can be accounted for: a search found the first method, and each later one was found by going on from the
one before.
-/
namespace CallByNeed

namespace DispatchContext

/-- The search for the methods of a dispatch, with those of a group or without. -/
def search (d : DispatchContext) (group : Option Name) : MethodSearch :=
  ⟨d.generic, group, d.classes, d.callEnv :: d.defEnv.toList⟩

/-- The state of a dispatch at a method it came to. -/
def reaching (d : DispatchContext) (m : CachedMethod) : DispatchContext :=
  { d with group := m.group, position := m.position }

end DispatchContext

theorem method?_of_dispatch? {r : Record} {d : DispatchContext} (dispatched : r.dispatch? = some d) :
    ∃ f, r.function? = some f ∧ r.kind.method? = some (f, d) := by
  unfold Record.dispatch? Record.function? RecordKind.method? at *
  cases kind : r.kind with
  | function env f supplied dispatch =>
    rw [kind] at dispatched
    exact ⟨f, rfl, by simp_all⟩
  | topLevel | promise | builtin =>
    rw [kind] at dispatched
    cases dispatched

namespace Session

/-- The searches that dispatches begin with: on a class chain from inside a generic, or on that of an operand
of a builtin. -/
inductive Entry (p : Session) : MethodSearch → Prop
  | generic (name : Name) (chain : VectorId) (scope : List EnvId) : Entry p (p.methodSearch name chain scope)
  | builtin (b : Builtin) (chain : VectorId) (env : EnvId) :
    Entry p ⟨b.name, b.dispatch.group?, p.store.classNames chain, [env]⟩

/-- Earlier in its history, in `p`, a search found a method. The dispatch goes on from it for the classes
that were searched for, if the search came across no promise. -/
structure Found (options : Options) (p : Session) (search : MethodSearch) (s : Session) (m : CachedMethod)
    (d : DispatchContext) : Prop where
  attained : Attained options p
  later : (start options).Run p s
  entry : Entry p search
  found : ∃ depth caller, (findMethod (eval depth) search 0 caller p).1 = .ok (some m)
  about : d.search search.group = { search with classes := d.classes }
  classes : p.Direct search → d.classes = search.classes

/-- A dispatch came to a method: the search in `p` found it, or it was found by going on from a method that
this dispatch came to. -/
inductive Chosen (options : Options) (p : Session) (search : MethodSearch) :
    Session → Value → DispatchContext → Prop
  | first {s : Session} {m : CachedMethod} {d : DispatchContext} (found : Found options p search s m d) :
    Chosen options p search s m.method (d.reaching m)
  | next {q s : Session} {f : Value} {d : DispatchContext} {m : CachedMethod} {depth : Nat}
    {caller : RecordId} (before : Chosen options p search q f d) (later : (start options).Run q s)
    (found : (findMethod (eval depth) (d.search d.group) (d.position + 1) caller q).1 = .ok (some m)) :
    Chosen options p search s m.method (d.reaching m)

/-- Some dispatch came to a method. -/
def Justified (options : Options) (s : Session) (f : Value) (d : DispatchContext) : Prop :=
  ∃ p search, Chosen options p search s f d

/-- Every method that runs is one that a dispatch came to, in the state its record tells. -/
def Accounted (options : Options) (s : Session) : Prop :=
  ∀ r ∈ s.records.live, ∀ f d, r.kind.method? = some (f, d) → Justified options s f d

variable {options : Options} {p s t : Session} {search : MethodSearch} {m : CachedMethod} {f : Value}
  {d : DispatchContext}

theorem Found.onward (found : Found options p search s m d) (run : (start options).Run s t) :
    Found options p search t m d :=
  { found with later := found.later.trans run }

theorem Chosen.onward (chosen : Chosen options p search s f d) (run : (start options).Run s t) :
    Chosen options p search t f d := by
  cases chosen with
  | first found => exact .first (found.onward run)
  | next before later found => exact .next before (later.trans run) found

/-- However far a dispatch went on, it is for the generic, the classes and the environments it began with. -/
theorem Chosen.about (chosen : Chosen options p search s f d) :
    Attained options p ∧ (start options).Run p s ∧
      d.search search.group = { search with classes := d.classes } ∧
        (p.Direct search → d.search search.group = search) := by
  induction chosen with
  | first found =>
    exact ⟨found.attained, found.later, found.about, fun direct =>
      found.about.trans (by rw [found.classes direct])⟩
  | next _ later _ ih => exact ⟨ih.1, ih.2.1.trans later, ih.2.2⟩

/-- A method is found through the group of the first search or through none. -/
theorem Chosen.group (chosen : Chosen options p search s f d) :
    d.group = none ∨ d.group = search.group := by
  induction chosen with
  | first found =>
    obtain ⟨depth, caller, found⟩ := found.found
    exact findMethod_group found
  | next _ _ found ih =>
    rcases findMethod_group found with own | grouped
    · exact .inl own
    · exact ih.imp grouped.trans grouped.trans

theorem Justified.onward (justified : Justified options s f d) (run : (start options).Run s t) :
    Justified options t f d := by
  obtain ⟨p, search, chosen⟩ := justified
  exact ⟨p, search, chosen.onward run⟩

/-- A method is at one of so many classes or the default one, or it is a builtin taken as a last resort. -/
def Within (m : CachedMethod) (classes : Nat) : Prop :=
  m.position ≤ classes ∨ ∃ name id, m.method = .builtin name id

theorem within_of_found {start : Nat} {caller : RecordId} {ev : Evaluator}
    (found : (findMethod ev search start caller s).1 = .ok (some m)) : Within m search.classes.length :=
  (findMethod_position found).imp And.right And.left

theorem Within.closure {classes : Nat} (within : Within m classes) {id : ClosureId} {g : Function}
    {definedIn : EnvId} (closure : m.method = .closure id g definedIn) : m.position ≤ classes := by
  refine within.resolve_right ?_
  rintro ⟨name, id, builtin⟩
  rw [closure] at builtin
  cases builtin

/-- A search found the method that a dispatch on the classes of an object begins with. -/
structure Selected (options : Options) (Fit : Session → Prop) (s : Session) (m : CachedMethod)
    (d : DispatchContext) : Prop where
  found : ∃ p search, Found options p search s m d
  within : d.classes ≠ [] → Within m d.classes.length
  classes : ∃ q v, Fit q ∧ d.classes = q.store.classNames (q.classOf v)

/-- What is said of the methods that run, and of the sessions they run in. It stays true as a history goes on,
and it is true of the closures that a dispatch comes to. -/
structure Warrant (options : Options) where
  /-- Of a method, in the state of the dispatch that its record tells. -/
  Says : Session → Value → DispatchContext → Prop
  /-- Of a session, whatever runs in it. -/
  Fit : Session → Prop
  onward {s t : Session} {f : Value} {d : DispatchContext} : Says s f d → (start options).Run s t → Says t f d
  undisturbed {s t : Session} : Fit s → s.Undisturbed t → Fit t
  first {s : Session} {m : CachedMethod} {d : DispatchContext} {id : ClosureId} {f : Function}
    {definedIn : EnvId} :
    Selected options Fit s m d → m.method = .closure id f definedIn → Says s m.method (d.reaching m)
  next {q s : Session} {f : Value} {d : DispatchContext} {m : CachedMethod} {depth : Nat} {caller : RecordId}
    {id : ClosureId} {g : Function} {definedIn : EnvId} : Says q f d → (start options).Run q s →
      (findMethod (eval depth) (d.search d.group) (d.position + 1) caller q).1 = .ok (some m) →
        m.method = .closure id g definedIn → Says s m.method (d.reaching m)

theorem Selected.onward {Fit : Session → Prop} (selected : Selected options Fit s m d)
    (run : (start options).Run s t) : Selected options Fit t m d := by
  obtain ⟨p, search, found⟩ := selected.found
  exact { selected with found := ⟨p, search, found.onward run⟩ }

/-- It is said of each method that runs, and of the session. -/
structure Warrant.Kept (T : Warrant options) (s : Session) : Prop where
  fit : T.Fit s
  methods : ∀ r ∈ s.records.live, ∀ f d, r.kind.method? = some (f, d) → T.Says s f d

/-- That methods are accounted for. -/
def Warrant.accounted (options : Options) : Warrant options where
  Says := Justified options
  Fit _ := True
  onward := Justified.onward
  undisturbed _ _ := trivial
  first selected _ := by
    obtain ⟨p, search, found⟩ := selected.found
    exact ⟨p, search, .first found⟩
  next := by
    rintro q s f d m depth caller id g definedIn ⟨p, search, chosen⟩ later found -
    exact ⟨p, search, .next chosen later found⟩

theorem Accounted.kept (accounted : Accounted options s) : (Warrant.accounted options).Kept s :=
  ⟨trivial, accounted⟩

section Warrant

variable {T : Warrant options}

theorem Warrant.Kept.onward (kept : T.Kept s) (run : (start options).Run s t) (undisturbed : s.Undisturbed t)
    (kinds : ∀ r ∈ t.records.live, ∃ q ∈ s.records.live, q.kind = r.kind) : T.Kept t := by
  refine ⟨T.undisturbed kept.fit undisturbed, fun r member f d runs => ?_⟩
  obtain ⟨q, there, same⟩ := kinds r member
  exact T.onward (kept.methods q there f d (same ▸ runs)) run

theorem Warrant.Kept.same (kept : T.Kept s) (run : (start options).Run s t) (undisturbed : s.Undisturbed t)
    (records : t.records = s.records) : T.Kept t :=
  kept.onward run undisturbed fun r member => ⟨r, records ▸ member, rfl⟩

end Warrant

theorem no_records_start (options : Options) : (start options).records.live = [] := by
  unfold start
  generalize ImplicitClasses.make {} = made
  rfl

theorem accounted_start (options : Options) : Accounted options (start options) := by
  unfold Accounted start
  generalize ImplicitClasses.make {} = made
  exact nofun

end Session

open Session

/-! Evaluations. -/

variable {α β : Type} {options : Options} {T : Warrant options}

/-- From a session on a computation goes on in its history, and what is said of methods is kept when it ends. -/
structure Warrants (T : Warrant options) (m : EvalM α) (s : Session) : Prop where
  run : (start options).Run s (m s).2
  kept : T.Kept (m s).2

theorem Warrants.reading {f : Session → EvalM α} {s : Session} (rest : Warrants T (f s) s) :
    Warrants T (get >>= f) s := ⟨rest.run, rest.kept⟩

theorem Warrants.andThen {m : EvalM α} {f : α → EvalM β} {s : Session} (first : Warrants T m s)
    (rest : ∀ a t, m s = (.ok a, t) → (start options).Run s t → T.Kept t → Warrants T (f a) t) :
    Warrants T (m >>= f) s := by
  obtain ⟨run, kept⟩ := first
  rcases ran : m s with ⟨u | a, t⟩
  · have same : (m >>= f) s = (.error u, t) := by rw [bind_apply, ran]
    rw [ran] at run kept
    exact ⟨same ▸ run, same ▸ kept⟩
  · have same : (m >>= f) s = f a t := by rw [bind_apply, ran]
    rw [ran] at run kept
    have next := rest a t ran run kept
    exact ⟨same ▸ run.trans next.run, same ▸ next.kept⟩

theorem Warrants.reached {m : EvalM α} {s t : Session} {r : Except Unwind α} (warrants : Warrants T m s)
    (ran : m s = (r, t)) : (start options).Run s t ∧ T.Kept t := by
  obtain ⟨run, kept⟩ := warrants
  rw [ran] at run kept
  exact ⟨run, kept⟩

/-- A computation keeps what is said of methods from `p` on. -/
def Warranting (T : Warrant options) (p : Session) (m : EvalM α) : Prop :=
  ∀ s, (start options).Run p s → T.Kept s → Warrants T m s

namespace Warranting

variable {p : Session}

theorem onward {m : EvalM α} {t : Session} (warranting : Warranting T p m) (run : (start options).Run p t) :
    Warranting T t m :=
  fun s later => warranting s (run.trans later)

theorem here {m : EvalM α} {s : Session} (warranting : Warranting T s m) (kept : T.Kept s) : Warrants T m s :=
  warranting s (.refl s) kept

theorem reading {f : Session → EvalM α} (each : ∀ s, Warranting T p (f s)) : Warranting T p (get >>= f) :=
  fun s later kept => .reading (each s s later kept)

theorem andThen {m : EvalM α} {f : α → EvalM β} (first : Warranting T p m)
    (rest : ∀ a, Warranting T p (f a)) : Warranting T p (m >>= f) :=
  fun s later kept => (first s later kept).andThen fun a t _ run kept => rest a t (later.trans run) kept

/-- A computation that leaves the records as they are. -/
theorem of_runs (begun : Attained options p) {m : EvalM α} (runs : Runs m)
    (same : ∀ s, (m s).2.records = s.records ∧ s.Undisturbed (m s).2) : Warranting T p m := fun s later kept =>
  have run := runs _ s (begun.trans later)
  ⟨run, kept.same run (same s).2 (same s).1⟩

theorem value (a : α) : Warranting T p (pure a : EvalM α) :=
  fun s _ kept => ⟨.refl s, kept⟩

/-- A computation that touches neither the records nor objects. -/
theorem apart {s t : Session} (records : t.records = s.records) (store : t.store = s.store)
    (implicit : t.implicit = s.implicit) : t.records = s.records ∧ s.Undisturbed t :=
  ⟨records, .of_same store implicit⟩

theorem undisturbed_storing {m : StoreM α} (moves : Store.Moves (Lasting.rules Frozen).Grows m) (s : Session) :
    (onStore m s).2.records = s.records ∧ s.Undisturbed (onStore m s).2 := by
  have frozen : Frozen s.ledger (onStore m s).2.ledger := (Lasting.rules Frozen).storing moves s
  have same := (onStore_session m s).1
  exact ⟨by rw [same], by rw [same], frozen⟩

variable (T) in
/-- The rules for what is said of methods. The methods that may be called are those it is said of. -/
def rules (begun : Attained options p) : Rules where
  Holds := Warranting T p
  Grounded := T.Says p
  Grows := (Lasting.rules Frozen).Grows
  evolution := (Lasting.rules Frozen).evolution
  value := value
  andThen := andThen
  failure _ := fun s _ kept => ⟨.refl s, kept⟩
  leaving _ _ := fun s _ kept => ⟨.refl s, kept⟩
  reading _ := reading
  observing first rest _ := fun s later kept =>
    have ⟨run, kept⟩ := first s later kept
    have ⟨run', kept'⟩ := rest _ _ (later.trans run) kept
    ⟨run.trans run', kept'⟩
  storing moves := of_runs begun (Runs.storing _) (undisturbed_storing moves)
  administering clerical := of_runs begun (Runs.administering clerical) fun s =>
    apart (clerical.records s) (clerical.store s) (clerical.implicit s)
  interrupting := of_runs begun Runs.rules.interrupting fun _ => apart rfl rfl rfl
  polling := of_runs begun Runs.rules.polling fun s => by
    unfold checkInterrupt
    rw [get_bind]
    split <;> exact apart rfl rfl rfl
  framing parent := of_runs begun (Runs.rules.framing parent) fun _ => apart rfl rfl rfl
  binding env name v := of_runs begun (Runs.defining env name v) fun s => by
    rw [define_apply]
    split <;> exact apart rfl rfl rfl
  outerBinding env name v := of_runs begun (Runs.assigningOuter env name v) fun s => by
    rw [updateHeap_apply]
    split <;> exact apart rfl rfl rfl
  recording parent call kind grounded := fun s later kept =>
    have run : (start options).Run s (pushRecord parent call kind s).2 := .of_same rfl rfl {}
    ⟨run, T.undisturbed kept.fit (.of_same rfl rfl), fun r member f d runs => by
      rcases List.mem_cons.mp member with rfl | old
      · exact T.onward (grounded f d runs) (later.trans run)
      · exact T.onward (kept.methods r old f d runs) run⟩
  closing id m warranting := fun s later kept =>
    have ⟨run, kept⟩ := warranting s later kept
    have released : (start options).Run (m s).2 (releasing id m s).2 := .of_same rfl rfl {}
    ⟨run.trans released, kept.onward released (.of_same rfl rfl) fun r member =>
      ⟨r, List.mem_of_mem_eraseP member, rfl⟩⟩
  flagging caller flag := fun s _ kept =>
    have run : (start options).Run s (setEagerOnly caller flag s).2 := .of_same rfl rfl {}
    ⟨run, kept.onward run (.of_same rfl rfl) fun r member => by
      obtain ⟨q, there, rfl⟩ := List.mem_map.mp member
      exact ⟨q, there, by split <;> rfl⟩⟩

theorem forcing (begun : Attained options p) : (rules T begun).Forcing where
  life := Indifferent.life
  distrusting := Lasting.distrust
  hit := of_runs begun (Runs.counting _) fun _ => apart rfl rfl rfl
  fulfilled := of_runs begun (Runs.counting _) fun _ => apart rfl rfl rfl
  givenUp := of_runs begun (Runs.counting _) fun _ => apart rfl rfl rfl

theorem planning (begun : Attained options p) : (rules T begun).Planning where
  promising := Lasting.eagerPromise
  distrusting := Lasting.distrust
  created := of_runs begun (Runs.counting _) fun _ => apart rfl rfl rfl
  aborted := of_runs begun (Runs.counting _) fun _ => apart rfl rfl rfl
  looking := reading
  simple site args := of_runs begun (Runs.planning.simple site args) fun s => by
    obtain ⟨_, run | run⟩ := simpleArgs_cases site args s <;> rw [run] <;> exact apart rfl rfl rfl
  forced f := of_runs begun (Runs.planning.forced f) fun s => by
    obtain ⟨_, run | run⟩ := forcedFormals_cases f s <;> rw [run] <;> exact apart rfl rfl rfl

variable (T) in
/-- The rules for a search, and for calls of methods that it is said of. -/
def calls (begun : Attained options p) : SearchLaw where
  toRules := rules T begun
  force := (forcing begun).holds_force
  missingProbe := (forcing begun).holds_isMissingArgument

/-- An evaluator that keeps what is said of methods does so later in the history. -/
theorem evaluates_onward {begun : Attained options p} {ev : Evaluator}
    (evaluates : (rules T begun).Evaluates ev) {t : Session} (run : (start options).Run p t) :
    (rules T (begun.trans run)).Evaluates ev :=
  fun e env caller => (evaluates e env caller).onward run

/-! Dispatch of builtins on their arguments. -/

section Internal

variable {depth : Nat} {b : Builtin} {env : EnvId} {caller : RecordId}

/-- The dispatch that an operand's method was found for. -/
def operandContext (b : Builtin) (env : EnvId) (x : OperandMethod) : DispatchContext :=
  ⟨b.name, x.found.group, x.classes, x.found.position, x.object, env, none⟩

/-- The methods found for operands are such as dispatches begin with. -/
theorem selected_operands (begun : Attained options p) (evaluates : (rules T begun).Evaluates (eval depth))
    {values : List Value} {found : List OperandMethod} {s t : Session} (later : (start options).Run p s)
    (kept : T.Kept s) (run : operandMethods (eval depth) b env caller values s = (.ok found, t)) :
    ∀ x ∈ found, Selected options T.Fit t x.found (operandContext b env x) := by
  induction values generalizing s found with
  | nil =>
    cases run
    exact nofun
  | cons v rest ih =>
    unfold operandMethods at run
    rw [get_bind] at run
    split at run
    · let search : MethodSearch := ⟨b.name, b.dispatch.group?, s.store.classNames (s.classOf v), [env]⟩
      obtain ⟨m, q, first, next⟩ := parts_of_bind run
      obtain ⟨more, r, second, last⟩ := parts_of_bind next
      obtain ⟨searched, fit⟩ :=
        ((calls T begun).holds_findClassMethod evaluates search 0 caller s later kept).reached first
      have later' := later.trans searched
      obtain ⟨others, -⟩ :=
        ((calls T begun).holds_operandMethods evaluates b env caller rest q later' fit).reached second
      cases m with
      | none =>
        cases last
        exact ih later' fit second
      | some m =>
        cases last
        have whole : (findMethod (eval depth) search 0 caller s).1 = .ok (some m) := by
          rw [findMethod_of_class first]
        have found : Found options s search t m (operandContext b env ⟨v, search.classes, m⟩) :=
          { attained := begun.trans later
            later := searched.trans others
            entry := .builtin b (s.classOf v) env
            found := ⟨depth, caller, whole⟩
            about := rfl
            classes := fun _ => rfl }
        exact List.forall_mem_cons.mpr ⟨⟨⟨s, search, found⟩, fun _ => within_of_found whole, s, v, kept.fit, rfl⟩,
          ih later' fit second⟩
    · exact ih later kept run

theorem mem_of_chooseMethod {call : Expr} {found : List OperandMethod} {x : OperandMethod} {s t : Session}
    (chosen : chooseMethod b call caller found s = (.ok (some x), t)) : x ∈ found := by
  unfold chooseMethod at chosen
  split at chosen
  · cases chosen
  · cases chosen
    exact List.mem_cons_self
  · split at chosen
    · cases chosen
      exact List.mem_cons_self
    · rw [bind_apply, ensureLazy_apply] at chosen
      split at chosen <;> cases chosen

theorem dispatchInternal (begun : Attained options p) (evaluates : (rules T begun).Evaluates (eval depth))
    (call : Expr) (names : List (Option Name)) (values : List Value) :
    Warranting T p (dispatchInternal (eval depth) b call names values env caller) := by
  intro s later kept
  refine Warrants.andThen ((calls T begun).holds_operandMethods evaluates b env caller _ s later kept)
    fun found t searched run fit => ?_
  have selected := selected_operands begun evaluates later kept searched
  refine Warrants.andThen ((calls T begun).holds_chooseMethod b call caller found t (later.trans run) fit)
    fun chosen u chose run' kept => ?_
  have later := (later.trans run).trans run'
  cases chosen with
  | none => exact value _ u later kept
  | some x =>
    obtain ⟨object, classes, m⟩ := x
    have from_dispatch := (selected _ (mem_of_chooseMethod chose)).onward run'
    dsimp only at from_dispatch ⊢
    split
    · rename_i id f definedIn closure
      let L := calls T (begun.trans later)
      refine here ?_ kept
      exact L.andThen (L.holds_modifyStore (Store.shareAll_moves values)) fun _ =>
        L.holds_map _ (L.holds_invokeClosure (evaluates_onward evaluates later) _ _ _ _ _ _ fun d same => by
          cases same
          exact closure ▸ T.first from_dispatch closure)
    · exact value _ u later kept

end Internal

variable (T) in
def law (begun : Attained options p) : Law where
  toSearchLaw := calls T begun
  internal evaluates _ call names values _ _ := dispatchInternal begun evaluates call names values

/-! Dispatch from inside a generic. -/

section Dispatch

variable {s : Session} {generic : Name} {chain : VectorId} {scope : List EnvId} {d : DispatchContext}

/-- What a call site remembers was found by a search. The class chain may have got longer in its course, but
not shorter, and the names it had then are those that the call site goes by. -/
theorem found_of_hit (attained : Attained options s) (somewhere : scope ≠ []) {site : NodeId}
    {m : CachedMethod}
    (about : d.search (s.methodSearch generic chain scope).group = s.methodSearch generic chain scope)
    (hit : ((s.site site).cache.lookup generic [s.classView chain] (s.stamp scope)).1 = some m) :
    (∃ p search, Found options p search s m d) ∧ (d.classes ≠ [] → Within m d.classes.length) := by
  rcases attained.recalls ((DispatchCache.lookup_recalls rfl).1 m hit) with searched | dispatched
  · obtain ⟨scope', somewhere', ⟨depth, caller, origin, p, q, found⟩, kept, stamp, names⟩ := searched
    obtain rfl : scope = scope' := congrArg Stamp.scope stamp
    have begun : Attained options p := kept.begun
    have later : (start options).Run p s := kept.later somewhere'
    have same_generic : d.generic = generic := congrArg MethodSearch.generic about
    have same_scope : d.callEnv :: d.defEnv.toList = scope := congrArg MethodSearch.scope about
    have current : d.classes = s.store.classNames chain := congrArg MethodSearch.classes about
    have classes : d.classes = q.store.classNames origin := current.trans (List.cons.inj names).1
    refine ⟨⟨p, p.methodSearch generic origin scope, begun, later, .generic generic origin scope,
      ⟨depth, caller, congrArg Prod.fst found⟩, ?_, fun direct => ?_⟩, fun named => ?_⟩
    · unfold DispatchContext.search methodSearch
      rw [same_generic, same_scope]
    · -- The class names stored are those after the search, and without promises it left `p` as it was.
      have left := direct.unchanged (Attained.tidy begun).base (eval depth) 0 caller
      rw [found] at left
      subst left
      exact classes
    · let search := p.methodSearch generic origin scope
      have widened : Widening p.ledger (findMethod (eval depth) search 0 caller p).2.ledger :=
        (Lawful.law Widening).holds_findMethod ((Lawful.law Widening).evaluates_eval depth) search 0 caller p
      rw [found] at widened
      have longer := (widened.classNames origin).resolve_left (classes ▸ named)
      rw [classes]
      exact (findMethod_position (congrArg Prod.fst found)).imp (fun within => Nat.le_trans within.2 longer)
        And.left
  · -- Dispatches on formal classes store with no scope.
    obtain ⟨q, p, name, g, chains, site, -, -, -, -, -, -, stamp, -⟩ := dispatched
    exact absurd (congrArg Stamp.scope stamp) somewhere

variable {depth : Nat}

/-- A method that a call site does not remember is searched for and then remembered. -/
theorem selectingAnew (begun : Attained options p) (evaluates : (rules T begun).Evaluates (eval depth))
    (somewhere : scope ≠ []) (c : SpecialCall) (later : (start options).Run p s) (kept : T.Kept s) :
    let search := s.methodSearch generic chain scope
    Warrants T (selectAnew (eval depth) search chain c (s.stamp scope) none) s ∧
      ∀ m t, selectAnew (eval depth) search chain c (s.stamp scope) none s = (.ok m, t) →
        ∀ d : DispatchContext, d.search search.group = search →
          (∃ p search, Found options p search t m d) ∧ (d.classes ≠ [] → Within m d.classes.length) := by
  intro search
  let counted := { s with stats := { s.stats with classSearches := s.stats.classSearches + 1 } }
  have counts : (start options).Run s counted := .of_same rfl rfl {}
  have here : Attained options counted := begun.trans (later.trans counts)
  have fit : T.Kept counted := kept.same counts (.of_same rfl rfl) rfl
  have searching : Warrants T (findMethod (eval depth) search 0 c.caller) counted :=
    (calls T begun).holds_findMethod evaluates search 0 c.caller counted (later.trans counts) fit
  have remembering {m : CachedMethod} {t : Session}
      (found : findMethod (eval depth) search 0 c.caller counted = (.ok (some m), t)) :
      (start options).Run t (t.setSite c.call.id fun known =>
        { known with cache := known.cache.insert generic [t.classView chain] (s.stamp scope) m }) :=
    .remembered (p := counted) generic chain scope somewhere c.call.id (.refl t) here
      (searching.reached found).1 found
  constructor
  · have counting : Warrants T (count fun n => { n with classSearches := n.classSearches + 1 }) s :=
      ⟨counts, fit⟩
    refine counting.andThen fun _ t ran _ _ => ?_
    cases ran
    refine searching.andThen fun found t searched run kept => ?_
    cases found with
    | none => exact ⟨.refl t, kept⟩
    | some m => exact ⟨remembering searched, kept.same (remembering searched) (.of_same rfl rfl) rfl⟩
  · intro m t run d about
    obtain ⟨_, _, counted, next⟩ := parts_of_bind run
    cases counted
    obtain ⟨found, q, searched, last⟩ := parts_of_bind next
    cases found with
    | none => cases last
    | some n =>
      cases last
      have classes : d.classes = search.classes := congrArg MethodSearch.classes about
      refine ⟨⟨_, search, {
        attained := here
        later := (searching.reached searched).1.trans (remembering searched)
        entry := .generic generic chain scope
        found := ⟨depth, c.caller, congrArg Prod.fst searched⟩
        about := about.trans (by rw [classes])
        classes := fun _ => classes }⟩, ?_⟩
      rw [classes]
      exact fun _ => within_of_found (congrArg Prod.fst searched)

/-- A call site selects methods that searches found. -/
theorem selecting (begun : Attained options p) (evaluates : (rules T begun).Evaluates (eval depth))
    (somewhere : scope ≠ []) (c : SpecialCall) (later : (start options).Run p s) (kept : T.Kept s) :
    let search := s.methodSearch generic chain scope
    Warrants T (selectMethod (eval depth) search chain c) s ∧
      ∀ m t, selectMethod (eval depth) search chain c s = (.ok m, t) →
        ∀ d : DispatchContext, d.search search.group = search →
          (∃ p search, Found options p search t m d) ∧ (d.classes ≠ [] → Within m d.classes.length) := by
  intro search
  let consulted := consultCache search chain c.call.id s
  have consults : (start options).Run s consulted.2 :=
    Change.run (.consults c.call.id generic [s.classView chain] (s.stamp scope))
  have kept : T.Kept consulted.2 := kept.same consults (.of_same rfl rfl) rfl
  have ran : selectMethod (eval depth) search chain c s =
      selectAnew (eval depth) search chain c (s.stamp scope) consulted.1.2 consulted.2 := rfl
  rcases hit : consulted.1.2 with - | m
  · rw [hit] at ran
    obtain ⟨selects, founds⟩ := selectingAnew begun evaluates somewhere c (later.trans consults) kept
    exact ⟨⟨ran ▸ consults.trans selects.run, ran ▸ selects.kept⟩, fun m t run =>
      founds m t (ran ▸ run)⟩
  · rw [hit] at ran
    change selectMethod (eval depth) search chain c s = (.ok m, consulted.2) at ran
    refine ⟨⟨ran ▸ consults, ran ▸ kept⟩, fun n t run d about => ?_⟩
    cases ran.symm.trans run
    obtain ⟨⟨p, search, found⟩, within⟩ := found_of_hit (begun.trans later) somewhere about hit
    exact ⟨⟨p, search, found.onward consults⟩, within⟩

theorem dispatching (begun : Attained options p) (evaluates : (rules T begun).Evaluates (eval depth))
    (generic : Name) (frame : Record) (env definedIn : EnvId) (c : SpecialCall) (object : Value) :
    Warranting T p (dispatchOn (eval depth) generic frame env definedIn c object) := by
  intro s later kept
  refine .reading ?_
  obtain ⟨selects, founds⟩ := selecting begun evaluates (List.cons_ne_nil _ _) c later kept
  refine selects.andThen fun m t ran run fit => ?_
  obtain ⟨found, within⟩ := founds m t ran
    ⟨generic, m.group, s.store.classNames (s.classOf object), m.position, object, _, some definedIn⟩ rfl
  let L := law T (begun.trans (later.trans run))
  refine here (L.andThen (L.holds_callMethod_of (evaluates_onward evaluates (later.trans run)) _ _ _
    fun _ _ _ closure => ?_) fun _ => L.leaving _ _) fit
  exact T.first ⟨found, within, s, object, kept.fit, rfl⟩ closure

theorem usingMethod (begun : Attained options p) (evaluates : (rules T begun).Evaluates (eval depth))
    (generic : Name) (object : Option Value) (c : SpecialCall) :
    Warranting T p (useMethod (eval depth) generic object c) :=
  (law T begun).holds_useMethod_of evaluates (fun frame env definedIn =>
    dispatching begun evaluates generic frame env definedIn c) object

end Dispatch

variable {depth : Nat}

theorem goingOn (begun : Attained options p) (evaluates : (rules T begun).Evaluates (eval depth))
    (c : SpecialCall) : Warranting T p (nextMethod (eval depth) c) := by
  intro s later kept
  refine .reading ?_
  dsimp only
  split
  · rename_i frame d runs dispatched
    rw [runs] at dispatched
    obtain ⟨f, -, method⟩ := method?_of_dispatch? dispatched
    have said := kept.methods frame (Records.mem_of_logicalFunction runs) f d method
    refine Warrants.andThen ((calls T begun).holds_findMethod evaluates (d.search d.group) (d.position + 1)
      c.caller s later kept) fun found t searched run kept => ?_
    cases found with
    | none => exact (rules T begun).failure _ t (later.trans run) kept
    | some m =>
      let L := law T (begun.trans (later.trans run))
      exact here (L.andThen (L.holds_addExtraArgs _ _ _ _) fun _ =>
        L.holds_callMethod_of (evaluates_onward evaluates (later.trans run)) _ _ _ fun _ _ _ closure =>
          T.next said run (congrArg Prod.fst searched) closure) kept
  · exact (rules T begun).failure _ s later kept

/-- A dispatch on formal classes opens no record that a call for the next method could go on from. -/
theorem formally (begun : Attained options p) (evaluates : (rules T begun).Evaluates (eval depth))
    (name : Name) (c : SpecialCall) : Warranting T p (standardGeneric (eval depth) name c) := by
  intro s later kept
  refine .reading ?_
  split
  · exact (rules T begun).failure _ s later kept
  · rename_i g known
    dsimp only
    split
    · refine Warrants.andThen ((law T begun).holds_signatureChains evaluates _ _ _ s later kept)
        fun chains t _ run kept => ?_
      have selected : (start options).Run t (selectFormal g chains c.call.id t).2 :=
        .dispatched chains c.call.id (.refl t) (begun.trans later) known run
      have selects : Warrants T (selectFormal g chains c.call.id) t :=
        ⟨selected, kept.same selected (.of_same rfl rfl) rfl⟩
      refine selects.andThen fun result u _ run' kept => ?_
      refine onward ?_ ((later.trans run).trans run') u (.refl u) kept
      split
      · exact (law T begun).holds_invokeClosure evaluates _ _ _ _ _ _ nofun
      · exact (law T begun).holds_callDefaultMethod evaluates _ _ _ _ _
      · exact (law T begun).holds_callDefaultMethod evaluates _ _ _ _ _
      · exact reading fun _ => (rules T begun).failure _
    · exact (rules T begun).failure _ s later kept

variable (T) in
def chainLaw (begun : Attained options p) : CallLaw where
  toLaw := law T begun
  arguments evaluates := (planning begun).holds_arguments evaluates
  useMethod evaluates := usingMethod begun evaluates
  nextMethod evaluates := goingOn begun evaluates
  standardGeneric evaluates := formally begun evaluates

variable (T) in
theorem evaluating (begun : Attained options p) (depth : Nat) : (rules T begun).Evaluates (eval depth) :=
  (chainLaw T begun).evaluates_eval depth

end Warranting

namespace Session

variable {s t : Session}

/-! Hosts. -/

theorem defineIn_records (env : EnvId) (name : Name) (v : Value) (s : Session) :
    (defineIn env name v s).2.records = s.records := by
  unfold defineIn
  cases s.heap.define env name v <;> rfl

theorem defineIn_implicit (env : EnvId) (name : Name) (v : Value) (s : Session) :
    (defineIn env name v s).2.implicit = s.implicit := by
  unfold defineIn
  cases s.heap.define env name v <;> rfl

section Hosts

variable (attained : Attained options s) (kept : T.Kept s)
include attained kept

theorem kept_atTopLevel {m : RecordId → EvalM α} (each : ∀ top, Warranting T s (m top)) :
    T.Kept (atTopLevel m s).2 := by
  rw [atTopLevel_session]
  exact (((Warranting.rules T attained).holds_underRecord rfl each).here kept).kept

theorem kept_evalIn (e : Expr) (env : EnvId) : T.Kept (evalIn e env s).2 := by
  have evaluated : T.Kept (atTopLevel (eval nestingLimit e env) s).2 :=
    kept_atTopLevel attained kept fun top => Warranting.evaluating T attained _ e env top
  unfold evalIn
  rcases ran : atTopLevel (eval nestingLimit e env) s with ⟨f | v, t⟩
  · rw [ran] at evaluated
    have reported : (start options).Run t (t.reportFailure f) := by cases f <;> exact .of_same rfl rfl {}
    exact evaluated.same reported (by cases f <;> exact .of_same rfl rfl) (by cases f <;> rfl)
  · rw [ran] at evaluated
    exact evaluated

theorem kept_buildFrame (function : Value) (supplied : Supplied) : T.Kept (buildFrame function supplied s).2 := by
  unfold buildFrame
  split
  · exact kept_atTopLevel attained kept ((Warranting.chainLaw T attained).holds_hostFrame _ _ _ _)
  · exact kept

/-- Whatever a host does, what is said of methods is kept. -/
theorem kept_hostStep (step : HostStep s t) : T.Kept t := by
  have run := HostStep.run attained step (Attained.tidy attained).base
  have same (records : t.records = s.records) (implicit : t.implicit = s.implicit) : T.Kept t :=
    kept.same run ⟨implicit, keeps_hostStep step⟩ records
  cases step with
  | load code | makeVector c | makeDots d | makeClosure f env => exact same rfl rfl
  | makePromise e env =>
    exact kept_atTopLevel attained kept fun _ =>
      (Warranting.rules T attained).holds_allocate (Store.Evolution.lazyPromise _ _ _ _)
  | evalIn e env => exact kept_evalIn attained kept e env
  | apply function names values =>
    exact kept_atTopLevel attained kept
      ((Warranting.chainLaw T attained).holds_hostApply function names values)
  | force id =>
    exact kept_atTopLevel attained kept fun _ =>
      (Warranting.calls T attained).force (Warranting.evaluating T attained _) _ _
  | buildFrame function supplied => exact kept_buildFrame attained kept function supplied
  | defineIn env name v => exact same (defineIn_records env name v s) (defineIn_implicit env name v s)
  | defineGlobal name v => exact same (defineIn_records global name v _) (defineIn_implicit global name v _)
  | registerBuiltin b => exact same (defineIn_records base b.name _ _) (defineIn_implicit base b.name _ _)
  | raiseInterrupt | setResolver r | clearDiagnostics | takeOutput | collectGarbage => exact same rfl rfl

end Hosts

end Session
end CallByNeed
