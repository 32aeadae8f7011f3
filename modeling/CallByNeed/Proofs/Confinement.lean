import CallByNeed.Proofs.Law
import CallByNeed.Proofs.Running

/-!
Evaluation under a record that is flagged for eager evaluation only. Nothing runs there that could
leave a function, since every call of a closure, every forcing and every builtin with effects gives up
first. The records that are alive stay alive, and those flagged stay flagged. What else is kept depends
on what builtins without effects do and is left open here. Runs are followed for a family of evaluators at
once: where each gives up before it could enter anything, they all end alike.
-/
namespace CallByNeed

variable {α β ι : Type}

/-- Builtins without effects get their arguments evaluated. -/
def Registry.PureStrict (r : Registry) : Prop :=
  ∀ (id : Nat) (b : Builtin), r.functions[id]? = some b → b.isPure = true → b.isStrict = true

theorem Registry.standard_pureStrict : Registry.standard.PureStrict := by
  have all : ∀ b ∈ Registry.standard.functions.toList, b.isPure = true → b.isStrict = true := by
    decide +kernel
  intro id b found
  exact all b (Array.mem_toList_iff.mpr (Array.mem_of_getElem? found))

namespace Records

/-- A record is found by its number, whatever is done to the flags. -/
theorem find?_flagged (flag : Record → Bool) (rs : List Record) (id : RecordId) :
    (rs.map fun r => { r with eagerOnly := flag r }).find? (·.id = id) =
      (rs.find? (·.id = id)).map fun r => { r with eagerOnly := flag r } :=
  List.find?_map

/-- The same records alive, of which none made so far changes. More numbers may be given out, and
flagged. -/
def Raised (rs rs' : Records) : Prop :=
  rs.next ≤ rs'.next ∧ ∃ p : RecordId → Bool, (∀ id, p id = true → rs.next ≤ id.index) ∧
    rs'.live = rs.live.map fun r => { r with eagerOnly := r.eagerOnly || p r.id }

theorem Raised.refl (rs : Records) : rs.Raised rs := by
  refine ⟨Nat.le_refl _, fun _ => false, nofun, ?_⟩
  simp

theorem Raised.trans {rs rs' rs'' : Records} (first : rs.Raised rs') (second : rs'.Raised rs'') :
    rs.Raised rs'' := by
  obtain ⟨later, p, first, raised⟩ := first
  obtain ⟨later', q, second, raised'⟩ := second
  refine ⟨Nat.le_trans later later', fun id => p id || q id, fun id flagged => ?_, ?_⟩
  · rcases Bool.or_eq_true_iff.mp flagged with flagged | flagged
    · exact first id flagged
    · exact Nat.le_trans later (second id flagged)
  · rw [raised', raised, List.map_map]
    refine List.map_congr_left fun r _ => ?_
    simp [Bool.or_assoc]

theorem Raised.contains {rs rs' : Records} (raised : rs.Raised rs') (id : RecordId) :
    rs'.contains id = rs.contains id := by
  obtain ⟨_, p, _, raised⟩ := raised
  unfold Records.contains get?
  rw [raised, find?_flagged, Option.isSome_map]

theorem Raised.eagerOnly {rs rs' : Records} (raised : rs.Raised rs') {id : RecordId}
    (flagged : rs.eagerOnly id = true) : rs'.eagerOnly id = true := by
  obtain ⟨_, p, _, raised⟩ := raised
  unfold Records.eagerOnly get? at flagged ⊢
  rw [raised, find?_flagged]
  cases found : rs.live.find? (·.id = id) with
  | none => simp [found] at flagged
  | some r =>
    have flag : r.eagerOnly = true := by simpa [found] using flagged
    simp [flag]

theorem contains_setEagerOnly (rs : Records) (c id : RecordId) (flag : Bool) :
    (rs.setEagerOnly c flag).contains id = rs.contains id := by
  unfold Records.contains
  rw [get?_setEagerOnly, Option.isSome_map]

theorem setEagerOnly_live (id : RecordId) (rs : Records) :
    (rs.setEagerOnly id true).live =
      rs.live.map fun r => { r with eagerOnly := r.eagerOnly || decide (r.id = id) } := by
  unfold setEagerOnly
  refine List.map_congr_left fun r _ => ?_
  by_cases same : r.id = id
  · simp [same]
  · simp [same]

theorem eagerOnly_setEagerOnly {rs : Records} {id : RecordId} (alive : rs.contains id = true) :
    (rs.setEagerOnly id true).eagerOnly id = true := by
  unfold Records.contains get? at alive
  unfold Records.eagerOnly get?
  rw [setEagerOnly_live, find?_flagged]
  cases found : rs.live.find? (·.id = id) with
  | none => simp [found] at alive
  | some r =>
    have same : r.id = id := by simpa using List.find?_some found
    simp [same]

/-- A record pushed, flagged and released again, while the records were only raised in between. -/
theorem raised_release {rs rs' : Records} (parent : Option RecordId) (call : Option Expr)
    (kind : RecordKind)
    (raised : ((rs.push parent call kind).2.setEagerOnly ⟨rs.next⟩ true).Raised rs') :
    rs.Raised (rs'.release ⟨rs.next⟩) := by
  obtain ⟨later, p, fresh, raised⟩ := raised
  rw [setEagerOnly_live] at raised
  refine ⟨Nat.le_of_succ_le later, fun id => decide (id = ⟨rs.next⟩) || p id, fun id flagged => ?_, ?_⟩
  · rcases Bool.or_eq_true_iff.mp flagged with own | flagged
    · exact Nat.le_of_eq (congrArg RecordId.index (of_decide_eq_true own)).symm
    · exact Nat.le_of_succ_le (fresh id flagged)
  · unfold release
    dsimp only
    rw [raised]
    simp [push, Bool.or_assoc]

end Records

/-- What evaluation under a flagged record keeps to: which builtins there are, what those without effects
do, and how a session may change. Call records are apart from that. -/
structure Restraint where
  allows : Registry → Prop
  permits : StrictOp → Prop
  /-- How a session may change in a run, which comes to a value or does not. -/
  relates : Bool → Session → Session → Prop
  strict {r : Registry} {id : Nat} {b : Builtin} (allowed : allows r)
    (found : r.functions[id]? = some b) (effects : b.isPure = true) :
    ∃ op, b.operation = .strict op ∧ permits op
  refl {done : Bool} (s : Session) : relates done s s
  trans {done : Bool} {s t u : Session} : relates true s t → relates done t u → relates done s u
  records {done : Bool} {s t : Session} (rs rs' : Records) :
    relates done s t → relates done { s with records := rs } { t with records := rs' }
  lowers (s : Session) : relates true s { s with interrupt := false }
  shares (values : List Value) (s : Session) :
    relates true s { s with store := s.store.shareAll values }
  takes {id : PromiseId} {env : EnvId} {s t : Session} {found : Option Value}
    (waiting : (s.store.promise id).state = .unevaluated env)
    (taken : takeEagerValue id s = (.ok found, t)) : relates found.isSome s t

/-- The same call sites are trusted. -/
def Store.Trusting (s t : Store) : Prop := t.distrusted = s.distrusted

namespace Store.Trusting

theorem raise (f : Sharing → Sharing) (v : Value) (s : Store) : s.Trusting (s.setSharing f v) := by
  cases v <;> rfl

instance : Store.Evolution Trusting where
  refl _ := rfl
  trans first second := second.trans first
  addVector _ _ := rfl
  raise f _ := raise f
  addDots _ _ := rfl
  freshNode _ := rfl
  closure _ _ _ := rfl
  evaluatedPromise _ _ _ _ := rfl
  lazyPromise _ _ _ _ _ := rfl
  write _ _ _ _ _ _ := rfl

end Store.Trusting

/-- What every evaluation under a flagged record keeps. No call site loses trust in one that comes to a
value: where a promise's value turns out stale, the evaluation gives up. -/
def Restraint.loose : Restraint where
  allows := Registry.PureStrict
  permits _ := True
  relates done s t := done = true → s.store.Trusting t.store
  strict {r id b} allowed found effects := by
    have strict := allowed id b found effects
    unfold Builtin.isStrict at strict
    split at strict
    · rename_i op operation
      exact ⟨op, operation, trivial⟩
    · cases strict
  refl _ _ := rfl
  trans first second done := Store.Chained.trans (first rfl) (second done)
  records _ _ trusting := trusting
  lowers _ _ := rfl
  shares values s _ := Store.shareAll_moves (R := Store.Trusting) values s.store
  takes {id _ s t found} _ taken used := by
    rcases takeEagerValue_cases id s with ⟨_, run⟩ | ⟨eager, _, _, ⟨_, run⟩ | run⟩
    · cases run.symm.trans taken
      cases used
    · cases run.symm.trans taken
      exact Store.share_moves (R := Store.Trusting) eager.value s.store
    · cases run.symm.trans taken
      cases used

namespace Restraint

variable (K : Restraint)

/-- A session and the end of a run under a flagged record, which leaves no function and keeps the
builtins and the records. -/
structure Follows (s : Session) (r : Except Unwind α × Session) : Prop where
  stays (target : EnvId) (v : Value) : r.1 ≠ .error (.leave target v)
  builtins : r.2.builtins = s.builtins
  raised : s.records.Raised r.2.records
  relates : K.relates r.1.isOk s r.2

/-- Computations that run alike from a session, to an end that follows. -/
def Ends (s : Session) (m : ι → EvalM α) : Prop := ∃ r, (∀ i, m i s = r) ∧ K.Follows s r

/-- Computations that run alike under a flagged record, each to an end that follows. -/
def Confines (caller : RecordId) (m : ι → EvalM α) : Prop :=
  ∀ s : Session, K.allows s.builtins → s.records.eagerOnly caller = true → K.Ends s m

/-- The permitted operations of builtins are confined. -/
def Runs (ev : ι → Evaluator) : Prop :=
  ∀ op args env caller, K.permits op →
    K.Confines caller fun i => runStrict (ev i) op ⟨args, env, caller⟩

variable {K} {s : Session} {caller : RecordId}

/-- The end of a run that keeps builtins and records. -/
theorem ends_of_same {m : ι → EvalM α} (r : Except Unwind α) (t : Session)
    (run : ∀ i, m i s = (r, t)) (stays : ∀ target v, r ≠ .error (.leave target v))
    (builtins : t.builtins = s.builtins) (records : t.records = s.records)
    (relates : K.relates r.isOk s t) : K.Ends s m := by
  refine ⟨(r, t), run, stays, builtins, ?_, relates⟩
  rw [records]
  exact Records.Raised.refl _

theorem Ends.andThen {m : ι → EvalM α} {f : ι → α → EvalM β} (first : K.Ends s m)
    (rest : ∀ a, K.Confines caller fun i => f i a) (allowed : K.allows s.builtins)
    (flagged : s.records.eagerOnly caller = true) : K.Ends s fun i => m i >>= f i := by
  obtain ⟨⟨r, t⟩, run, stays, builtins, raised, relates⟩ := first
  cases r with
  | error u =>
    have stopped (i : ι) : (m i >>= f i) s = (.error u, t) := by rw [bind_apply, run]
    refine ⟨(.error u, t), stopped, fun target v same => ?_, builtins, raised, relates⟩
    cases same
    exact stays target v rfl
  | ok a =>
    have allowed' : K.allows t.builtins := by
      rw [builtins]
      exact allowed
    obtain ⟨r', run', stays', builtins', raised', relates'⟩ :=
      rest a t allowed' (raised.eagerOnly flagged)
    have onward (i : ι) : (m i >>= f i) s = r' := by
      rw [bind_apply, run]
      exact run' i
    exact ⟨r', onward, stays', builtins'.trans builtins, raised.trans raised', K.trans relates relates'⟩

namespace Confines

/-- A computation by itself. -/
theorem follows {m : EvalM α} (confined : K.Confines caller fun _ : Unit => m) (s : Session)
    (allowed : K.allows s.builtins) (flagged : s.records.eagerOnly caller = true) :
    K.Follows s (m s) := by
  obtain ⟨_, run, follows⟩ := confined s allowed flagged
  cases run ()
  exact follows

theorem value (a : α) : K.Confines caller fun _ : ι => (pure a : EvalM α) :=
  fun s _ _ => ends_of_same (.ok a) s (fun _ => rfl) (fun _ _ => nofun) rfl rfl (K.refl s)

theorem failure (f : Failure) : K.Confines caller fun _ : ι => (fail f : EvalM α) :=
  fun s _ _ => ends_of_same (.error (.failure f)) s (fun _ => rfl) (fun _ _ => nofun) rfl rfl (K.refl s)

theorem update {f : Session → Session} (builtins : ∀ s, (f s).builtins = s.builtins)
    (records : ∀ s, (f s).records = s.records) (relates : ∀ s, K.relates true s (f s)) :
    K.Confines caller fun _ : ι => (modify f : EvalM Unit) :=
  fun s _ _ =>
    ends_of_same (.ok ()) (f s) (fun _ => rfl) (fun _ _ => nofun) (builtins s) (records s) (relates s)

theorem reading {f : ι → Session → EvalM α} (confined : ∀ s, K.Confines caller fun i => f i s) :
    K.Confines caller fun i => get >>= f i := fun s => confined s s

theorem andThen {m : ι → EvalM α} {f : ι → α → EvalM β} (first : K.Confines caller m)
    (rest : ∀ a, K.Confines caller fun i => f i a) : K.Confines caller fun i => m i >>= f i :=
  fun s allowed flagged => (first s allowed flagged).andThen rest allowed flagged

theorem branch {c : Prop} [Decidable c] {m m' : ι → EvalM α} (yes : K.Confines caller m)
    (no : K.Confines caller m') : K.Confines caller fun i => if c then m i else m' i := by
  by_cases holds : c
  · simpa only [if_pos holds] using yes
  · simpa only [if_neg holds] using no

theorem either {c : Prop} [Decidable c] {m m' : ι → EvalM β} {k : ι → β → EvalM α}
    (first : K.Confines caller m) (second : K.Confines caller m')
    (rest : ∀ b, K.Confines caller fun i => k i b) :
    K.Confines caller fun i => if c then m i >>= k i else m' i >>= k i :=
  branch (first.andThen rest) (second.andThen rest)

theorem map {m : ι → EvalM α} (f : α → β) (confined : K.Confines caller m) :
    K.Confines caller fun i => f <$> m i := by
  simp only [map_eq_pure_bind]
  exact confined.andThen fun a => value (f a)

theorem storing {m : StoreM α}
    (relates : ∀ done s, K.relates done s { s with store := (m s.store).2 }) :
    K.Confines caller fun _ : ι => onStore m := by
  intro s _ _
  have relates := fun done => relates done s
  rcases run : m s.store with ⟨r, store⟩
  rw [run] at relates
  cases r with
  | error f =>
    refine ends_of_same (.error (.failure f)) { s with store } (fun _ => ?_) (fun _ _ => nofun) rfl rfl
      (relates false)
    rw [onStore_apply, run]
  | ok a =>
    refine ends_of_same (.ok a) { s with store } (fun _ => ?_) (fun _ _ => nofun) rfl rfl (relates true)
    rw [onStore_apply, run]

theorem allocating {m : Alloc α} (relates : ∀ s, K.relates true s { s with store := (m s.store).2 }) :
    K.Confines caller fun _ : ι => allocate m :=
  fun s _ _ => ends_of_same _ _ (fun _ => rfl) (fun _ _ => nofun) rfl rfl (relates s)

theorem lifting (r : Except Failure α) : K.Confines caller fun _ : ι => liftExcept r := by
  cases r with
  | ok a => exact value a
  | error f => exact failure f

theorem failing (condition : Bool) (f : Failure) :
    K.Confines caller fun _ : ι => failIf condition f := branch (failure f) (value ())

theorem failingAt (record : RecordId) (f : Failure) :
    K.Confines caller fun _ : ι => (failAt record f : EvalM α) := reading fun _ => failure _

theorem readingHeap (f : Heap → Except Failure α) : K.Confines caller fun _ : ι => readHeap f := by
  refine reading fun s => ?_
  cases f s.heap with
  | ok a => exact value a
  | error e => exact failure e

theorem polling : K.Confines caller fun _ : ι => checkInterrupt :=
  reading fun _ => branch
    (andThen (update (fun _ => rfl) (fun _ => rfl) K.lowers) fun _ => failure _) (value ())

/-- What needs lazy evaluation gives up. -/
theorem guarded (f : ι → Unit → EvalM α) : K.Confines caller fun i => ensureLazy caller >>= f i := by
  intro s _ flagged
  refine ends_of_same (.error (.failure .cannotOptimize)) s (fun i => ?_) (fun _ _ => nofun) rfl rfl
    (K.refl s)
  rw [bind_apply, ensureLazy_apply, flagged]
  rfl

variable {ev : ι → Evaluator}

/-! Variables. -/

theorem force (id : PromiseId) : K.Confines caller fun i => force (ev i) id caller := by
  intro s allowed flagged
  unfold Ends
  simp only [CallByNeed.force, get_bind]
  cases state : (s.store.promise id).state with
  | evaluated v => exact value v s allowed flagged
  | underEvaluation env => exact branch (failingAt _ _) (value _) s allowed flagged
  | unevaluated env =>
    obtain ⟨found, t, run, builtins, records⟩ : ∃ found t, takeEagerValue id s = (.ok found, t) ∧
        t.builtins = s.builtins ∧ t.records = s.records := by
      rcases takeEagerValue_cases id s with ⟨_, run⟩ | ⟨eager, _, _, ⟨_, run⟩ | run⟩
      all_goals exact ⟨_, _, run, rfl, rfl⟩
    have relates := K.takes state run
    dsimp only
    cases found with
    | some v =>
      refine ends_of_same (.ok v) t (fun i => ?_) (fun _ _ => nofun) builtins records relates
      rw [bind_apply, run]
      rfl
    | none =>
      refine ends_of_same (.error (.failure .cannotOptimize)) t (fun i => ?_) (fun _ _ => nofun) builtins
        records relates
      rw [bind_apply, run]
      dsimp only
      rw [bind_apply, ensureLazy_apply, records, flagged]
      rfl

theorem forceValue (v : Value) : K.Confines caller fun i => forceValue (ev i) v caller := by
  cases v with
  | promise id => exact force id
  | _ => exact value _

theorem forceAll (values : List Value) : K.Confines caller fun i => forceAll (ev i) caller values := by
  induction values with
  | nil => exact value _
  | cons v rest ih => exact andThen (forceValue v) fun _ => andThen ih fun _ => value _

theorem resolveBinding (name : Name) (v : Value) :
    K.Confines caller fun i => resolveBinding (ev i) name v caller := by
  cases v with
  | missing | dots _ => exact failingAt _ _
  | promise id => exact force id
  | _ => exact value _

theorem readDotIndex (name : Name) (env : EnvId) :
    K.Confines caller fun i => readDotIndex (ev i) name env caller := by
  refine andThen (readingHeap _) fun found => ?_
  rcases found with _ | ⟨place, v⟩
  · exact failingAt _ _
  · cases v with
    | dots id =>
      refine reading fun s => ?_
      dsimp only
      cases if Name.dotIndex name = 0 then none else (s.store.dotsAt id).values[Name.dotIndex name - 1]? with
      | some v => exact resolveBinding name v
      | none => exact failingAt _ _
    | _ => exact failingAt _ _

theorem readVariable (name : Name) (env : EnvId) :
    K.Confines caller fun i => readVariable (ev i) name env caller := by
  refine branch (failingAt _ _) (branch (readDotIndex name env) (andThen (readingHeap _) fun found => ?_))
  rcases found with _ | ⟨place, v⟩
  · exact failingAt _ _
  · exact resolveBinding name v

theorem findFunctionAlong (name : Name) (ids : List EnvId) :
    K.Confines caller fun i => findFunctionAlong (ev i) name caller ids := by
  induction ids with
  | nil => exact value _
  | cons env rest ih =>
    refine andThen (readingHeap _) fun found => ?_
    cases found with
    | none => exact ih
    | some v => exact andThen (forceValue v) fun _ => branch (value _) ih

theorem findFunction (name : Name) (env : EnvId) :
    K.Confines caller fun i => findFunction (ev i) name env caller :=
  reading fun _ => findFunctionAlong name _

theorem lookupFunction (name : Name) (env : EnvId) :
    K.Confines caller fun i => lookupFunction (ev i) name env caller := by
  refine andThen (findFunction name env) fun found => ?_
  cases found with
  | some f => exact value f
  | none => exact failingAt _ _

theorem visibleDots (env : EnvId) : K.Confines caller fun _ : ι => visibleDots env caller := by
  refine andThen (readingHeap _) fun found => ?_
  rcases found with _ | ⟨place, v⟩
  · exact failingAt _ _
  · cases v with
    | dots id => exact reading fun _ => value _
    | missing => exact value _
    | _ => exact failingAt _ _

/-! The dispatch of a builtin on classed arguments. -/

theorem findMethodFunction (name : Name) (scope : List EnvId) :
    K.Confines caller fun i => findMethodFunction (ev i) name caller scope := by
  induction scope with
  | nil => exact reading fun _ => value _
  | cons env rest ih =>
    refine andThen (findFunction name env) fun found => ?_
    cases found with
    | some f => exact value _
    | none => exact ih

theorem findForClass (search : MethodSearch) (position : Nat) (className : Name) :
    K.Confines caller fun i => findForClass (ev i) search caller position className := by
  refine andThen (findMethodFunction _ _) fun found => ?_
  cases found with
  | some f => exact value _
  | none =>
    dsimp only
    cases search.group with
    | none => exact value _
    | some group =>
      refine andThen (findMethodFunction _ _) fun found => ?_
      cases found with
      | some f => exact value _
      | none => exact value _

theorem findClassMethod (search : MethodSearch) (start : Nat) :
    K.Confines caller fun i => findClassMethod (ev i) search start caller := by
  unfold CallByNeed.findClassMethod
  induction search.classes.zipIdx.drop start with
  | nil => exact value _
  | cons entry rest ih =>
    refine andThen (findForClass _ _ _) fun found => ?_
    cases found with
    | some m => exact value _
    | none => exact ih

theorem operandMethods (b : Builtin) (env : EnvId) (values : List Value) :
    K.Confines caller fun i => operandMethods (ev i) b env caller values := by
  induction values with
  | nil => exact value _
  | cons v rest ih =>
    refine reading fun s => branch ?_ ih
    refine andThen (findClassMethod _ _) fun found => andThen ih fun others => ?_
    cases found with
    | some m => exact value _
    | none => exact value _

theorem chooseMethod (b : Builtin) (call : Expr) (found : List OperandMethod) :
    K.Confines caller fun _ : ι => chooseMethod b call caller found := by
  rcases found with _ | ⟨lhs, _ | ⟨rhs, rest⟩⟩
  · exact value _
  · exact value _
  · exact branch (value _) (guarded _)

theorem dispatchInternal (b : Builtin) (call : Expr) (names : List (Option Name))
    (values : List Value) (env : EnvId) :
    K.Confines caller fun i => dispatchInternal (ev i) b call names values env caller := by
  refine andThen (operandMethods _ _ _) fun found => andThen (chooseMethod _ _ _) fun chosen => ?_
  cases chosen with
  | none => exact value _
  | some operand =>
    obtain ⟨object, classes, ⟨method, target, position, group, deferred⟩⟩ := operand
    cases method with
    | closure id f definedIn =>
      exact andThen (update (fun _ => rfl) (fun _ => rfl) (K.shares values)) fun _ => map _ (guarded _)
    | _ => exact value _

/-! Strict builtins, each under a flagged record of its own. -/

theorem findingBuiltin {name : Name} {id : Nat} {f : ι → Builtin → EvalM α}
    (rest : ∀ b, (b.isPure = true → ∃ op, b.operation = .strict op ∧ K.permits op) →
      K.Confines caller fun i => f i b) :
    K.Confines caller fun i => findBuiltin name id >>= f i := by
  intro s allowed flagged
  cases found : s.builtins.functions[id]? with
  | none =>
    refine ends_of_same (.error (.failure (.internal s!"unknown builtin '{name}'"))) s (fun i => ?_)
      (fun _ _ => nofun) rfl rfl (K.refl s)
    have gives : findBuiltin name id s =
        (.error (.failure (.internal s!"unknown builtin '{name}'")), s) := by
      unfold findBuiltin
      rw [get_bind, found]
      rfl
    rw [bind_apply, gives]
  | some b =>
    obtain ⟨r, run, follows⟩ := rest b (K.strict allowed found) s allowed flagged
    have onward (i : ι) : (findBuiltin name id >>= f i) s = r := by
      rw [bind_apply, findBuiltin_apply found]
      exact run i
    exact ⟨r, onward, follows⟩

theorem attributeTo (call : Expr) {m : ι → EvalM α} (confined : K.Confines caller m) :
    K.Confines caller fun i => attributeTo call (m i) := by
  intro s allowed flagged
  obtain ⟨⟨r, t⟩, run, stays, builtins, raised, relates⟩ := confined s allowed flagged
  have attributed (i : ι) : CallByNeed.attributeTo call (m i) s =
      CallByNeed.attributeTo call (fun _ => (r, t)) s := by
    unfold CallByNeed.attributeTo
    rw [observe_bind, observe_bind, run]
  have same : (CallByNeed.attributeTo call (fun _ => (r, t)) s).2 = t :=
    (attributeTo_session call (fun _ => (r, t)) s).1
  have outcome : (CallByNeed.attributeTo call (fun _ => (r, t)) s).1.isOk = r.isOk := by
    unfold CallByNeed.attributeTo
    rw [observe_bind]
    rcases r with (f | _) | a
    · dsimp only
      split <;> rfl
    · rfl
    · rfl
  refine ⟨_, attributed, fun target v => ?_, by rw [same]; exact builtins, by rw [same]; exact raised,
    by rw [same, outcome]; exact relates⟩
  unfold CallByNeed.attributeTo
  rw [observe_bind]
  rcases r with (f | ⟨target', v'⟩) | a
  · dsimp only
    split <;> nofun
  · exact absurd rfl (stays target' v')
  · nofun

theorem runBuiltin (runs : K.Runs ev) {op : StrictOp} (permitted : K.permits op) (b : Builtin)
    (call : Expr) (names : List (Option Name)) (values : List Value) (env : EnvId) :
    K.Confines caller fun i => runBuiltin (ev i) b op call names values env caller := by
  intro s allowed flagged
  let under := s.records.push (some caller) (some call) (.builtin b.name)
  let t : Session := { s with records := under.2.setEagerOnly under.1 true }
  let body (i : ι) :=
    CallByNeed.attributeTo call (CallByNeed.runStrict (ev i) op ⟨⟨names, values⟩, env, under.1⟩)
  have opened (i : ι) : CallByNeed.runBuiltin (ev i) b op call names values env caller s =
      releasing under.1 (body i) t := by
    change releasing under.1 (body i)
      { s with records := under.2.setEagerOnly under.1 (s.records.eagerOnly caller) } = _
    rw [flagged]
  have flagged' : t.records.eagerOnly under.1 = true := by
    refine Records.eagerOnly_setEagerOnly ?_
    simp [under, Records.push, Records.contains, Records.get?]
  have confined : K.Confines under.1 body := attributeTo call (runs op _ env _ permitted)
  obtain ⟨⟨r, u⟩, run, stays, builtins, raised, relates⟩ := confined t allowed flagged'
  have relates := K.records s.records (u.records.release under.1) relates
  have closed (i : ι) : releasing under.1 (body i) t =
      (r, { u with records := u.records.release under.1 }) := by
    unfold releasing
    rw [run]
  exact ⟨_, fun i => (opened i).trans (closed i), stays, builtins, Records.raised_release _ _ _ raised,
    relates⟩

theorem invokeStrict (runs : K.Runs ev) {b : Builtin}
    (permitted : ∀ op, b.operation = .strict op → K.permits op) (call : Expr)
    (names : List (Option Name)) (values : List Value) (env : EnvId) (dispatch : Bool) :
    K.Confines caller fun i => invokeStrict (ev i) b call names values env caller dispatch := by
  refine either (dispatchInternal _ _ _ _ _) (value _) fun dispatched => ?_
  cases dispatched with
  | some v => exact value v
  | none =>
    dsimp only
    cases operation : b.operation with
    | strict op => exact runBuiltin runs (permitted op operation) _ _ _ _ _
    | special op => exact failure _

/-! Calls, over what is evaluated for them under the same record. -/

theorem evaluateArgs (env : EnvId) {args : List Arg}
    (h : ∀ a ∈ args, K.Confines caller fun i => ev i a.value env caller) :
    K.Confines caller fun i => evaluateArgs (ev i) env caller args := by
  induction args with
  | nil => exact value _
  | cons a rest ih =>
    obtain ⟨name, e⟩ := a
    obtain ⟨here, later⟩ := List.forall_mem_cons.mp h
    have ih := ih later
    refine branch ?_ (branch ?_ ?_)
    · exact andThen (visibleDots _) fun _ => andThen (forceAll _) fun _ => andThen (value _) fun _ =>
        andThen ih fun _ => value _
    · exact andThen (value _) fun _ => andThen ih fun _ => value _
    · exact andThen here fun _ => andThen (value _) fun _ => andThen ih fun _ => value _

theorem callBuiltin (runs : K.Runs ev) {b : Builtin}
    (strict : b.isPure = true → ∃ op, b.operation = .strict op ∧ K.permits op) (call : Expr)
    (env : EnvId) {args : List Arg} (h : ∀ a ∈ args, K.Confines caller fun i => ev i a.value env caller) :
    K.Confines caller fun i => callBuiltin (ev i) b call args env caller := by
  unfold CallByNeed.callBuiltin
  cases effects : b.isPure with
  | false => exact guarded _
  | true =>
    obtain ⟨op, operation, permitted⟩ := strict effects
    rw [operation]
    refine andThen (evaluateArgs env h) fun _ => invokeStrict runs (fun op' same => ?_) _ _ _ _ _
    rw [operation] at same
    cases same
    exact permitted

theorem evalCall (runs : K.Runs ev) (call : Expr) {f : Expr} (env : EnvId)
    (called : K.Confines caller fun i => calledFunction (ev i) f env caller) {args : List Arg}
    (h : ∀ a ∈ args, K.Confines caller fun i => ev i a.value env caller) :
    K.Confines caller fun i => evalCall (ev i) call f args env caller := by
  refine andThen polling fun _ => andThen called fun function => ?_
  cases function with
  | closure id f definedIn => exact guarded _
  | builtin name id => exact findingBuiltin fun _ strict => callBuiltin runs strict _ _ h
  | _ => exact failure _
end Confines
end Restraint

/-! Steps with effects, of which only what every evaluation keeps is known. -/

/-- Under a flagged record a computation leaves no function and keeps builtins and records. -/
abbrev Confined (caller : RecordId) (m : EvalM α) : Prop :=
  Restraint.loose.Confines caller fun _ : Unit => m

namespace Restraint.Confines

variable {caller : RecordId}

theorem changing {f : Session → Session} (builtins : ∀ s, (f s).builtins = s.builtins)
    (records : ∀ s, (f s).records = s.records)
    (trusting : ∀ s : Session, s.store.Trusting (f s).store := by exact fun _ => rfl) :
    Confined caller (modify f) :=
  update builtins records fun s _ => trusting s

theorem onObjects {m : StoreM α} (moves : Store.Moves Store.Trusting m) : Confined caller (onStore m) :=
  storing fun _ s _ => moves s.store

theorem making {m : Alloc α} (moves : Store.Moves Store.Trusting m) : Confined caller (allocate m) :=
  allocating fun s _ => moves s.store

theorem makingVector (xs : Elements) : Confined caller (allocate (Store.vector xs)) :=
  making (Store.moves_vector xs)

theorem sharing (v : Value) : Confined caller (modifyStore (·.share v)) :=
  changing (fun _ => rfl) (fun _ => rfl) fun s => Store.share_moves (R := Store.Trusting) v s.store

theorem updatingHeap (f : Heap → Except Failure Heap) : Confined caller (updateHeap f) := by
  refine reading fun s => ?_
  cases f s.heap with
  | ok heap => exact changing (fun _ => rfl) fun _ => rfl
  | error e => exact failure e

theorem defining (env : EnvId) (name : Name) (v : Value) :
    Confined caller (define env name v) :=
  andThen (map _ (readingHeap _)) fun _ => changing (fun _ => rfl) fun _ => rfl

theorem assignVariable (name : Name) (v : Value) (env : EnvId) (outer : Bool) :
    Confined caller (assignVariable name v env outer) := by
  have bound : Confined caller
      (if outer then updateHeap fun h => (·.2) <$> h.assignOuter env name v else define env name v) :=
    branch (updatingHeap _) (defining _ _ _)
  exact andThen (readingHeap _) fun current => reading fun s =>
    branch bound (andThen (sharing v) fun _ => bound)

theorem numeric (f : Store → Arguments → Except Failure Elements) (args : Arguments) :
    Confined caller (numeric f args) :=
  reading fun _ => andThen (lifting _) fun _ => makingVector _

theorem registerMethod (args : Arguments) : Confined caller (registerMethod args) :=
  reading fun _ => andThen (lifting _) fun _ => andThen (lifting _) fun _ =>
    andThen (lifting _) fun _ => andThen (failing _ _) fun _ =>
      andThen (changing (fun _ => rfl) fun _ => rfl) fun _ => value _

theorem defineClass (args : Arguments) : Confined caller (defineClass args) :=
  reading fun _ => andThen (lifting _) fun _ =>
    andThen (changing (fun _ => rfl) fun _ => rfl) fun _ => makingVector _

theorem runHost (op : HostOp) (args : Arguments) : Confined caller (runHost op args) := by
  cases op with
  | interrupt result =>
    refine andThen (changing (fun _ => rfl) fun _ => rfl) fun _ => ?_
    cases result with
    | some x => exact makingVector _
    | none => exact value _
  | twice => exact reading fun _ => andThen (lifting _) fun _ => makingVector _
  | countArguments => exact makingVector _
  | fail f => exact failure f

variable {ev : Evaluator} (h : ∀ e env caller, Confined caller (ev e env caller))
include h

theorem genericFunction (name : Name) (definition : Option Value) (args : Arguments) (env : EnvId) :
    Confined caller (genericFunction ev name definition ⟨args, env, caller⟩) := by
  unfold CallByNeed.genericFunction
  split
  · exact value _
  · exact reading fun _ => failure _
  · refine andThen (findFunction _ _) fun found => ?_
    split
    · exact failure _
    · exact andThen (onObjects (moves_load _)) fun _ => andThen (h _ _ _) fun _ => value _

theorem defineGeneric (name : Name) (definition : Option Value) (args : Arguments) (env : EnvId) :
    Confined caller (defineGeneric ev name definition ⟨args, env, caller⟩) := by
  refine andThen (genericFunction h _ _ _ _) fun found => ?_
  split
  · rename_i id f definedIn default
    change Confined caller (do
      let generic ← modifyGet (Law.enterGeneric name f default args)
      define Session.global name (.closure id f definedIn)
      pure generic)
    have entered : Confined caller (modifyGet (Law.enterGeneric name f default args)) := fun _ _ _ =>
      ends_of_same _ _ (fun _ => rfl) (fun _ _ => nofun) rfl rfl fun _ => rfl
    exact andThen entered fun _ => andThen (defining _ _ _) fun _ => value _
  · exact failure _

omit h in
theorem enterMethod (name : Name) (classes : List Name) (method : Value) (generic : Generic) :
    Confined caller (enterMethod name classes method generic) :=
  andThen (failing _ _) fun _ => andThen (changing (fun _ => rfl) fun _ => rfl) fun _ => makingVector _

theorem defineMethod (args : Arguments) (env : EnvId) :
    Confined caller (defineMethod ev ⟨args, env, caller⟩) := by
  rw [defineMethod_eq]
  refine reading fun s => andThen (lifting _) fun _ => andThen (lifting _) fun _ =>
    andThen (lifting _) fun _ => andThen (failing _ _) fun _ => ?_
  dsimp only
  split
  · exact andThen (value _) fun _ => enterMethod _ _ _ _
  · exact andThen (defineGeneric h _ _ _ _) fun _ => enterMethod _ _ _ _

theorem runStrict : loose.Runs fun _ : Unit => ev := by
  intro op args env caller _
  unfold CallByNeed.runStrict
  cases op with
  | combine => exact onObjects (Builtins.moves_combine _)
  | makeList => exact onObjects (Builtins.moves_makeList _)
  | element => exact onObjects (Builtins.moves_element _)
  | setElement => exact onObjects (Builtins.moves_setElement _)
  | length => exact onObjects (Builtins.moves_length _)
  | identical => exact onObjects (Builtins.moves_identical _)
  | isNull => exact onObjects (Builtins.moves_isNull _)
  | getAttribute => exact onObjects (Builtins.moves_getAttribute _)
  | setAttribute => exact onObjects (Builtins.moves_setAttribute _)
  | withAttributes => exact onObjects (Builtins.moves_withAttributes _)
  | classOf => exact reading fun _ => onObjects (Builtins.moves_classOf _ _)
  | oldClass => exact onObjects (Builtins.moves_oldClass _)
  | setClassOf => exact onObjects (Builtins.moves_setClassOf _)
  | unclass => exact onObjects (Builtins.moves_unclass Builtins.moves_classless _)
  | inherits => exact reading fun _ => onObjects (Builtins.moves_inherits _ _)
  | identity => exact onObjects (Builtins.moves_identity _)
  | newObject => exact reading fun _ => onObjects (Builtins.moves_newObject _ _)
  | arithmetic op | compare op | negate | summary op | absolute => exact numeric _ _
  | write =>
    exact reading fun _ => andThen (changing (fun _ => rfl) fun _ => rfl) fun _ => value _
  | stop => exact reading fun _ => failure _
  | warn =>
    exact reading fun _ => andThen (changing (fun _ => rfl) fun _ => rfl) fun _ => makingVector _
  | registerMethod => exact registerMethod _
  | defineClass => exact defineClass _
  | defineGeneric =>
    exact reading fun _ => andThen (lifting _) fun _ => andThen (defineGeneric h _ _ _ _) fun _ =>
      makingVector _
  | defineMethod => exact defineMethod h _ _
  | host op => exact runHost _ _

theorem invoked (b : Builtin) (call : Expr) (names : List (Option Name)) (values : List Value)
    (env : EnvId) (dispatch : Bool) :
    Confined caller (CallByNeed.invokeStrict ev b call names values env caller dispatch) :=
  invokeStrict (runStrict h) (fun _ _ => trivial) _ _ _ _ _

/-! Assignment. -/

theorem applyValues (function : Value) (call : Expr) (names : List (Option Name))
    (values : List Value) (env : EnvId) :
    Confined caller (applyValues ev function call names values env caller) := by
  unfold CallByNeed.applyValues
  split
  · exact guarded _
  · exact findingBuiltin fun _ _ => andThen (failing _ _) fun _ => invoked h _ _ _ _ _ _
  · exact reading fun _ => failure _

theorem replacedValue (e : Expr) (env : EnvId) (outer : Bool) :
    Confined caller (replacedValue ev e env caller outer) := by
  unfold CallByNeed.replacedValue
  split
  · exact h _ _ _
  · refine either (map _ (readingHeap _)) (value _) fun start => andThen (readingHeap _) fun found => ?_
    split
    · exact failingAt _ _
    · exact andThen (resolveBinding _ _) fun _ =>
        branch (andThen (sharing _) fun _ => value _) (value _)

theorem evalAll (env : EnvId) (args : List Arg) :
    Confined caller (evalAll ev env caller args) := by
  induction args with
  | nil => exact value _
  | cons a rest ih =>
    obtain ⟨name, e⟩ := a
    exact andThen (h e env caller) fun _ => andThen ih fun _ => value _

theorem replace (name : Name) (current : Value) (extra : List Arg) (v : Value) (env : EnvId) :
    Confined caller (replace ev name current extra v env caller) := by
  refine andThen (evalAll h _ _) fun values => andThen (lookupFunction _ _) fun function =>
    andThen (onObjects (Store.moves_seq (moves_symbolNode _) fun _ => moves_callNode _ _)) fun call => ?_
  split
  · exact findingBuiltin fun _ _ => invoked h _ _ _ _ _ _
  · exact applyValues h _ _ _ _ _

theorem assign (env : EnvId) (outer : Bool) (target : Expr) (v : Value) :
    Confined caller (assign ev env caller outer target v) := by
  fun_induction CallByNeed.assign ev env caller outer target v with
  | case1 id name v => exact assignVariable _ _ _ _
  | case3 id f name first extra v setter known ih =>
    exact andThen (replacedValue h _ _ _) fun _ => andThen (replace h _ _ _ _ _) fun _ => ih _
  | case2 | case4 | case5 => exact failingAt _ _

/-! The step of the evaluator. -/

theorem calledFunction (f : Expr) (env : EnvId) :
    Confined caller (calledFunction ev f env caller) := by
  unfold CallByNeed.calledFunction
  split
  · exact lookupFunction _ _
  · refine andThen (h _ _ _) fun v => ?_
    split
    · exact value _
    · exact failingAt _ _

theorem evalBlock (env : EnvId) (last : Value) (body : List Expr) :
    Confined caller (evalBlock ev env caller last body) := by
  induction body generalizing last with
  | nil => exact value _
  | cons e rest ih => exact andThen (h _ _ _) fun _ => ih _

theorem evalBranch (test yes : Expr) (no : Option Expr) (env : EnvId) :
    Confined caller (evalBranch ev test yes no env caller) := by
  refine andThen (h _ _ _) fun v => reading fun s => ?_
  split
  · exact failingAt _ _
  · exact h _ _ _
  · split
    · exact h _ _ _
    · exact value _

theorem evalStep (e : Expr) (env : EnvId) : Confined caller (evalStep ev e env caller) := by
  cases e with
  | constant id v => exact value v
  | symbol id name => exact readVariable _ _
  | empty id => exact value _
  | call id f args => exact evalCall (runStrict h) _ _ (calledFunction h _ _) fun _ _ => h _ _ _
  | function f => exact making (Store.Evolution.closure f env)
  | block id body => exact evalBlock h _ _ _
  | branch id test yes no => exact evalBranch h _ _ _ _
  | assign id target value outer =>
    exact andThen (h _ _ _) fun _ => andThen (assign h _ _ _ _) fun _ => .value _

omit h in
theorem evaluation (depth : Nat) (e : Expr) (env : EnvId) (caller : RecordId) :
    Confined caller (CallByNeed.eval depth e env caller) := by
  induction depth generalizing e env caller with
  | zero => exact failure .exhausted
  | succ depth ih => exact evalStep ih e env

end Restraint.Confines

/-- An evaluator whose evaluations are all confined. -/
def Confining (ev : Evaluator) : Prop :=
  ∀ e env caller s, s.builtins.PureStrict → s.records.eagerOnly caller = true →
    Restraint.loose.Follows s (ev e env caller s)

/-- Evaluation under a flagged record leaves no function, to whatever depth its steps may nest. -/
theorem confining_eval (depth : Nat) : Confining (eval depth) := fun e env caller =>
  (Restraint.Confines.evaluation depth e env caller).follows

end CallByNeed
