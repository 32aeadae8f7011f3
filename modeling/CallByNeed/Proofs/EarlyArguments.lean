import CallByNeed.Proofs.Confinement
import CallByNeed.Proofs.Evaluation
import CallByNeed.Proofs.Forcing

/-!
Sessions that evaluate arguments early beside sessions that do not. As long as no argument is evaluated
early, two sessions that differ in their plan for it only go through the same states; the first
argument that is evaluated early parts them.
-/
namespace CallByNeed

variable {α β : Type}

namespace Session

/-- How many arguments were evaluated early, attempts that were given up included. -/
def earlyArguments (s : Session) : Nat := s.stats.eagerPromisesCreated + s.stats.eagerAborts

/-- What evaluations never change, and the count of early arguments, which only grows. -/
structure Endures (s t : Session) : Prop where
  options : t.options = s.options
  builtins : t.builtins = s.builtins
  early : s.earlyArguments ≤ t.earlyArguments

theorem Endures.refl (s : Session) : s.Endures s := ⟨rfl, rfl, Nat.le_refl _⟩

theorem Endures.trans {s t u : Session} (first : s.Endures t) (second : t.Endures u) :
    s.Endures u :=
  ⟨second.options.trans first.options, second.builtins.trans first.builtins,
    Nat.le_trans first.early second.early⟩

end Session

/-- However a computation ends, it changes no option and no builtin. -/
def Enduring (m : EvalM α) : Prop := ∀ s : Session, s.Endures (m s).2

namespace Enduring

theorem of_same {m : EvalM α} (options : ∀ s, (m s).2.options = s.options)
    (builtins : ∀ s, (m s).2.builtins = s.builtins)
    (early : ∀ s, s.earlyArguments ≤ (m s).2.earlyArguments) : Enduring m :=
  fun s => ⟨options s, builtins s, early s⟩

theorem reading {f : Session → EvalM α} (enduring : ∀ s, Enduring (f s)) :
    Enduring (get >>= f) := fun s => enduring s s

theorem andThen {m : EvalM α} {f : α → EvalM β} (first : Enduring m) (rest : ∀ a, Enduring (f a)) :
    Enduring (m >>= f) := by
  intro s
  exact after_bind (P := s.Endures) (first s) fun a t _ endured => endured.trans (rest a t)

theorem unchanged {m : EvalM α} (same : ∀ s, (m s).2 = s) : Enduring m := by
  intro s
  rw [same]
  exact .refl s

theorem updatingHeap (f : Heap → Except Failure Heap) : Enduring (updateHeap f) := by
  refine reading fun s => ?_
  split
  · exact of_same (fun _ => rfl) (fun _ => rfl) fun _ => Nat.le_refl _
  · exact unchanged fun _ => rfl

theorem administering {g : Session → α × Session} (administrative : Administrative g) :
    Enduring (modifyGet g : EvalM α) :=
  of_same administrative.options administrative.builtins fun s => by
    change _ ≤ (g s).2.stats.eagerPromisesCreated + (g s).2.stats.eagerAborts
    rw [administrative.created, administrative.aborts]
    exact Nat.le_refl _

def rules : Rules where
  Holds := Enduring
  Grounded _ _ := True
  Grows _ _ := True
  evolution := Store.evolution_true
  value _ := unchanged fun _ => rfl
  andThen := andThen
  failure _ := unchanged fun _ => rfl
  leaving _ _ := unchanged fun _ => rfl
  reading _ := reading
  observing first rest _ := fun s => (first s).trans (rest _ _)
  storing {_ m} _ := by
    intro s
    rw [(onStore_session m s).1]
    exact ⟨rfl, rfl, Nat.le_refl _⟩
  administering clerical := administering clerical.toAdministrative
  interrupting := of_same (fun _ => rfl) (fun _ => rfl) fun _ => Nat.le_refl _
  polling := by
    refine reading fun s => ?_
    split
    · exact of_same (fun _ => rfl) (fun _ => rfl) fun _ => Nat.le_refl _
    · exact unchanged fun _ => rfl
  framing _ := of_same (fun _ => rfl) (fun _ => rfl) fun _ => Nat.le_refl _
  binding env name v := by
    refine andThen (andThen (reading fun s => ?_) fun _ => unchanged fun _ => rfl) fun _ =>
      of_same (fun _ => rfl) (fun _ => rfl) fun _ => Nat.le_refl _
    split
    · exact unchanged fun _ => rfl
    · exact unchanged fun _ => rfl
  outerBinding _ _ _ := updatingHeap _
  recording _ _ _ _ := of_same (fun _ => rfl) (fun _ => rfl) fun _ => Nat.le_refl _
  closing _ _ enduring := fun s => (enduring s).trans ⟨rfl, rfl, Nat.le_refl _⟩
  flagging _ _ := of_same (fun _ => rfl) (fun _ => rfl) fun _ => Nat.le_refl _

theorem counting : rules.Counting where
  promising _ _ _ _ _ := trivial
  distrusting _ _ := trivial
  created := of_same (fun _ => rfl) (fun _ => rfl) fun s => by
    change s.stats.eagerPromisesCreated + s.stats.eagerAborts ≤
      s.stats.eagerPromisesCreated + 1 + s.stats.eagerAborts
    omega
  aborted := of_same (fun _ => rfl) (fun _ => rfl) fun s => by
    change s.stats.eagerPromisesCreated + s.stats.eagerAborts ≤
      s.stats.eagerPromisesCreated + (s.stats.eagerAborts + 1)
    omega

theorem forcing : rules.Forcing where
  life _ _ _ := trivial
  distrusting _ _ := trivial
  hit := of_same (fun _ => rfl) (fun _ => rfl) fun _ => Nat.le_refl _
  fulfilled := of_same (fun _ => rfl) (fun _ => rfl) fun _ => Nat.le_refl _
  givenUp := of_same (fun _ => rfl) (fun _ => rfl) fun _ => Nat.le_refl _

theorem simpleArgs (site : NodeId) (args : List Arg) : Enduring (simpleArgs site args) := by
  intro s
  obtain ⟨_, run | run⟩ := simpleArgs_cases site args s <;> rw [run]
  · exact .refl s
  · exact ⟨rfl, rfl, Nat.le_refl _⟩

theorem forcedFormals (f : Function) : Enduring (forcedFormals f) := by
  intro s
  obtain ⟨_, run | run⟩ := forcedFormals_cases f s <;> rw [run]
  · exact .refl s
  · exact ⟨rfl, rfl, Nat.le_refl _⟩

theorem planning : rules.Planning where
  toCounting := counting
  looking := reading
  simple := simpleArgs
  forced := forcedFormals

def plain : Law := SearchLaw.law
  { toRules := rules
    force := forcing.holds_force
    missingProbe := forcing.holds_isMissingArgument } fun _ _ => trivial

def law : CallLaw where
  toLaw := plain
  arguments h := planning.holds_arguments h
  useMethod h := plain.holds_useMethod h administering fun _ _ => trivial
  nextMethod h := plain.holds_nextMethod h fun _ _ => trivial
  standardGeneric h := plain.holds_standardGeneric h administering

end Enduring

theorem Session.Twin.builtins {s t : Session} (twin : s.Twin t) : t.builtins = s.builtins := by
  obtain ⟨_, _, _, rfl, _⟩ := twin
  rfl

/-- An outcome that no handler stops. -/
def Fatal (r : Except Unwind α) : Prop := ∃ f : Failure, r = .error (.failure f) ∧ f.isFatal = true

/-- What a run comes to on a session and on its lazy twins. On a lazy session nothing is evaluated
early; and if nothing is on the session itself, and the result is calm, a lazy twin gives the same and
stays a twin. -/
structure Session.Parallel {ρ : Type} (calm : ρ → Prop) (run : Session → ρ × Session) (s : Session) :
    Prop where
  endures : s.Endures (run s).2
  lazily : s.options.eagerPromises = false → (run s).2.earlyArguments = s.earlyArguments
  twin : (run s).2.earlyArguments = s.earlyArguments → calm (run s).1 →
    ∀ t, s.Twin t → t.options.eagerPromises = false →
      (run t).1 = (run s).1 ∧ (run s).2.Twin (run t).2

abbrev InStepAt (m : EvalM α) (s : Session) : Prop := s.Parallel (fun r => ¬ Fatal r) m

def InStep (m : EvalM α) : Prop := ∀ s : Session, s.builtins.PureStrict → InStepAt m s

/-- A computation that has nothing to do with early evaluation. -/
structure Steady (m : EvalM α) : Prop where
  options : ∀ s, (m s).2.options = s.options := by exact fun _ => rfl
  builtins : ∀ s, (m s).2.builtins = s.builtins := by exact fun _ => rfl
  early : ∀ s, (m s).2.earlyArguments = s.earlyArguments := by exact fun _ => rfl
  twin : ∀ s t, s.Twin t → (m t).1 = (m s).1 ∧ (m s).2.Twin (m t).2 := by
    rintro s t ⟨early, sites, forced, rfl, caches⟩
    exact ⟨rfl, early, sites, forced, rfl, caches⟩

theorem Steady.inStepAt {m : EvalM α} (steady : Steady m) (s : Session) : InStepAt m s :=
  ⟨⟨steady.options s, steady.builtins s, Nat.le_of_eq (steady.early s).symm⟩,
    fun _ => steady.early s, fun _ _ t twin _ => steady.twin s t twin⟩

theorem Steady.inStep {m : EvalM α} (steady : Steady m) : InStep m := fun s _ => steady.inStepAt s

namespace InStep

theorem bind_failed {m : EvalM α} {f : α → EvalM β} {s s' : Session} {u : Unwind}
    (run : m s = (.error u, s')) (first : InStepAt m s) : InStepAt (m >>= f) s := by
  obtain ⟨endures, lazily, twin⟩ := first
  rw [run] at endures lazily twin
  have whole : (m >>= f) s = (.error u, s') := by rw [bind_apply, run]
  constructor
  · rw [whole]
    exact endures
  · rw [whole]
    exact lazily
  · rw [whole]
    intro same calm t twins lazy
    have calm' : ¬ Fatal (.error u : Except Unwind α) := by
      rintro ⟨f, given, fatal⟩
      cases given
      exact calm ⟨f, rfl, fatal⟩
    obtain ⟨outcome, twins'⟩ := twin same calm' t twins lazy
    rw [bind_apply]
    rcases run' : m t with ⟨u' | a', t'⟩
    · rw [run'] at outcome twins'
      cases outcome
      exact ⟨rfl, twins'⟩
    · rw [run'] at outcome
      cases outcome

theorem bind_passed {m : EvalM α} {f : α → EvalM β} {s s' : Session} {a : α} (run : m s = (.ok a, s'))
    (kept : ∀ t, s.Twin t → (m t).2.options = t.options) (first : InStepAt m s) (rest : InStepAt (f a) s') :
    InStepAt (m >>= f) s := by
  obtain ⟨endures, lazily, twin⟩ := first
  rw [run] at endures lazily twin
  have whole : (m >>= f) s = f a s' := by rw [bind_apply, run]
  constructor
  · rw [whole]
    exact endures.trans rest.endures
  · rw [whole]
    intro lazy
    have lazy' : s'.options.eagerPromises = false := by
      rw [endures.options]
      exact lazy
    exact (rest.lazily lazy').trans (lazily lazy)
  · rw [whole]
    intro same calm t twins lazy
    have grown := endures.early
    have grown' := rest.endures.early
    dsimp only at same grown
    obtain ⟨outcome, twins'⟩ := twin (by dsimp only; omega) nofun t twins lazy
    have options := kept t twins
    rw [bind_apply]
    rcases run' : m t with ⟨u' | a', t'⟩
    · rw [run'] at outcome
      cases outcome
    · rw [run'] at outcome twins' options
      cases outcome
      refine rest.twin (by omega) calm t' twins' ?_
      rw [options]
      exact lazy

theorem bind_at {m : EvalM α} {f : α → EvalM β} {s : Session}
    (kept : ∀ t, s.Twin t → (m t).2.options = t.options) (first : InStepAt m s)
    (rest : ∀ a, (m s).1 = .ok a → InStepAt (f a) (m s).2) : InStepAt (m >>= f) s := by
  rcases run : m s with ⟨u | a, s'⟩
  · exact bind_failed run first
  · have onward := rest a (by rw [run])
    rw [run] at onward
    exact bind_passed run kept first onward

theorem options {m : EvalM α} (inStep : InStep m) {s : Session} (strict : s.builtins.PureStrict)
    (t : Session) (twins : s.Twin t) : (m t).2.options = t.options := by
  rw [← twins.builtins] at strict
  exact (inStep t strict).endures.options

theorem andThen {m : EvalM α} {f : α → EvalM β} (first : InStep m) (rest : ∀ a, InStep (f a)) :
    InStep (m >>= f) := by
  intro s strict
  refine bind_at (first.options strict) (first s strict) fun a _ => rest a _ ?_
  rw [(first s strict).endures.builtins]
  exact strict

theorem reading_at {f : Session → EvalM α} {s : Session}
    (blind : ∀ early sites forced, f (s.replan early sites forced) = f s)
    (inStep : InStepAt (f s) s) : InStepAt (get >>= f) s := by
  refine ⟨inStep.endures, inStep.lazily, fun same calm t twins lazy => ?_⟩
  have given := inStep.twin same calm t twins lazy
  obtain ⟨early, sites, forced, rfl, _⟩ := twins
  change (f (s.replan early sites forced) (s.replan early sites forced)).1 = (f s s).1 ∧
    (f s s).2.Twin (f (s.replan early sites forced) (s.replan early sites forced)).2
  rw [blind]
  exact given

theorem observing {m : EvalM α} {k : Except Unwind α → EvalM β} (first : InStep m)
    (rest : ∀ r, InStep (k r)) (passes : PassesFatal k) : InStep (observe m >>= k) := by
  intro s strict
  obtain ⟨endures, lazily, twin⟩ := first s strict
  have strict' : (m s).2.builtins.PureStrict := by
    rw [endures.builtins]
    exact strict
  have rest' := rest (m s).1 (m s).2 strict'
  constructor
  · exact endures.trans rest'.endures
  · intro lazy
    have lazy' : (m s).2.options.eagerPromises = false := by
      rw [endures.options]
      exact lazy
    exact (rest'.lazily lazy').trans (lazily lazy)
  · intro same calm t twins lazy
    change (k (m s).1 (m s).2).2.earlyArguments = s.earlyArguments at same
    change ¬ Fatal (k (m s).1 (m s).2).1 at calm
    have grown := endures.early
    have grown' := rest'.endures.early
    have calm' : ¬ Fatal (m s).1 := by
      rintro ⟨f, given, fatal⟩
      have passed := passes f (m s).2 fatal
      rw [← given] at passed
      exact calm ⟨f, passed, fatal⟩
    obtain ⟨outcome, twins'⟩ := twin (by omega) calm' t twins lazy
    have lazy' : (m t).2.options.eagerPromises = false := by
      rw [first.options strict t twins]
      exact lazy
    rw [observe_bind, observe_bind, outcome]
    exact rest'.twin (by omega) calm (m t).2 twins' lazy'

theorem storing (m : StoreM α) : InStep (onStore m) := by
  refine Steady.inStep ⟨?_, ?_, ?_, ?_⟩
  · intro s
    rw [(onStore_session m s).1]
  · intro s
    rw [(onStore_session m s).1]
  · intro s
    rw [(onStore_session m s).1]
    rfl
  · rintro s t ⟨early, sites, forced, rfl, caches⟩
    have same : (s.replan early sites forced).store = s.store := rfl
    rw [onStore_apply, onStore_apply, same]
    rcases m s.store with ⟨f | a, store⟩
    · exact ⟨rfl, early, sites, forced, rfl, caches⟩
    · exact ⟨rfl, early, sites, forced, rfl, caches⟩

theorem value (a : α) : InStep (pure a : EvalM α) := Steady.inStep {}

theorem failure (f : Failure) : InStep (fail f : EvalM α) := Steady.inStep {}

theorem reading {f : Session → EvalM α}
    (blind : ∀ s early sites forced, f (s.replan early sites forced) = f s)
    (inStep : ∀ s, InStep (f s)) : InStep (get >>= f) :=
  fun s strict => reading_at (blind s) (inStep s s strict)

theorem updatingHeap (f : Heap → Except Failure Heap) : InStep (updateHeap f) := by
  refine reading (fun _ _ _ _ => rfl) fun s => ?_
  split
  · exact Steady.inStep {}
  · exact failure _

theorem administering {g : Session → α × Session} (administrative : Administrative g) :
    InStep (modifyGet g : EvalM α) := Steady.inStep {
  options := administrative.options
  builtins := administrative.builtins
  early := fun s => by
    change (g s).2.stats.eagerPromisesCreated + (g s).2.stats.eagerAborts = _
    rw [administrative.created, administrative.aborts]
    rfl
  twin := fun s t twin => by
    obtain ⟨result, twins⟩ := administrative.twin s t twin
    exact ⟨congrArg Except.ok result, twins⟩ }

def rules : Rules where
  Holds := InStep
  Grounded _ _ := True
  Grows _ _ := True
  evolution := Store.evolution_true
  value := value
  andThen := andThen
  failure := failure
  leaving _ _ := Steady.inStep {}
  reading := reading
  observing := observing
  storing _ := storing _
  administering clerical := administering clerical.toAdministrative
  interrupting := Steady.inStep {}
  polling := by
    refine reading (fun _ _ _ _ => rfl) fun s => ?_
    split
    · exact andThen (Steady.inStep {}) fun _ => failure _
    · exact value ()
  framing _ := Steady.inStep {}
  binding env name v := by
    refine andThen (andThen (reading (fun _ _ _ _ => rfl) fun s => ?_) fun _ => value _) fun _ =>
      Steady.inStep {}
    split
    · exact value _
    · exact failure _
  outerBinding _ _ _ := updatingHeap _
  recording _ _ _ _ := Steady.inStep {}
  closing {_} id {m} inStep := by
    intro s strict
    obtain ⟨endures, lazily, twin⟩ := inStep s strict
    refine ⟨⟨endures.options, endures.builtins, endures.early⟩, lazily, ?_⟩
    intro same calm t twins lazy
    obtain ⟨outcome, twins'⟩ := twin same calm t twins lazy
    refine ⟨outcome, ?_⟩
    obtain ⟨early, sites, forced, given, caches⟩ := twins'
    refine ⟨early, sites, forced, ?_, caches⟩
    change { (m t).2 with records := (m t).2.records.release id } = _
    rw [given]
    rfl
  flagging _ _ := Steady.inStep {}

theorem forcing : rules.Forcing where
  life _ _ _ := trivial
  distrusting _ _ := trivial
  hit := Steady.inStep {}
  fulfilled := Steady.inStep {}
  givenUp := Steady.inStep {}

end InStep

/-! What only reads the session. -/

def Reads (m : EvalM α) : Prop := ∀ s, (m s).2 = s

namespace Reads

theorem value (a : α) : Reads (pure a : EvalM α) := fun _ => rfl

theorem failingAt (caller : RecordId) (f : Failure) : Reads (failAt caller f : EvalM α) :=
  fun _ => rfl

theorem reading {f : Session → EvalM α} (reads : ∀ s, Reads (f s)) : Reads (get >>= f) :=
  fun s => reads s s

theorem andThen {m : EvalM α} {f : α → EvalM β} (first : Reads m) (rest : ∀ a, Reads (f a)) :
    Reads (m >>= f) := by
  intro s
  exact after_bind (P := (· = s)) (first s) fun a t _ same => (rest a t).trans same

theorem readingHeap (f : Heap → Except Failure α) : Reads (readHeap f) := by
  refine reading fun s => ?_
  split <;> exact fun _ => rfl

theorem visibleDots (env : EnvId) (caller : RecordId) : Reads (visibleDots env caller) := by
  refine andThen (readingHeap _) fun found => ?_
  split
  · exact reading fun _ => value _
  · exact value _
  · exact failingAt _ _

theorem expandArgs (env : EnvId) (caller : RecordId) (position : Nat) (args : List Arg) :
    Reads (expandArgs env caller position args) := by
  induction args generalizing position with
  | nil => exact value _
  | cons a rest ih =>
    obtain ⟨name, e⟩ := a
    rw [CallByNeed.expandArgs]
    dsimp only
    split
    · exact andThen (visibleDots _ _) fun _ => andThen (value _) fun _ =>
        andThen (ih _) fun _ => value _
    · split
      · exact andThen (value _) fun _ => andThen (ih _) fun _ => value _
      · exact andThen (value _) fun _ => andThen (ih _) fun _ => value _

theorem matchCall (f : Function) (names : List (Option Name)) (labels : List String) (call : Expr) :
    Reads (matchCall f names labels call) := by
  refine reading fun s => ?_
  split <;> exact fun _ => rfl

end Reads

/-! One argument evaluated early. -/

/-- The failure of a traversal is that of one element. -/
theorem mapM_error {f : α → Except Failure β} {xs : List α} {e : Failure}
    (failed : xs.mapM f = .error e) : ∃ x ∈ xs, f x = .error e := by
  induction xs with
  | nil => cases failed
  | cons x rest ih =>
    rw [List.mapM_cons] at failed
    cases here : f x with
    | error g =>
      rw [here] at failed
      cases failed
      exact ⟨x, List.mem_cons_self, here⟩
    | ok b =>
      cases later : rest.mapM f with
      | error g =>
        rw [here, later] at failed
        cases failed
        obtain ⟨y, member, given⟩ := ih later
        exact ⟨y, List.mem_cons_of_mem _ member, given⟩
      | ok bs =>
        rw [here, later] at failed
        cases failed

theorem versionSnapshot_fatal {h : Heap} {env : EnvId} {e : Failure}
    (failed : h.versionSnapshot env = .error e) : e.isFatal = true := by
  obtain ⟨id, _, failed⟩ := mapM_error failed
  unfold Heap.frame at failed
  cases alive : h.frame? id with
  | none =>
    rw [alive] at failed
    cases failed
    rfl
  | some frame =>
    rw [alive] at failed
    cases failed

/-- What a run that evaluates an argument early ends with: it is counted, or the failure is fatal. -/
def Session.Hurries (s : Session) (r : Except Unwind α × Session) : Prop :=
  s.earlyArguments < r.2.earlyArguments ∨ Fatal r.1

theorem eagerArgument_hurries {ev : Evaluator} (confining : Confining ev)
    (enduring : Enduring.rules.Evaluates ev) {s : Session} (strict : s.builtins.PureStrict)
    {caller : RecordId} (alive : s.records.contains caller = true)
    (unflagged : s.records.eagerOnly caller = false) (e : Expr) (env : EnvId) (site : NodeId) :
    s.Hurries (eagerArgument ev e env caller site s) := by
  unfold eagerArgument
  rw [bind_apply, readHeap_apply]
  cases snapshot : s.heap.versionSnapshot env with
  | error f => exact .inr ⟨f, rfl, versionSnapshot_fatal snapshot⟩
  | ok versions =>
    let flagged : Session := { s with records := s.records.setEagerOnly caller true }
    have grown : s.earlyArguments ≤ (ev e env caller flagged).2.earlyArguments :=
      (enduring e env caller flagged).early
    have stays := (confining e env caller flagged strict
      (Records.eagerOnly_setEagerOnly alive)).1
    dsimp only
    rw [eagerOnly_bind, setEagerOnly_bind, observe_bind, setEagerOnly_bind]
    rcases outcome : (ev e env caller flagged).1 with (f | ⟨target, v⟩) | v
    · cases f with
      | condition _ | generic _ => exact .inl (Nat.lt_succ_of_le grown)
      | cannotOptimize =>
        dsimp only
        rw [unflagged]
        exact .inl (Nat.lt_succ_of_le grown)
      | internal _ | interrupted | exhausted => exact .inr ⟨_, rfl, rfl⟩
    · exact absurd outcome (stays target v)
    · left
      change _ < (ev e env caller flagged).2.stats.eagerPromisesCreated + 1 +
        (ev e env caller flagged).2.stats.eagerAborts
      unfold Session.earlyArguments at grown ⊢
      omega

/-- What shows after the first part of a run shows at its end. -/
theorem Session.Hurries.bind {m : EvalM α} {f : α → EvalM β} {s : Session} (hurries : s.Hurries (m s))
    (rest : ∀ a, Enduring (f a)) : s.Hurries ((m >>= f) s) := by
  rw [bind_apply]
  rcases run : m s with ⟨u | a, t⟩
  · rw [run] at hurries
    rcases hurries with counted | ⟨f, given, fatal⟩
    · exact .inl counted
    · cases given
      exact .inr ⟨f, rfl, fatal⟩
  · rw [run] at hurries
    rcases hurries with counted | ⟨f, given, _⟩
    · exact .inl (Nat.lt_of_lt_of_le counted (rest a t).early)
    · cases given

/-- A last step that only builds a value. -/
theorem bind_pure_session (m : EvalM α) (g : α → β) (s : Session) :
    ((m >>= fun a => pure (g a)) s).2 = (m s).2 ∧
      (Fatal (m s).1 → Fatal ((m >>= fun a => pure (g a)) s).1) := by
  rw [bind_apply]
  rcases m s with ⟨u | a, t⟩
  · refine ⟨rfl, ?_⟩
    rintro ⟨f, given, fatal⟩
    cases given
    exact ⟨f, rfl, fatal⟩
  · refine ⟨rfl, ?_⟩
    rintro ⟨f, given, _⟩
    cases given

/-! The arguments of a call. -/

section Arguments
variable (ev : Evaluator) (env : EnvId) (caller : RecordId) (site : NodeId)

/-- An argument that is not evaluated early changes objects only. -/
theorem lazyValue_eq (index : Nat) (p : Pending) :
    argumentValue ev env caller site never index p = match p with
      | .value v => pure v
      | .expr _ e =>
        match e.constant? with
        | some v => allocate (Store.evaluatedPromise e v .supplied)
        | none => allocate (Store.lazyPromise e env .supplied caller) := by
  cases p with
  | value v => rfl
  | expr position e =>
    unfold argumentValue
    dsimp only
    cases e.constant? with
    | some v => rfl
    | none => rfl

theorem inStep_lazyValue (index : Nat) (p : Pending) :
    InStep (argumentValue ev env caller site never index p) := by
  rw [lazyValue_eq]
  split
  · exact InStep.value _
  · split
    · exact InStep.rules.holds_allocate fun _ => trivial
    · exact InStep.rules.holds_allocate fun _ => trivial

theorem inStep_lazyValues (index : Nat) (pending : List Pending) :
    InStep (argumentValues ev env caller site never index pending) := by
  induction pending generalizing index with
  | nil => exact InStep.value _
  | cons p rest ih =>
    exact InStep.andThen (inStep_lazyValue ev env caller site index p) fun _ =>
      InStep.andThen (ih _) fun _ => InStep.value _

theorem lazyValue_session {R : Store → Store → Prop} (evolution : Store.Evolution R) (index : Nat)
    (p : Pending) (s : Session) : ∃ store, R s.store store ∧
      (argumentValue ev env caller site never index p s).2 = { s with store } := by
  rw [lazyValue_eq]
  cases p with
  | value v => exact ⟨s.store, evolution.refl _, rfl⟩
  | expr position e =>
    dsimp only
    cases e.constant? with
    | some v => exact ⟨_, evolution.evaluatedPromise e v .supplied s.store, rfl⟩
    | none => exact ⟨_, evolution.lazyPromise e env .supplied caller s.store, rfl⟩

theorem lazyValues_session {R : Store → Store → Prop} (evolution : Store.Evolution R) (index : Nat)
    (pending : List Pending) (s : Session) : ∃ store, R s.store store ∧
      (argumentValues ev env caller site never index pending s).2 = { s with store } := by
  induction pending generalizing index s with
  | nil => exact ⟨s.store, evolution.refl _, rfl⟩
  | cons p rest ih =>
    obtain ⟨first, made, kept⟩ := lazyValue_session ev env caller site evolution index p s
    rw [argumentValues, bind_apply]
    rcases run : argumentValue ev env caller site never index p s with ⟨u | v, t⟩
    · rw [run] at kept
      exact ⟨first, made, kept⟩
    · rw [run] at kept
      obtain rfl : t = { s with store := first } := kept
      obtain ⟨later, more, kept'⟩ := ih (index + 1) { s with store := first }
      exact ⟨later, evolution.trans made more, (bind_pure_session _ _ _).1.trans kept'⟩

/-- An argument becomes a promise as it would if nothing could be evaluated early, or is evaluated
early for a call site that is trusted. -/
theorem argumentValue_cases (early : Nat → Nat → Bool) (index : Nat) (p : Pending) (s : Session) :
    argumentValue ev env caller site early index p s =
        argumentValue ev env caller site never index p s ∨
      s.store.trusts site = true ∧ ∃ e, argumentValue ev env caller site early index p s =
        eagerArgument ev e env caller site s := by
  rw [lazyValue_eq]
  cases p with
  | value v => exact .inl rfl
  | expr position e =>
    unfold argumentValue
    dsimp only
    cases e.constant? with
    | some v => exact .inl rfl
    | none =>
      dsimp only
      change (if (early index position && s.store.trusts site) = true then
        eagerArgument ev e env caller site else _ : EvalM Value) s = _ ∨
          s.store.trusts site = true ∧ ∃ e', (if (early index position && s.store.trusts site) = true then
            eagerArgument ev e env caller site else _ : EvalM Value) s = _
      by_cases chosen : (early index position && s.store.trusts site) = true
      · right
        refine ⟨(Bool.and_eq_true_iff.mp chosen).2, e, ?_⟩
        rw [if_pos chosen]
      · left
        rw [if_neg chosen]

variable {ev} in
/-- Where no argument is evaluated early, the arguments are those of a lazy twin. -/
theorem argumentValues_lazily (confining : Confining ev) (enduring : Enduring.rules.Evaluates ev)
    (early : Nat → Nat → Bool) (index : Nat) (pending : List Pending) {s : Session}
    (strict : s.builtins.PureStrict) (alive : s.records.contains caller = true)
    (unflagged : s.records.eagerOnly caller = false)
    (same : (argumentValues ev env caller site early index pending s).2.earlyArguments =
      s.earlyArguments)
    (calm : ¬ Fatal (argumentValues ev env caller site early index pending s).1) :
    argumentValues ev env caller site early index pending s =
      argumentValues ev env caller site never index pending s := by
  induction pending generalizing index s with
  | nil => rfl
  | cons p rest ih =>
    have later : Enduring (argumentValues ev env caller site early (index + 1) rest) :=
      Enduring.counting.holds_argumentValues enduring _ _ _ _ _ _
    rw [argumentValues] at same calm ⊢
    rw [argumentValues]
    rcases argumentValue_cases ev env caller site early index p s with lazy | ⟨_, e, hurried⟩
    · rw [bind_apply, lazy] at same calm ⊢
      rw [bind_apply]
      obtain ⟨store, _, kept⟩ :=
        lazyValue_session ev env caller site Store.evolution_true index p s
      rcases run : argumentValue ev env caller site never index p s with ⟨u | v, t⟩
      · rfl
      · rw [run] at same calm kept
        dsimp only at same calm kept ⊢
        obtain ⟨session, fatal⟩ := bind_pure_session
          (argumentValues ev env caller site early (index + 1) rest) (v :: ·) t
        have uncounted : t.earlyArguments = s.earlyArguments := by
          rw [kept]
          rfl
        rw [session] at same
        rw [bind_apply, bind_apply, ih (index + 1) (s := t)]
        · rw [kept]
          exact strict
        · rw [kept]
          exact alive
        · rw [kept]
          exact unflagged
        · rw [uncounted]
          exact same
        · exact fun given => calm (fatal given)
    · have hurries := eagerArgument_hurries confining enduring strict alive unflagged e env site
      rw [← hurried] at hurries
      have onward (v : Value) : Enduring (argumentValues ev env caller site early (index + 1) rest >>=
          fun vs => pure (v :: vs)) := later.andThen fun _ => .unchanged fun _ => rfl
      rcases hurries.bind onward with counted | fatal
      · exact absurd same (Nat.ne_of_gt counted)
      · exact absurd fatal calm

end Arguments

/-! Calls. -/

namespace Session

/-- Two twins of one session are twins of each other. -/
theorem Twin.beside {s t u : Session} (first : s.Twin t) (second : s.Twin u) : t.Twin u := by
  obtain ⟨early, sites, forced, rfl, caches⟩ := first
  obtain ⟨early', sites', forced', rfl, caches'⟩ := second
  exact ⟨early', sites', forced', rfl, fun node => (caches' node).trans (caches node).symm⟩

theorem Twin.refl (s : Session) : s.Twin s :=
  ⟨s.options.eagerPromises, s.sites, s.forced, rfl, fun _ => rfl⟩

end Session

/-- Working out a plan changes the plan only. -/
theorem simpleArgs_plan (site : NodeId) (args : List Arg) (s : Session) :
    ∃ simple t, simpleArgs site args s = (.ok simple, t) ∧ s.Twin t ∧ t.options = s.options := by
  obtain ⟨simple, known | noted⟩ := simpleArgs_cases site args s
  · exact ⟨simple, s, known, .refl s, rfl⟩
  · refine ⟨simple, _, noted, ⟨s.options.eagerPromises, _, s.forced, rfl, fun node => ?_⟩, rfl⟩
    rw [Session.site_setSite]
    split
    · rename_i same
      rw [same]
    · rfl

theorem forcedFormals_plan (f : Function) (s : Session) :
    ∃ forced t, forcedFormals f s = (.ok forced, t) ∧ s.Twin t ∧ t.options = s.options := by
  obtain ⟨forced, known | noted⟩ := forcedFormals_cases f s
  · exact ⟨forced, s, known, .refl s, rfl⟩
  · exact ⟨forced, _, noted, ⟨s.options.eagerPromises, s.sites, _, rfl, fun _ => rfl⟩, rfl⟩

section Calls
variable {depth : Nat} {env : EnvId} {caller : RecordId} {site : NodeId}

theorem enduring_plannedValues (f : Function) (args : List Arg) (slots : List FormalSlot)
    (pending : List Pending) :
    Enduring (plannedValues (eval depth) env caller site f args slots pending) :=
  Enduring.andThen (Enduring.simpleArgs _ _) fun _ =>
    Enduring.andThen (Enduring.forcedFormals _) fun _ =>
      Enduring.counting.holds_argumentValues (Enduring.law.evaluates_eval depth) _ _ _ _ _ _

/-- A plan is worked out, and then followed. -/
theorem plannedValues_run {ev : Evaluator} (f : Function) (args : List Arg) (slots : List FormalSlot)
    (pending : List Pending) (s : Session) :
    ∃ early s', s.Twin s' ∧ s'.options = s.options ∧
      plannedValues ev env caller site f args slots pending s =
        argumentValues ev env caller site early 0 pending s' := by
  obtain ⟨simple, t, first, twins, options⟩ := simpleArgs_plan site args s
  obtain ⟨forced, s', second, twins', options'⟩ := forcedFormals_plan f t
  let early (index position : Nat) : Bool :=
    simple[position]?.getD false && (formalOf? slots index).any fun i => forced[i]?.getD false
  refine ⟨early, s', Session.Twin.beside (Session.Twin.beside twins (.refl s)) twins',
    options'.trans options, ?_⟩
  unfold plannedValues
  rw [bind_apply, first]
  dsimp only
  rw [bind_apply, second]

/-- Where a plan leads to no early evaluation, the values are those of a lazy twin. -/
theorem plannedValues_lazily (f : Function) (args : List Arg) (slots : List FormalSlot)
    (pending : List Pending) {s : Session} (strict : s.builtins.PureStrict)
    (alive : s.records.contains caller = true) (unflagged : s.records.eagerOnly caller = false)
    (same : (plannedValues (eval depth) env caller site f args slots pending s).2.earlyArguments =
      s.earlyArguments)
    (calm : ¬ Fatal (plannedValues (eval depth) env caller site f args slots pending s).1) :
    ∃ s', s.Twin s' ∧ s'.options = s.options ∧
      plannedValues (eval depth) env caller site f args slots pending s =
        argumentValues (eval depth) env caller site never 0 pending s' := by
  obtain ⟨early, s', twin, options, run⟩ := plannedValues_run f args slots pending s
  refine ⟨s', twin, options, ?_⟩
  rw [run] at same calm ⊢
  obtain ⟨_, _, _, rfl, _⟩ := twin
  exact argumentValues_lazily env caller site (confining_eval depth)
    (Enduring.law.evaluates_eval depth) early 0 pending strict alive unflagged same calm

/-- The arguments of a call follow a plan, or none is evaluated early. -/
theorem suppliedValues_cases {ev : Evaluator} (f : Function) (args : List Arg) (slots : List FormalSlot)
    (pending : List Pending) (s : Session) :
    s.options.eagerPromises = true ∧ s.store.trusts site = true ∧ s.records.contains caller = true ∧
      suppliedValues ev env caller site f args slots pending s =
        plannedValues ev env caller site f args slots pending s ∨
    suppliedValues ev env caller site f args slots pending s =
      argumentValues ev env caller site never 0 pending s := by
  unfold suppliedValues
  rw [get_bind]
  split
  · rename_i planned
    simp only [Bool.and_eq_true] at planned
    exact .inl ⟨planned.1.1, planned.1.2, planned.2, rfl⟩
  · exact .inr rfl

theorem suppliedValues_lazy (f : Function) (args : List Arg) (slots : List FormalSlot)
    (pending : List Pending) {t : Session} (lazy : t.options.eagerPromises = false) :
    suppliedValues (eval depth) env caller site f args slots pending t =
      argumentValues (eval depth) env caller site never 0 pending t := by
  rcases suppliedValues_cases f args slots pending t with ⟨eager, _⟩ | run
  · rw [lazy] at eager
    cases eager
  · exact run

theorem inStepAt_suppliedValues (f : Function) (args : List Arg) (slots : List FormalSlot)
    (pending : List Pending) {s : Session} (strict : s.builtins.PureStrict)
    (unflagged : s.records.eagerOnly caller = false) :
    InStepAt (suppliedValues (eval depth) env caller site f args slots pending) s := by
  have steady : InStep (argumentValues (eval depth) env caller site never 0 pending) :=
    inStep_lazyValues _ _ _ _ _ _
  rcases suppliedValues_cases f args slots pending s with ⟨eager, _, alive, run⟩ | run
  · constructor
    · rw [run]
      exact enduring_plannedValues f args slots pending s
    · intro lazy
      rw [eager] at lazy
      cases lazy
    · intro same calm t twins lazy
      rw [run] at same calm ⊢
      rw [suppliedValues_lazy f args slots pending lazy]
      obtain ⟨s', twin, options, given⟩ :=
        plannedValues_lazily f args slots pending strict alive unflagged same calm
      rw [given] at same calm ⊢
      have counted : s'.earlyArguments = s.earlyArguments := by
        obtain ⟨_, _, _, rfl, _⟩ := twin
        rfl
      have strict' : s'.builtins.PureStrict := by
        rw [twin.builtins]
        exact strict
      exact (steady s' strict').twin (same.trans counted.symm) calm t (twin.beside twins) lazy
  · obtain ⟨endures, lazily, twin⟩ := steady s strict
    constructor
    · rw [run]
      exact endures
    · rw [run]
      exact lazily
    · intro same calm t twins lazy
      rw [run] at same calm ⊢
      rw [suppliedValues_lazy f args slots pending lazy]
      exact twin same calm t twins lazy

theorem inStepAt_closureArgs (f : Function) (call : Expr) (args : List Arg) {s : Session}
    (strict : s.builtins.PureStrict) (unflagged : s.records.eagerOnly caller = false) :
    InStepAt (closureArgs (eval depth) f call args env caller) s := by
  have expands : InStep (expandArgs env caller 0 args) := InStep.rules.holds_expandArgs _ _ _ _
  refine InStep.bind_at (expands.options strict) (expands s strict) fun expanded _ => ?_
  rw [Reads.expandArgs]
  refine InStep.reading_at (fun _ _ _ => rfl) ?_
  have fits (labels : List String) : InStep (matchCall f expanded.1 labels call) :=
    InStep.rules.holds_matchCall _ _ _ _
  refine InStep.bind_at ((fits _).options strict) (fits _ s strict) fun slots _ => ?_
  rw [Reads.matchCall]
  refine InStep.bind_at ?_ (inStepAt_suppliedValues f args slots expanded.2 strict unflagged)
    fun values _ => Steady.inStepAt {} _
  intro t _
  exact (Enduring.planning.holds_suppliedValues (Enduring.law.evaluates_eval depth) _ _ _ _ _ _ _ t).options

theorem inStep_arguments (f : Function) (call : Expr) (args : List Arg) (env : EnvId)
    (caller : RecordId) : InStep (do
      ensureLazy caller
      closureArgs (eval depth) f call args env caller) := by
  intro s strict
  have guards : InStep (ensureLazy caller) := InStep.rules.holds_ensureLazy caller
  refine InStep.bind_at (guards.options strict) (guards s strict) fun _ passed => ?_
  rw [ensureLazy_apply] at passed ⊢
  cases unflagged : s.records.eagerOnly caller with
  | true =>
    rw [unflagged] at passed
    cases passed
  | false => exact inStepAt_closureArgs f call args strict unflagged

end Calls

def InStep.plain : Law := SearchLaw.law
  { toRules := InStep.rules
    force := InStep.forcing.holds_force
    missingProbe := InStep.forcing.holds_isMissingArgument } fun _ _ => trivial

/-- The law that a session and its lazy twins stay in step. -/
def InStep.law : CallLaw where
  toLaw := InStep.plain
  arguments _ := inStep_arguments
  useMethod h := InStep.plain.holds_useMethod h InStep.administering fun _ _ => trivial
  nextMethod h := InStep.plain.holds_nextMethod h fun _ _ => trivial
  standardGeneric h := InStep.plain.holds_standardGeneric h InStep.administering


/-! Programs. -/

namespace Session

/-- An outcome that a program may go on after. -/
def Calm (r : Except Failure Value) : Prop := ∀ f, r = .error f → f.isFatal = false

/-- What an evaluation amounts to for a host: an unwinding is a failure, and is reported. -/
def settle : Except Unwind Value × Session → Except Failure Value × Session
  | (.ok v, s) => (.ok v, s)
  | (.error u, s) => (.error u.toFailure, s.reportFailure u.toFailure)

theorem Twin.settle {r : Except Unwind Value} {s t : Session} (twin : s.Twin t) :
    (settle (r, t)).1 = (settle (r, s)).1 ∧ (settle (r, s)).2.Twin (settle (r, t)).2 := by
  obtain ⟨early, sites, forced, rfl, caches⟩ := twin
  rcases r with (f | ⟨env, v⟩) | v
  · cases f <;> exact ⟨rfl, early, sites, forced, rfl, caches⟩
  · exact ⟨rfl, early, sites, forced, rfl, caches⟩
  · exact ⟨rfl, early, sites, forced, rfl, caches⟩

theorem Twin.withStore {s t : Session} (twin : s.Twin t) (store : Store) :
    Twin { s with store } { t with store } := by
  obtain ⟨early, sites, forced, rfl, caches⟩ := twin
  exact ⟨early, sites, forced, rfl, caches⟩

theorem Twin.visible {s t : Session} (twin : s.Twin t) : t.store = s.store ∧
    t.output = s.output ∧ t.diagnostics = s.diagnostics ∧ t.earlyArguments = s.earlyArguments := by
  obtain ⟨_, _, _, rfl, _⟩ := twin
  exact ⟨rfl, rfl, rfl, rfl⟩

end Session
end CallByNeed
