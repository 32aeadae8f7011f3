import CallByNeed.Proofs.Guards
import CallByNeed.Proofs.Hosting
import CallByNeed.Proofs.Stepping

/-!
The signal that gives up early evaluation stays inside. An evaluation is watched: at every expression it
comes to, a watch looks whether some function runs on behalf of a record that is flagged for early
evaluation, and after each whether all flags are as they were. From every session that a host can bring
about the alarm of the watch is never raised, and the signal never reaches the host.
-/
namespace CallByNeed

/-- Everything may be mentioned. Vectors have to exist or need not. -/
def Ambit.everything (closed : Prop) : Ambit where
  closed := closed
  promise _ := True
  builtin _ := True
  symbol _ := True
  varargs := trivial
  method _ _ := trivial
  setter _ := trivial

namespace Records

/-- The records on behalf of which a record runs. -/
def callers (rs : Records) (r : Record) : List RecordId :=
  (r.parent.map fun p => rs.ancestryWithin (p.index + 1) p).getD []

/-- No function runs on behalf of a flagged record. -/
def Clear (rs : Records) : Prop :=
  ∀ r ∈ rs.live, r.isFunction = true → ∀ p ∈ rs.callers r, rs.eagerOnly p = false

instance (rs : Records) : Decidable rs.Clear :=
  inferInstanceAs (Decidable (∀ r ∈ rs.live, r.isFunction = true → ∀ p ∈ rs.callers r,
    rs.eagerOnly p = false))

/-- The records that are alive, with their flags. -/
def flags (rs : Records) : List (RecordId × Bool) := rs.live.map fun r => (r.id, r.eagerOnly)

variable {A : Ambit} {n : Nat} {rs : Records} {c : RecordId}

theorem flagged_alive (flag : rs.eagerOnly c = true) : ∃ r ∈ rs.live, r.id = c ∧ r.eagerOnly = true := by
  unfold Records.eagerOnly at flag
  cases found : rs.get? c with
  | none =>
    rw [found] at flag
    cases flag
  | some r =>
    rw [found] at flag
    obtain ⟨member, same⟩ := mem_of_get? found
    exact ⟨r, member, same, flag⟩

/-- A record that runs on behalf of a flagged one is flagged. -/
theorem Sound.flagged_of_ancestor (sound : rs.Sound A n) {steps : Nat} {p : RecordId}
    (member : p ∈ rs.ancestryWithin steps c) (flagged : rs.eagerOnly p = true) :
    rs.eagerOnly c = true := by
  induction steps generalizing c with
  | zero => cases member
  | succ steps ih =>
    rcases List.mem_cons.mp member with rfl | above
    · exact flagged
    cases found : rs.get? c with
    | none =>
      rw [found] at above
      cases above
    | some r =>
      rw [found] at above
      cases parent : r.parent with
      | none =>
        rw [Option.bind_some, parent] at above
        cases above
      | some q =>
        rw [Option.bind_some, parent] at above
        obtain ⟨rq, there, rfl, raised⟩ := flagged_alive (ih above)
        obtain ⟨alive, rfl⟩ := mem_of_get? found
        rw [sound.eagerOnly_of_mem alive]
        exact (sound.orderly r alive rq there parent raised).1

theorem Sound.clear (sound : rs.Sound A n) : rs.Clear := by
  intro r alive function p above
  unfold callers at above
  cases parent : r.parent with
  | none =>
    rw [parent] at above
    cases above
  | some q =>
    rw [parent] at above
    refine Bool.eq_false_iff.mpr fun flagged => ?_
    obtain ⟨rq, there, rfl, raised⟩ := flagged_alive (sound.flagged_of_ancestor above flagged)
    have plain := (sound.orderly r alive rq there parent raised).2
    rw [function] at plain
    cases plain

end Records

/-- Runs a computation under a watch, which raises an alarm if a function runs on behalf of a flagged
record at its start, or if flags were left changed at its end. Without an alarm there is no watch. -/
def watch : Option (EvalM Unit) → EvalM Value → EvalM Value
  | none, m => m
  | some alarm, m => do
    let s ← get
    unless s.records.Clear do alarm
    let outcome ← observe m
    let t ← get
    unless t.records.flags = s.records.flags do alarm
    resume outcome

/-- Evaluation with every expression under a watch. -/
def watched (alarm : Option (EvalM Unit)) : Nat → Evaluator
  | 0 => fun _ _ _ => fail .exhausted
  | depth + 1 => fun e env c => watch alarm (evalStep (watched alarm depth) e env c)

theorem watched_none (depth : Nat) : watched none depth = eval depth := by
  induction depth with
  | zero => rfl
  | succ depth ih =>
    funext e env c
    change evalStep (watched none depth) e env c = evalStep (eval depth) e env c
    rw [ih]

theorem watch_apply {A : Ambit} (alarm : Option (EvalM Unit)) {m : EvalM Value} {s t : Session}
    {r : Except Unwind Value} (sound : s.Sound A) (run : m s = (r, t)) (follows : s.Follows A t) :
    watch alarm m s = (r, t) := by
  cases alarm with
  | none => exact run
  | some alarm =>
    have same : t.records.flags = s.records.flags := by
      unfold Records.flags
      rw [follows.live]
    unfold watch
    dsimp only
    rw [get_bind, if_pos sound.records.clear, observe_bind, run]
    dsimp only
    rw [get_bind, if_pos same]
    rcases r with u | v <;> rfl

/-- The evaluation of everything, with and without a watch. -/
def Regime.watching (closed : Prop) : Regime where
  ι := Option (EvalM Unit)
  late := ⊤
  proper := inferInstance
  ambit := .everything closed
  total := False

namespace Regime

variable {closed : Prop} {w : Session} {c : RecordId}

/-- The watch stays silent. -/
theorem Conducts.watching {m : Option (EvalM Unit) → EvalM Value} {Q : Nat → Value → Prop}
    (conducts : (Regime.watching closed).Conducts w Q m) :
    (Regime.watching closed).Conducts w Q fun alarm => watch alarm (m alarm) := by
  intro s sound follows
  obtain ⟨r, t, runs, sound', follows', ends⟩ := conducts s sound follows
  refine ⟨r, t, ?_, sound', follows', ends⟩
  filter_upwards [runs] with alarm run
  exact watch_apply alarm sound run follows'

/-- Every evaluation is conducted, and comes to the same under every watch. -/
theorem watching_evaluates (depth : Nat) (s : Session) (e : Expr) (env : EnvId) (c : RecordId)
    (issued : c.index < s.records.next) (childless : s.records.Childless c)
    (reads : (Ambit.everything closed).Reads s.extent e) :
    (watching closed).Conducts s (Ambit.everything closed).Admits
      fun alarm => watched alarm depth e env c := by
  induction depth generalizing s e env c with
  | zero => exact Conducts.permitted ⟨nofun, fun _ => False.elim⟩
  | succ depth ih =>
    have liberal : (watching closed).Liberal (watched · depth) :=
      ⟨fun _ => trivial, fun _ => trivial, ih⟩
    have step : (watching closed).Conducts s (Ambit.everything closed).Admits
        fun alarm => evalStep (watched alarm depth) e env c := by
      refine Conducts.evalStep (fun _ _ => trivial) (liberal.ready issued) (fun _ _ _ => liberal) childless env reads
        fun t e' follows _ ok => ⟨ok, fun u env' beside => ?_⟩
      exact ih u e' env' c (Nat.lt_of_lt_of_le issued (Nat.le_trans follows.next beside.next))
        (beside.childless (follows.childless childless)) (ok.mono beside.extent_le)
    exact step.watching

theorem watching_liberal (closed : Prop) (depth : Nat) : (watching closed).Liberal (watched · depth) :=
  ⟨fun _ => trivial, fun _ => trivial, watching_evaluates depth⟩

end Regime
theorem Ambit.admits_anything (n : Nat) (v : Value) : (Ambit.everything False).Admits n v := by
  intro m _
  cases m with
  | vector id => exact False.elim
  | promise id | builtin id | symbol name => trivial

theorem Ambit.reads_anything (n : Nat) (e : Expr) : (Ambit.everything False).Reads n e := by
  intro m _
  cases m with
  | vector id => exact False.elim
  | promise id | builtin id | symbol name => trivial

namespace Heap

variable {h : Heap}

/-- Collecting puts slots that are there on the free list. -/
theorem free_collect (s : Store) (roots : List EnvId) (values : List Value)
    (free : ∀ i ∈ h.free, i < h.slots.size) :
    ∀ i ∈ (h.collect s roots values).2.free, i < (h.collect s roots values).2.slots.size := by
  have collected (freed : List Nat) (slots : Array Slot) (frees : List Nat)
      (inside : ∀ i ∈ freed, i < slots.size) (old : ∀ i ∈ frees, i < slots.size) :
      ∀ i ∈ freed.foldl (fun free i => i :: free) frees,
        i < (freed.foldl (fun slots i => slots.modify i freeSlot) slots).size := by
    induction freed generalizing slots frees with
    | nil => exact old
    | cons j rest ih =>
      obtain ⟨first, others⟩ := List.forall_mem_cons.mp inside
      refine ih _ _ (by simpa using others) (List.forall_mem_cons.mpr ⟨?_, ?_⟩)
      · simpa using first
      · simpa using old
  unfold Heap.collect Heap.bumpEpoch
  dsimp only
  split
  all_goals
    refine collected _ _ _ (fun i member => ?_) free
    exact List.mem_range.mp (List.mem_filter.mp member).1

theorem Sound.bindBuiltins {A : Ambit} {n : Nat} {bindings : List (Name × Nat)} (sound : h.Sound A n)
    (ok : ∀ name id, (name, id) ∈ bindings → A.symbol name → A.Admits n (.builtin name id)) :
    (Session.bindBuiltins bindings h).Sound A n := by
  unfold Session.bindBuiltins
  induction bindings generalizing h with
  | nil => exact sound
  | cons entry rest ih =>
    obtain ⟨name, id⟩ := entry
    refine ih ?_ fun other number member => ok other number (List.mem_cons_of_mem _ member)
    dsimp only
    unfold Heap.define
    cases h.frame Session.base with
    | error f => exact sound
    | ok frame => exact sound.bind Session.base (ok name id List.mem_cons_self)

end Heap

namespace Session

variable {α : Type} {s t : Session}

/-- Nothing runs, and the free slots of the heap are there. -/
structure Idle (s : Session) : Prop where
  live : s.records.live = []
  free : ∀ i ∈ s.heap.free, i < s.heap.slots.size

open Ambit in
theorem Idle.sound (idle : s.Idle) : s.Sound (.everything False) where
  store := ⟨fun _ _ v _ => admits_anything _ v, fun _ _ => ⟨reads_anything _ _,
    fun v _ => admits_anything _ v, fun v _ => admits_anything _ v⟩, fun _ _ v _ => admits_anything _ v⟩
  heap := ⟨idle.free, fun _ _ _ _ _ _ _ => admits_anything _ _⟩
  records := by
    constructor <;> simp [idle.live]
  methods v _ := admits_anything _ v
  tables _ _ v _ := admits_anything _ v
  caches _ _ := ⟨fun _ _ => admits_anything _ _, fun _ _ => admits_anything _ _⟩

/-- What runs under a top-level record, with and without a watch. -/
theorem Idle.run {m : Option (EvalM Unit) → RecordId → EvalM α} {Q : Nat → α → Prop} (idle : s.Idle)
    (conducts : ∀ (t : Session) (top : RecordId), top.index < t.records.next →
      t.records.Childless top → t.records.eagerOnly top = false →
        (Regime.watching False).Conducts t Q fun alarm => m alarm top) :
    ∃ r t, (∀ alarm, underRecord none none .topLevel (m alarm) s = (r, t)) ∧ t.Idle ∧
      (Regime.watching False).Ends s Q t.extent r := by
  obtain ⟨a, t, runs, ended, follows, ends⟩ := Regime.topLevel (K := .watching False) idle.sound
    fun u r sound nests unflagged => by
      have alive : r ∈ u.records.live := nests.live ▸ List.mem_cons_self
      exact conducts u r.id (nests.issued sound) nests.childless
        ((sound.records.eagerOnly_of_mem alive).trans unflagged)
  exact ⟨a, t, fun alarm => Filter.eventually_top.mp runs alarm,
    ⟨follows.live.trans idle.live, ended.heap.free⟩, ends⟩

/-- No builtin raises the signal by itself. -/
def Plain (s : Session) : Prop := ∀ b ∈ s.builtins.functions, ¬b.Raises .cannotOptimize

instance (s : Session) : Decidable s.Plain :=
  inferInstanceAs (Decidable (∀ b ∈ s.builtins.functions, ¬b.Raises .cannotOptimize))

theorem Idle.host {m : Option (EvalM Unit) → RecordId → EvalM α} {Q : Nat → α → Prop} (idle : s.Idle)
    (conducts : ∀ (t : Session) (top : RecordId), top.index < t.records.next →
      t.records.Childless top → t.records.eagerOnly top = false →
        (Regime.watching False).Conducts t Q fun alarm => m alarm top) :
    ∃ r t, (∀ alarm, atTopLevel (m alarm) s = (r, t)) ∧ t.Idle ∧
      (s.Plain → r ≠ .error .cannotOptimize) := by
  obtain ⟨a, t, runs, still, ends⟩ := idle.run conducts
  have calm : s.records.Calm := by
    intro r member
    rw [idle.live] at member
    cases member
  have permits {f : Failure} (ends : (Regime.watching False).Permits s f) (plain : s.Plain) :
      f ≠ .cannotOptimize := by
    rintro rfl
    obtain ⟨b, ⟨id, _, found⟩, raises⟩ := ends.lazily rfl calm
    exact plain b (Array.mem_of_getElem? found) raises
  rcases a with (f | ⟨env, v⟩) | a
  · refine ⟨.error f, t, fun alarm => ?_, still, fun plain same => permits ends plain (Except.error.inj same)⟩
    unfold atTopLevel
    rw [runs alarm]
    rfl
  · refine ⟨.error (Unwind.toFailure (.leave env v)), t, fun alarm => ?_, still, fun _ => nofun⟩
    unfold atTopLevel
    rw [runs alarm]
  · refine ⟨.ok a, t, fun alarm => ?_, still, fun _ => nofun⟩
    unfold atTopLevel
    rw [runs alarm]

/-! What else a host calls, by any evaluator. -/

def applyWith (ev : Evaluator) (function : Value) (names : List (Option Name)) (values : List Value) :
    HostM Value :=
  atTopLevel fun top => do
    let call ← hostCall function
    applyValues ev function call names values global top

def forceWith (ev : Evaluator) (id : PromiseId) : HostM Value := atTopLevel (CallByNeed.force ev id)

/-- A call of the host ends without the signal and with the records alive as they were, and a watch of
all that is evaluated on the way raises no alarm. -/
structure Confined (s : Session) (m : HostM α) (watching : EvalM Unit → HostM α) : Prop where
  silent : (m s).1 ≠ .error .cannotOptimize
  restored : (m s).2.records.live = s.records.live
  unalarmed : ∀ alarm, watching alarm s = m s

theorem Sound.reportFailure {A : Ambit} (sound : s.Sound A) (f : Failure) : (s.reportFailure f).Sound A := by
  cases f with
  | condition c => exact sound.same rfl
  | _ => exact sound

theorem Idle.reportFailure (idle : s.Idle) (f : Failure) : (s.reportFailure f).Idle := by
  cases f with
  | condition c => exact ⟨idle.live, idle.free⟩
  | _ => exact idle

theorem Idle.evalWith (idle : s.Idle) (e : Expr) (env : EnvId) :
    ∃ r t, (∀ alarm, Session.evalWith (watched alarm nestingLimit) e env s = (r, t)) ∧ t.Idle ∧
      (s.Plain → r ≠ .error .cannotOptimize) := by
  obtain ⟨r, t, runs, still, silent⟩ := idle.host fun t top issued childless _ =>
    Regime.watching_evaluates nestingLimit t e env top issued childless (Ambit.reads_anything _ _)
  rcases r with f | v
  · refine ⟨.error f, t.reportFailure f, fun alarm => ?_, still.reportFailure f, silent⟩
    unfold Session.evalWith
    rw [runs alarm]
  · refine ⟨.ok v, t, fun alarm => ?_, still, silent⟩
    unfold Session.evalWith
    rw [runs alarm]

theorem conducts_hostCall {w : Session} (function : Value) : (Regime.watching False).Conducts w
    (Ambit.everything False).Reads fun _ => hostCall function := by
  refine .storing (Ambit.checks_seq (Ambit.checks_constantNode (Ambit.admits_anything _ _)) fun _ f _ reads =>
    Ambit.checks_callNode reads (List.forall_mem_nil _))

theorem Idle.applyWith (idle : s.Idle) (function : Value) (names : List (Option Name))
    (values : List Value) :
    ∃ r t, (∀ alarm, Session.applyWith (watched alarm nestingLimit) function names values s = (r, t)) ∧
      t.Idle ∧ (s.Plain → r ≠ .error .cannotOptimize) := by
  refine idle.host (Q := (Ambit.everything False).Admits) fun t top issued _ _ =>
    .andThen (conducts_hostCall function) fun u call follows code => ?_
  have liberal := Regime.watching_liberal False nestingLimit
  exact Regime.Conducts.applyValues (Regime.guarded_idle fun _ _ => trivial)
    (liberal.ready (Nat.lt_of_lt_of_le issued follows.next)) (fun _ _ _ => liberal) names global (Ambit.admits_anything _ _) code
    fun v _ => Ambit.admits_anything _ v

theorem Idle.forceWith (idle : s.Idle) (id : PromiseId) :
    ∃ r t, (∀ alarm, Session.forceWith (watched alarm nestingLimit) id s = (r, t)) ∧
      t.Idle ∧ (s.Plain → r ≠ .error .cannotOptimize) := by
  have liberal := Regime.watching_liberal False nestingLimit
  exact idle.host fun t top issued _ _ => Regime.Conducts.force (liberal.ready issued) trivial

theorem Idle.buildFrame (idle : s.Idle) (function : Value) (supplied : Supplied) :
    ∃ r t, Session.buildFrame function supplied s = (r, t) ∧ t.Idle ∧
      (s.Plain → r ≠ .error .cannotOptimize) := by
  cases function with
  | closure id f definedIn =>
    obtain ⟨r, t, runs, rest⟩ := idle.host (Q := Ambit.Any)
      (m := fun _ top => do
        let call ← hostCall (.closure id f definedIn)
        let slots ← matchSupplied f supplied call
        enterFrame (.closure id f definedIn) f definedIn call supplied slots top none >>=
          fun made => releasing made.2 (pure made.1)) fun t top issued _ unflagged => by
      refine .andThen (conducts_hostCall _) fun u call first code => ?_
      refine .andThen (Regime.Conducts.matchSupplied f supplied call) fun x slots second _ => ?_
      have late := first.trans second
      refine Regime.Conducts.framing (fun _ => trivial) (Nat.lt_of_lt_of_le issued late.next) ?_ id
        definedIn slots ⟨Ambit.reads_anything _ _, Ambit.reads_anything _ _,
          fun _ v _ => Ambit.admits_anything _ v, nofun⟩
      rw [late.eagerOnly]
      exact unflagged
    exact ⟨r, t, runs none, rest⟩
  | _ => exact ⟨_, s, rfl, idle, fun _ => nofun⟩

/-! What a host does between evaluations. -/

theorem Idle.bind (idle : s.Idle) (env : EnvId) (name : Name) (v : Value) :
    ({ s with heap := s.heap.bind env name v } : Session).Idle := by
  exact ⟨idle.live, (idle.sound.heap.bind env fun _ => Ambit.admits_anything _ v).free⟩

theorem Idle.defineIn (idle : s.Idle) (env : EnvId) (name : Name) (v : Value) :
    (Session.defineIn env name v s).2.Idle := by
  unfold Session.defineIn Heap.define
  cases s.heap.frame env with
  | error f => exact idle
  | ok frame => exact idle.bind env name v

theorem Idle.collectGarbage (idle : s.Idle) : s.collectGarbage.2.Idle :=
  ⟨idle.live, Heap.free_collect _ _ _ idle.free⟩

theorem Idle.hostStep (idle : s.Idle) (step : HostStep s t) : t.Idle := by
  cases step with
  | load code | makeVector c | makeDots d | makeClosure f env => exact ⟨idle.live, idle.free⟩
  | makePromise e env =>
    obtain ⟨r, t, runs, still, _⟩ := idle.host (Q := Ambit.Any)
      (m := fun _ top => allocate (Store.lazyPromise e env .supplied top)) fun t top _ _ _ =>
        (Regime.Conducts.lazyPromise env .supplied top (Ambit.reads_anything _ e)).weaken
          fun _ _ _ => trivial
    unfold Session.makePromise
    rw [runs none]
    exact still
  | evalIn e env =>
    obtain ⟨r, t, runs, still, _⟩ := idle.evalWith e env
    have run := runs none
    rw [watched_none] at run
    change (Session.evalWith (eval nestingLimit) e env s).2.Idle
    rw [run]
    exact still
  | apply function names values =>
    obtain ⟨r, t, runs, still, _⟩ := idle.applyWith function names values
    have run := runs none
    rw [watched_none] at run
    change (Session.applyWith (eval nestingLimit) function names values s).2.Idle
    rw [run]
    exact still
  | force id =>
    obtain ⟨r, t, runs, still, _⟩ := idle.forceWith id
    have run := runs none
    rw [watched_none] at run
    change (Session.forceWith (eval nestingLimit) id s).2.Idle
    rw [run]
    exact still
  | buildFrame function supplied =>
    obtain ⟨r, t, run, still, _⟩ := idle.buildFrame function supplied
    rw [run]
    exact still
  | defineIn env name v => exact idle.defineIn env name v
  | defineGlobal name v =>
    exact Idle.defineIn (s := { s with store := s.store.share v }) ⟨idle.live, idle.free⟩ global name v
  | registerBuiltin b =>
    exact Idle.defineIn (s := { s with builtins := (s.builtins.register b).2 }) ⟨idle.live, idle.free⟩
      base b.name _
  | raiseInterrupt | setResolver r | clearDiagnostics | takeOutput => exact ⟨idle.live, idle.free⟩
  | collectGarbage => exact idle.collectGarbage

/-! A session that was started holds builtins and nothing else. -/

section Start

variable {A : Ambit} (options : Options)

theorem heap_start (n : Nat) (ok : ∀ b id, Registry.standard.functions[id]? = some b →
    A.symbol b.name → A.builtin id) : (start options).heap.Sound A n := by
  have empty : ({} : Heap).Sound A n :=
    ⟨List.forall_mem_nil _, fun _ member => absurd member (Array.not_mem_empty _)⟩
  unfold start
  generalize ImplicitClasses.make {} = made
  obtain ⟨implicit, store⟩ := made
  dsimp only
  refine Heap.Sound.bindBuiltins ?_ fun name id member allowed => ?_
  · exact (empty.alloc none (some "base")).alloc _ (some "R_GlobalEnv")
  obtain ⟨⟨b, number⟩, there, same⟩ := List.mem_map.mp member
  cases same
  have found := List.mem_zipIdx_iff_getElem?.mp there
  exact Ambit.admits_builtin.mpr (ok b number (by simpa using found) allowed)

theorem store_start : (start options).store.Sound A := by
  have empty : ∀ c ∈ (ImplicitClasses.make {}).2.vectors, c.held.isEmpty = true := by decide
  refine ⟨fun c member => ?_, ?_, ?_⟩
  · rw [List.isEmpty_iff.mp (empty c member)]
    exact Ambit.admitsAll_nil
  · exact fun _ member => absurd member (Array.not_mem_empty _)
  · exact fun _ member => absurd member (Array.not_mem_empty _)

theorem sound_start (ok : ∀ b id, Registry.standard.functions[id]? = some b → A.symbol b.name →
    A.builtin id) : (start options).Sound A where
  store := store_start options
  heap := heap_start options _ ok
  records := ⟨List.nodup_nil, List.forall_mem_nil _, List.forall_mem_nil _, List.forall_mem_nil _,
    List.forall_mem_nil _⟩
  methods := List.forall_mem_nil _
  tables _ member := absurd member (Array.not_mem_empty _)
  caches := List.forall_mem_nil _

end Start

theorem idle_start (options : Options) : (start options).Idle :=
  ⟨rfl, (heap_start (A := .everything False) options 0 fun _ _ _ _ => trivial).free⟩

theorem Reachable.idle (reachable : s.Reachable) : s.Idle := by
  obtain ⟨options, run⟩ := reachable
  induction run with
  | refl => exact idle_start options
  | tail _ step ih => exact ih.hostStep step

theorem confined_of_run {m : HostM α} {watching : Option (EvalM Unit) → HostM α} {r : Except Failure α}
    (idle : s.Idle) (plain : s.Plain) (runs : ∀ alarm, watching alarm s = (r, t))
    (unwatched : watching none = m) (still : t.Idle) (silent : s.Plain → r ≠ .error .cannotOptimize) :
    s.Confined m fun alarm => watching (some alarm) := by
  have run : m s = (r, t) := unwatched ▸ runs none
  refine ⟨?_, ?_, fun alarm => ?_⟩
  · rw [run]
    exact silent plain
  · rw [run, idle.live]
    exact still.live
  · rw [run]
    exact runs (some alarm)

/-- A `try` does not stop the signal. -/
theorem attempt_signal {ev : Evaluator} {call : SpecialCall} {e : Expr} {flag : Option Value} {u x : Session}
    (there : call.arg? "expr" 0 = some e) (flagged : evalArg? ev call "silent" 1 s = (.ok flag, u))
    (raised : ev e call.env call.caller u = (.error (.failure .cannotOptimize), x)) :
    attempt ev call s = (.error (.failure .cannotOptimize), x) := by
  unfold attempt
  rw [there]
  dsimp only
  rw [bind_apply, flagged]
  dsimp only
  rw [get_bind, observe_bind, raised]
  rfl

/-- In every session that a host can bring about, whose builtins do not raise the signal by themselves:
whatever the host evaluates, calls, forces or makes a frame for ends without the signal and leaves the
records that are alive as they were, flags included. At no expression on the way does a function run on
behalf of a flagged record, and after each the flags are as they were. No `try` stops the signal. -/
theorem eager_signal_confined (reachable : s.Reachable) (plain : s.Plain) :
    (∀ e env, s.Confined (evalIn e env) fun alarm =>
      evalWith (watched (some alarm) nestingLimit) e env) ∧
    (∀ function names values, s.Confined (apply function names values) fun alarm =>
      applyWith (watched (some alarm) nestingLimit) function names values) ∧
    (∀ id, s.Confined (forcePromise id) fun alarm => forceWith (watched (some alarm) nestingLimit) id) ∧
    (∀ function supplied, s.Confined (buildFrame function supplied) fun _ => buildFrame function supplied) ∧
    ∀ (ev : Evaluator) (call : SpecialCall) (e : Expr) (flag : Option Value) (t u x : Session),
      call.arg? "expr" 0 = some e → evalArg? ev call "silent" 1 t = (.ok flag, u) →
        ev e call.env call.caller u = (.error (.failure .cannotOptimize), x) →
          attempt ev call t = (.error (.failure .cannotOptimize), x) := by
  have idle := reachable.idle
  refine ⟨fun e env => ?_, fun function names values => ?_, fun id => ?_, fun function supplied => ?_,
    fun _ _ _ _ _ _ _ => attempt_signal⟩
  · obtain ⟨r, t, runs, still, silent⟩ := idle.evalWith e env
    refine confined_of_run idle plain runs ?_ still silent
    rw [watched_none]
    rfl
  · obtain ⟨r, t, runs, still, silent⟩ := idle.applyWith function names values
    refine confined_of_run idle plain runs ?_ still silent
    rw [watched_none]
    rfl
  · obtain ⟨r, t, runs, still, silent⟩ := idle.forceWith id
    refine confined_of_run idle plain runs ?_ still silent
    rw [watched_none]
    rfl
  · obtain ⟨r, t, run, still, silent⟩ := idle.buildFrame function supplied
    have runs (_ : Option (EvalM Unit)) : buildFrame function supplied s = (r, t) := run
    exact confined_of_run idle plain runs rfl still silent

/-- A function passes its argument on to another one that forces it. The argument is a promise there, so
evaluating it early is given up, and the host sees nothing of it. -/
theorem forwarded_argument_confined :
    let f : Function := ⟨⟨0⟩, [⟨"x", none⟩], .symbol ⟨1⟩ "x"⟩
    let g : Function := ⟨⟨2⟩, [⟨"y", none⟩], .call ⟨3⟩ (.symbol ⟨4⟩ "f") [⟨none, .symbol ⟨5⟩ "y"⟩]⟩
    let defined := (evalIn (.assign ⟨6⟩ (.symbol ⟨7⟩ "f") (.function f) false) global (start {})).2
    let s := (evalIn (.assign ⟨8⟩ (.symbol ⟨9⟩ "g") (.function g) false) global defined).2
    let forward : Expr := .call ⟨10⟩ (.symbol ⟨11⟩ "g") [⟨none, .symbol ⟨12⟩ "f"⟩]
    s.Plain ∧ (evalIn forward global s).2.stats.eagerAborts = 1 ∧
      s.Confined (evalIn forward global) fun alarm =>
        evalWith (watched (some alarm) nestingLimit) forward global := by
  intro f g defined s forward
  have reachable : s.Reachable :=
    ⟨{}, (Relation.ReflTransGen.single (.evalIn _ _ _)).tail (.evalIn _ _ _)⟩
  have plain : s.Plain := by decide +kernel
  have aborted : (evalIn forward global s).2.stats.eagerAborts = 1 := by decide +kernel
  exact ⟨plain, aborted, (eager_signal_confined reachable plain).1 forward global⟩

end Session

end CallByNeed
