import CallByNeed.Proofs.EarlyArguments
import CallByNeed.Proofs.Missingness
import CallByNeed.Proofs.Tally

/-!
Deoptimization is permanent. Whatever a host does and however evaluations nest, the tally of a session
changes by its steps only: arguments are evaluated early for call sites that are trusted at that moment, and
values computed ahead are used for such call sites only. A call whose site is distrusted makes no argument
early, and forcing a promise with a value computed ahead for such a site evaluates its code.
-/
namespace CallByNeed

open Relation (ReflTransGen)

variable {α β : Type}

namespace Store

variable {s t : Store}

/-- Promises are made without values computed ahead, and trust stays as it is. -/
def Quiet (s t : Store) : Prop := ∀ stats, (s.tally stats).Quiet (t.tally stats)

namespace Quiet

theorem of_same (promises : t.promises = s.promises) (distrusted : t.distrusted = s.distrusted) :
    s.Quiet t := by
  intro stats
  rw [tally_of_same promises distrusted]
  exact .refl _

theorem addPromise {p : Promise} (plain : p.eager = none) (s : Store) :
    s.Quiet (Store.addPromise p s).2 := by
  intro stats
  have none : p.advance? = none := by
    unfold Promise.advance?
    rw [plain]
    rfl
  rw [tally_addPromise, none]
  exact ⟨1, rfl⟩

theorem raise (f : Sharing → Sharing) (v : Value) (s : Store) : s.Quiet (s.setSharing f v) := by
  cases v <;> exact of_same rfl rfl

instance : Store.Evolution Quiet where
  refl _ _ := .refl _
  trans first second stats := (first stats).trans (second stats)
  addVector _ _ := of_same rfl rfl
  raise f _ := raise f
  addDots _ _ := of_same rfl rfl
  freshNode _ := of_same rfl rfl
  closure _ _ _ := of_same rfl rfl
  evaluatedPromise _ _ _ := addPromise rfl
  lazyPromise _ _ _ _ := addPromise rfl
  write _ _ _ _ _ _ := of_same rfl rfl

end Quiet
end Store

/-- Forces a promise that waits, by its code. -/
def forceCode (ev : Evaluator) (id : PromiseId) (env : EnvId) (caller : RecordId) : EvalM Value := do
  ensureLazy caller
  checkInterrupt
  evaluatePromise ev id env caller

/-- The tally changes by steps only, and no builtin changes. -/
structure Session.Charted (s t : Session) : Prop where
  builtins : t.builtins = s.builtins
  course : s.tally.Course t.tally

namespace Session.Charted

theorem of_same {s t : Session} (builtins : t.builtins = s.builtins) (tally : t.tally = s.tally) :
    s.Charted t := ⟨builtins, by rw [tally]⟩

theorem refl (s : Session) : s.Charted s := of_same rfl rfl

theorem trans {s t u : Session} (first : s.Charted t) (second : t.Charted u) : s.Charted u :=
  ⟨second.builtins.trans first.builtins, first.course.trans second.course⟩

theorem quiet {s : Session} {store : Store} (quiet : s.store.Quiet store) :
    s.Charted { s with store } := ⟨rfl, (quiet s.stats).course⟩

theorem strict {s t : Session} (charted : s.Charted t) (strict : s.builtins.PureStrict) :
    t.builtins.PureStrict := by
  rw [charted.builtins]
  exact strict

end Session.Charted

/-- However a computation ends, the tally has changed by steps only. -/
def Charting (m : EvalM α) : Prop := ∀ s : Session, s.builtins.PureStrict → s.Charted (m s).2

namespace Charting

theorem of_same {m : EvalM α} (builtins : ∀ s, (m s).2.builtins = s.builtins)
    (tally : ∀ s, (m s).2.tally = s.tally) : Charting m :=
  fun s _ => .of_same (builtins s) (tally s)

theorem bind_at {m : EvalM α} {f : α → EvalM β} {s : Session} (first : s.Charted (m s).2)
    (rest : ∀ a t, m s = (.ok a, t) → t.Charted (f a t).2) : s.Charted ((m >>= f) s).2 :=
  after_bind (P := s.Charted) first fun a t run charted => charted.trans (rest a t run)

theorem andThen {m : EvalM α} {f : α → EvalM β} (first : Charting m) (rest : ∀ a, Charting (f a)) :
    Charting (m >>= f) := by
  intro s strict
  refine bind_at (first s strict) fun a t run => rest a t ?_
  have charted := first s strict
  rw [run] at charted
  exact charted.strict strict

theorem reading {f : Session → EvalM α} (charting : ∀ s, Charting (f s)) : Charting (get >>= f) :=
  fun s => charting s s

theorem unchanged {m : EvalM α} (same : ∀ s, (m s).2 = s) : Charting m :=
  of_same (fun s => by rw [same]) fun s => by rw [same]

theorem updatingHeap (f : Heap → Except Failure Heap) : Charting (updateHeap f) := by
  refine reading fun s => ?_
  split
  · exact of_same (fun _ => rfl) fun _ => rfl
  · exact unchanged fun _ => rfl

theorem administering {g : Session → α × Session} (administrative : Administrative g) :
    Charting (modifyGet g : EvalM α) := by
  refine of_same administrative.builtins fun s => ?_
  refine Tally.ext ?_ ?_ (administrative.created s) (administrative.hits s) (administrative.deopts s)
  · exact congrArg (·.promises.toList.map Promise.advance?) (administrative.store s)
  · exact congrArg Store.distrusted (administrative.store s)

def rules : Rules where
  Holds := Charting
  Grounded _ _ := True
  Grows := Store.Quiet
  evolution := inferInstance
  value _ := unchanged fun _ => rfl
  andThen := andThen
  failure _ := unchanged fun _ => rfl
  leaving _ _ := unchanged fun _ => rfl
  reading _ := reading
  observing first rest _ := fun s strict =>
    (first s strict).trans (rest _ _ ((first s strict).strict strict))
  storing {_ m} moves := by
    intro s _
    rw [(onStore_session m s).1]
    exact .quiet (moves s.store)
  administering clerical := administering clerical.toAdministrative
  interrupting := of_same (fun _ => rfl) fun _ => rfl
  polling := by
    refine reading fun s => ?_
    split
    · exact of_same (fun _ => rfl) fun _ => rfl
    · exact unchanged fun _ => rfl
  framing _ := of_same (fun _ => rfl) fun _ => rfl
  binding env name v := by
    refine andThen (andThen (reading fun s => ?_) fun _ => unchanged fun _ => rfl) fun _ =>
      of_same (fun _ => rfl) fun _ => rfl
    split
    · exact unchanged fun _ => rfl
    · exact unchanged fun _ => rfl
  outerBinding _ _ _ := updatingHeap _
  recording _ _ _ _ := of_same (fun _ => rfl) fun _ => rfl
  closing _ _ charting := fun s strict => (charting s strict).trans (.of_same rfl rfl)
  flagging _ _ := of_same (fun _ => rfl) fun _ => rfl

/-! Forcing. -/

variable {ev : Evaluator} {s : Session}

/-- A promise with nothing left to be used is like that at every later moment. -/
theorem settled_later {t : Session} (course : s.tally.Course t.tally) {id : PromiseId}
    (inside : id.index < s.store.promises.size) (settled : (s.store.promise id).Settled) :
    (t.store.promise id).Settled := by
  have before := Store.advance_at inside s.stats
  have after : t.tally.advances[id.index]? = some (s.store.promise id).advance? := by
    refine course.later.settled before fun site pending => ?_
    have fate := Promise.settled_iff.mp settled _ pending
    cases fate
  have there : id.index < t.store.promises.size := by
    have within := (List.getElem?_eq_some_iff.mp after).1
    simpa [Session.tally, Store.tally] using within
  have same := Option.some.inj ((Store.advance_at there t.stats).symm.trans after)
  rw [Promise.settled_iff, same]
  exact Promise.settled_iff.mp settled

theorem evaluatePromise_at (h : rules.Evaluates ev) (strict : s.builtins.PureStrict) {id : PromiseId}
    (settled : (s.store.promise id).Settled) (env : EnvId) (caller : RecordId) :
    s.Charted (evaluatePromise ev id env caller s).2 := by
  unfold evaluatePromise
  cases state : (s.store.promise id).state with
  | underEvaluation own | evaluated v =>
    rw [bind_apply, onStore_apply, Disciplined.beginEvaluation_apply, state]
    exact .refl s
  | unevaluated own =>
    have inside : id.index < s.store.promises.size := Store.waiting_inside (by rw [state]; rfl)
    obtain ⟨begun, began, start⟩ : ∃ begun, onStore (Store.beginEvaluation id) s = (.ok (), begun) ∧
        s.Charted begun := by
      refine ⟨{ s with store := s.store.setPromiseState id (.underEvaluation own) }, ?_,
        .of_same rfl (Store.tally_life (settled.advance? _) s.stats)⟩
      rw [onStore_apply, Disciplined.beginEvaluation_apply, state]
    rw [bind_apply, began]
    dsimp only
    rw [get_bind, observe_bind]
    have within : Charting (underRecord (some caller) none (.promise (begun.store.promise id).caller)
        (ev (begun.store.promise id).expr env)) :=
      rules.holds_underRecord rfl fun _ => h _ _ _
    have during := within begun (start.strict strict)
    have settled' := settled_later (start.trans during).course inside settled
    generalize underRecord (some caller) none (.promise (begun.store.promise id).caller)
      (ev (begun.store.promise id).expr env) begun = ended at during settled' ⊢
    obtain ⟨u | v, t⟩ := ended
    · exact (start.trans during).trans (.of_same rfl (Store.tally_life (settled'.advance? _) t.stats))
    · have shared : t.Charted { t with store := t.store.share v } :=
        .quiet (Store.Quiet.raise _ v t.store)
      refine (start.trans during).trans (shared.trans (.of_same rfl ?_))
      rw [← Disciplined.promise_share v] at settled'
      exact Store.tally_life (settled'.advance? _) t.stats

theorem forceCode_at (h : rules.Evaluates ev) (strict : s.builtins.PureStrict) {id : PromiseId}
    (settled : (s.store.promise id).Settled) (env : EnvId) (caller : RecordId) :
    s.Charted (forceCode ev id env caller s).2 := by
  refine bind_at (rules.holds_ensureLazy caller s strict) fun _ t guarded => ?_
  obtain rfl := ensureLazy_state guarded
  refine bind_at (rules.polling t strict) fun _ u polled => ?_
  obtain rfl := checkInterrupt_state polled
  exact evaluatePromise_at h strict settled env caller

/-- A promise whose value computed ahead was given up is settled. -/
theorem settled_deoptimize {s : Store} {id : PromiseId} (inside : id.index < s.promises.size)
    (site : NodeId) : (((s.deoptimize id).distrust site).promise id).Settled := by
  have same : ((s.deoptimize id).distrust site).promise id = (s.deoptimize id).promise id := by
    unfold Store.promise
    rw [Disciplined.distrust_promises]
  unfold Store.deoptimize at same
  rw [Store.promise_modify, if_pos ⟨rfl, inside⟩] at same
  unfold Store.deoptimize
  rw [same]
  intro eager given
  obtain ⟨_, _, rfl⟩ := Option.map_eq_some_iff.mp given
  rfl

/-- A value computed ahead is used, or nothing is left to be used. -/
theorem takeEagerValue_at {id : PromiseId} {env : EnvId}
    (waiting : (s.store.promise id).state = .unevaluated env) :
    s.Charted (takeEagerValue id s).2 ∧ ∀ t, takeEagerValue id s = (.ok none, t) →
      (t.store.promise id).Settled := by
  have inside : id.index < s.store.promises.size := Store.waiting_inside (by rw [waiting]; rfl)
  rcases takeEagerValue_cases id s with ⟨settled, run⟩ | ⟨eager, ahead, standing, ⟨trusted, run⟩ | run⟩
  · rw [run]
    refine ⟨.refl s, ?_⟩
    rintro _ ⟨⟩
    exact settled
  · have shared : s.Charted { s with store := s.store.share eager.value } :=
      .quiet (Store.Quiet.raise _ eager.value s.store)
    have kept : (s.store.share eager.value).distrusted = s.store.distrusted :=
      Store.share_moves (R := Store.Trusting) eager.value s.store
    rw [← Disciplined.promise_share eager.value] at waiting ahead
    rw [Store.trusts_iff, ← kept, ← Store.trusts_iff] at trusted
    rw [run]
    exact ⟨shared.trans ⟨rfl, .single (Store.tally_used waiting ahead standing trusted _ s.stats)⟩, nofun⟩
  · rw [run]
    refine ⟨⟨rfl, .single (Store.tally_givenUp waiting ahead standing s.stats)⟩, ?_⟩
    rintro _ ⟨⟩
    exact settled_deoptimize inside eager.site

theorem force (h : rules.Evaluates ev) (id : PromiseId) (caller : RecordId) :
    Charting (force ev id caller) := by
  intro s strict
  unfold CallByNeed.force
  rw [get_bind]
  cases state : (s.store.promise id).state with
  | evaluated v => exact rules.value v s strict
  | underEvaluation env =>
    dsimp only
    split
    · exact rules.holds_failAt _ _ s strict
    · exact rules.value _ s strict
  | unevaluated env =>
    obtain ⟨charted, settled⟩ := takeEagerValue_at state
    refine bind_at charted fun found t run => ?_
    rw [run] at charted
    cases found with
    | some v => exact .refl t
    | none => exact forceCode_at h (charted.strict strict) (settled t run) env caller

/-! Arguments. -/

/-- A session comes from another by steps, with a record still there. -/
structure Attended (caller : RecordId) (s t : Session) : Prop extends s.Charted t where
  there : t.records.contains caller = true

section Arguments

variable {depth : Nat} (h : rules.Evaluates (eval depth)) (env : EnvId) {caller : RecordId} {site : NodeId}
include h

/-- An argument is evaluated early. When that comes to a value, the call site is still trusted. -/
theorem eagerArgument_at (strict : s.builtins.PureStrict) (there : s.records.contains caller = true)
    (trusted : s.store.trusts site = true) (e : Expr) :
    Attended caller s (eagerArgument (eval depth) e env caller site s).2 := by
  unfold eagerArgument
  rw [bind_apply, readHeap_apply]
  cases s.heap.versionSnapshot env with
  | error f => exact ⟨.refl s, there⟩
  | ok snapshot =>
    let flagged : Session := { s with records := s.records.setEagerOnly caller true }
    have during : flagged.Charted (eval depth e env caller flagged).2 := h e env caller flagged strict
    have follows := confining_eval depth e env caller flagged strict (Records.eagerOnly_setEagerOnly there)
    dsimp only
    rw [eagerOnly_bind, setEagerOnly_bind, observe_bind, setEagerOnly_bind]
    change Session.Charted flagged (eval depth e env caller flagged).2 at during
    generalize eval depth e env caller flagged = ended at during follows
    obtain ⟨outcome, t⟩ := ended
    generalize s.records.eagerOnly caller = previous
    let restored : Session := { t with records := t.records.setEagerOnly caller previous }
    have start : Attended caller s restored := by
      refine ⟨⟨during.builtins, during.course⟩, ?_⟩
      rw [Records.contains_setEagerOnly, follows.raised.contains, Records.contains_setEagerOnly]
      exact there
    have lazily {u : Session} (attended : Attended caller s u) :
        Attended caller s { u with store := (Store.lazyPromise e env .supplied caller u.store).2 } :=
      ⟨attended.trans (.quiet (Store.Evolution.lazyPromise _ _ _ _ _)), attended.there⟩
    rcases outcome with (f | ⟨target, v⟩) | v
    · cases f with
      | condition _ | generic _ => exact lazily ⟨start.toCharted.trans (.of_same rfl rfl), start.there⟩
      | cannotOptimize =>
        dsimp only
        cases previous with
        | true => exact start
        | false =>
          have lost := Store.tally_lost site t.store t.stats
          exact lazily ⟨start.toCharted.trans ⟨rfl, .single lost⟩, start.there⟩
      | internal _ | interrupted | exhausted => exact start
    · exact start
    · have trusted' : t.store.trusts site = true := by
        unfold Store.trusts at trusted ⊢
        rw [follows.relates rfl]
        exact trusted
      exact ⟨start.toCharted.trans ⟨rfl, .single (Store.tally_ahead rfl trusted' e env caller t.stats)⟩,
        start.there⟩

theorem argumentValue_at (early : Nat → Nat → Bool) (index : Nat) (p : Pending)
    (strict : s.builtins.PureStrict) (there : s.records.contains caller = true) :
    Attended caller s (argumentValue (eval depth) env caller site early index p s).2 := by
  rcases argumentValue_cases (eval depth) env caller site early index p s with lazy | ⟨trusted, e, hurried⟩
  · obtain ⟨store, quiet, kept⟩ :=
      lazyValue_session (R := Store.Quiet) (eval depth) env caller site inferInstance index p s
    rw [lazy, kept]
    exact ⟨.quiet quiet, there⟩
  · rw [hurried]
    exact eagerArgument_at h env strict there trusted e

theorem argumentValues_at (early : Nat → Nat → Bool) (index : Nat) (pending : List Pending)
    (strict : s.builtins.PureStrict) (there : s.records.contains caller = true) :
    s.Charted (argumentValues (eval depth) env caller site early index pending s).2 := by
  induction pending generalizing index s with
  | nil => exact .refl s
  | cons p rest ih =>
    have first : Attended caller s (argumentValue (eval depth) env caller site early index p s).2 :=
      argumentValue_at h env early index p strict there
    rw [argumentValues]
    refine bind_at first.toCharted fun v t run => ?_
    rw [run] at first
    exact bind_at (ih _ (first.strict strict) first.there) fun _ u _ => .refl u

theorem plannedValues (f : Function) (args : List Arg) (slots : List FormalSlot) (pending : List Pending)
    (strict : s.builtins.PureStrict) (there : s.records.contains caller = true) :
    s.Charted (plannedValues (eval depth) env caller site f args slots pending s).2 := by
  obtain ⟨early, t, twin, _, run⟩ := plannedValues_run f args slots pending s
  rw [run]
  obtain ⟨plan, sites, forced, rfl, _⟩ := twin
  have planned : s.Charted (s.replan plan sites forced) := .of_same rfl rfl
  exact planned.trans (argumentValues_at h env early 0 pending strict there)

theorem suppliedValues (f : Function) (args : List Arg) (slots : List FormalSlot) (pending : List Pending) :
    Charting (suppliedValues (eval depth) env caller site f args slots pending) := by
  intro s strict
  rcases suppliedValues_cases f args slots pending s with ⟨_, _, there, run⟩ | run
  · rw [run]
    exact plannedValues h env f args slots pending strict there
  · obtain ⟨store, quiet, kept⟩ :=
      lazyValues_session (R := Store.Quiet) (eval depth) env caller site inferInstance 0 pending s
    rw [run, kept]
    exact .quiet quiet

theorem arguments (f : Function) (call : Expr) (args : List Arg) : Charting (do
    ensureLazy caller
    closureArgs (eval depth) f call args env caller) :=
  andThen (rules.holds_ensureLazy _) fun _ => andThen (rules.holds_expandArgs _ _ _ _) fun _ =>
    reading fun _ => andThen (rules.holds_matchCall _ _ _ _) fun _ =>
      andThen (suppliedValues h env _ _ _ _) fun _ => rules.value _

end Arguments

def plain : Law := SearchLaw.law
  { toRules := rules
    force
    missingProbe := fun name env => unchanged (isMissingArgument_session name env) }
  fun _ _ => trivial

def law : CallLaw where
  toLaw := plain
  arguments h f call args env _ := arguments h env f call args
  useMethod h := plain.holds_useMethod h administering fun _ _ => trivial
  nextMethod h := plain.holds_nextMethod h fun _ _ => trivial
  standardGeneric h := plain.holds_standardGeneric h administering

theorem evaluating (depth : Nat) : rules.Evaluates (eval depth) := law.evaluates_eval depth

end Charting

/-! What a distrusted call site comes to. -/

/-- A promise gives up the value computed ahead for it. -/
def Session.giveUp (id : PromiseId) (s : Session) : Session :=
  { s with
    store := s.store.deoptimize id
    stats := { s.stats with eagerDeopts := s.stats.eagerDeopts + 1 } }

/-- Forces a promise as if no values were ever computed ahead. -/
def forceLazily (ev : Evaluator) (id : PromiseId) (caller : RecordId) : EvalM Value := do
  let s ← get
  match (s.store.promise id).state with
  | .evaluated v => pure v
  | .underEvaluation _ =>
    if s.options.strictPromiseCycles then failAt caller cyclicPromise else pure .missing
  | .unevaluated env => forceCode ev id env caller

section Distrusted

variable {u : Session} (ev : Evaluator) (caller : RecordId)

theorem force_distrusted {id : PromiseId} {eager : EagerValue}
    (ahead : (u.store.promise id).eager = some eager) (distrusted : eager.site ∈ u.store.distrusted) :
    force ev id caller u = forceLazily ev id caller u ∨
      force ev id caller u = forceLazily ev id caller (u.giveUp id) := by
  unfold force forceLazily
  rw [get_bind, get_bind, get_bind]
  cases state : (u.store.promise id).state with
  | evaluated v | underEvaluation env => exact .inl rfl
  | unevaluated env =>
    dsimp only
    rw [bind_apply]
    rcases takeEagerValue_cases id u with ⟨_, run⟩ | ⟨eager', ahead', _, ⟨trusted, _⟩ | run⟩
    · left
      rw [run]
      rfl
    · cases ahead.symm.trans ahead'
      exact absurd distrusted (Store.trusts_iff.mp trusted)
    · cases ahead.symm.trans ahead'
      right
      have kept : (u.store.deoptimize id).trusts eager.site = false := by
        simpa [Store.trusts, Store.deoptimize, Store.modifyPromise] using distrusted
      have state' : ((u.store.deoptimize id).promise id).state = .unevaluated env := by
        unfold Store.deoptimize
        rw [Store.promise_modify]
        split
        · exact state
        · exact state
      unfold Store.distrust at run
      rw [kept, if_neg Bool.false_ne_true] at run
      rw [run]
      dsimp only [Session.giveUp]
      rw [state']
      rfl

omit ev caller in
theorem quiet_after {m : EvalM α} {f : α → EvalM β} (reads : Reads m)
    (rest : ∀ a, u.tally.Quiet (f a u).2.tally) : u.tally.Quiet ((m >>= f) u).2.tally := by
  have same := reads u
  rw [bind_apply]
  rcases run : m u with ⟨r | a, t⟩
  · rw [run] at same
    obtain rfl : t = u := same
    exact .refl _
  · rw [run] at same
    obtain rfl : t = u := same
    exact rest a

theorem closureArgs_distrusted (f : Function) {call : Expr} (args : List Arg) (env : EnvId)
    (distrusted : call.id ∈ u.store.distrusted) :
    u.tally.Quiet (closureArgs ev f call args env caller u).2.tally := by
  refine quiet_after (.expandArgs _ _ _ _) fun expanded => ?_
  obtain ⟨names, pending⟩ := expanded
  dsimp only
  rw [get_bind]
  refine quiet_after (.matchCall _ _ _ _) fun slots => ?_
  rw [(bind_pure_session _ _ _).1]
  rcases suppliedValues_cases f args slots pending u with ⟨_, trusted, _⟩ | run
  · exact absurd distrusted (Store.trusts_iff.mp trusted)
  · obtain ⟨store, quiet, kept⟩ :=
      lazyValues_session (R := Store.Quiet) ev env caller call.id inferInstance 0 pending u
    rw [run, kept]
    exact quiet u.stats

end Distrusted

/-! Hosts. -/

namespace Session

open Charting (rules law plain evaluating)

/-- What a host does to a session in any number of steps. The builtins it registers as being without effects
get their arguments evaluated, so that they cannot call back into closures. -/
abbrev StrictRun : Session → Session → Prop :=
  ReflTransGen fun s t => HostStep s t ∧ t.builtins.PureStrict

variable {s t : Session}

theorem charted_atTopLevel {α : Type} {m : RecordId → EvalM α} (charting : ∀ top, Charting (m top))
    (strict : s.builtins.PureStrict) : s.Charted (atTopLevel m s).2 := by
  rw [atTopLevel_session]
  exact rules.holds_underRecord rfl charting s strict

theorem charted_evalIn (e : Expr) (env : EnvId) (strict : s.builtins.PureStrict) :
    s.Charted (evalIn e env s).2 := by
  have evaluated : s.Charted (atTopLevel (eval nestingLimit e env) s).2 :=
    charted_atTopLevel (fun top => evaluating _ e env top) strict
  unfold evalIn
  rcases run : atTopLevel (eval nestingLimit e env) s with ⟨f | v, t⟩
  · rw [run] at evaluated
    refine evaluated.trans ?_
    cases f <;> exact .of_same rfl rfl
  · rw [run] at evaluated
    exact evaluated

theorem defineIn_tally (env : EnvId) (name : Name) (v : Value) (s : Session) :
    (defineIn env name v s).2.tally = s.tally := by
  unfold defineIn
  cases s.heap.define env name v <;> rfl

theorem course_hostStep (step : HostStep s t) (strict : s.builtins.PureStrict) :
    s.tally.Course t.tally := by
  cases step with
  | load code => exact (moves_load (R := Store.Quiet) code s.store s.stats).course
  | makeVector c => exact (Store.Owning.addVector (R := Store.Quiet) c s.store s.stats).course
  | makeDots d => exact (Store.Evolution.addDots (R := Store.Quiet) d s.store s.stats).course
  | makeClosure f env => exact (Store.Evolution.closure (R := Store.Quiet) f env s.store s.stats).course
  | makePromise e env =>
    exact (charted_atTopLevel (fun _ => rules.holds_allocate (Store.Evolution.lazyPromise _ _ _ _))
      strict).course
  | evalIn e env => exact (charted_evalIn e env strict).course
  | apply function names values =>
    exact (charted_atTopLevel (law.holds_hostApply function names values) strict).course
  | force id => exact (charted_atTopLevel (fun _ => plain.force (evaluating _) _ _) strict).course
  | buildFrame function supplied =>
    unfold buildFrame
    split
    · exact (charted_atTopLevel (law.holds_hostFrame _ _ _ _) strict).course
    · exact .refl
  | defineIn env name v => rw [defineIn_tally]
  | defineGlobal name v =>
    change s.tally.Course (defineIn global name v { s with store := s.store.share v }).2.tally
    rw [defineIn_tally]
    exact (Store.share_moves (R := Store.Quiet) v s.store s.stats).course
  | registerBuiltin b =>
    change s.tally.Course (defineIn base b.name _ { s with builtins := (s.builtins.register b).2 }).2.tally
    rw [defineIn_tally]
    exact .refl
  | raiseInterrupt | setResolver r | clearDiagnostics | takeOutput | collectGarbage => exact .refl

theorem StrictRun.course (run : StrictRun s t) (strict : s.builtins.PureStrict) : s.tally.Course t.tally := by
  have all : s.tally.Course t.tally ∧ t.builtins.PureStrict := by
    induction run with
    | refl => exact ⟨.refl, strict⟩
    | tail _ step ih => exact ⟨ih.1.trans (course_hostStep step.1 ih.2), step.2⟩
  exact all.1

/-- Deoptimization is permanent. Whatever a host does, and in every evaluation of its own or within another,
the tally takes a course of steps. From any moment on such a course to a later one, distrust stays, for
a distrusted call site no value is computed ahead or used any more, and a value that was used or given up
stays so; hits and deoptimizations count those values, and are never more than there were values computed
ahead. A call at a distrusted call site makes no promise with such a value, and a promise that carries one
is forced as if it did not, once it has given it up. -/
theorem deoptimization_permanent {options : Options} {s : Session} (run : StrictRun (start options) s) :
    (start options).tally.Course s.tally ∧
    (∀ u : Session, u.builtins.PureStrict → ∀ depth e env caller,
      u.tally.Course (eval depth e env caller u).2.tally) ∧
    (∀ a b, (start options).tally.Course a → a.Course b →
      a.Later b ∧ b.Balanced ∧ b.hits + b.deopts ≤ b.created) ∧
    (∀ (u : Session) ev f call args env caller, call.id ∈ u.store.distrusted →
      u.tally.Quiet (closureArgs ev f call args env caller u).2.tally) ∧
    ∀ (u : Session) ev id caller eager, (u.store.promise id).eager = some eager →
      eager.site ∈ u.store.distrusted →
        force ev id caller u = forceLazily ev id caller u ∨
          force ev id caller u = forceLazily ev id caller (u.giveUp id) := by
  have start_balanced : (start options).tally.Balanced := ⟨List.nodup_nil, rfl, rfl, rfl⟩
  refine ⟨run.course Registry.standard_pureStrict, ?_, ?_, ?_, ?_⟩
  · intro u strict depth e env caller
    exact (evaluating depth e env caller u strict).course
  · intro a b before later
    have balanced := Tally.Course.balanced (before.trans later) start_balanced
    exact ⟨Tally.Course.later later, balanced, balanced.within⟩
  · intro u ev f call args env caller distrusted
    exact closureArgs_distrusted ev caller f args env distrusted
  · intro u ev id caller eager ahead distrusted
    exact force_distrusted ev caller ahead distrusted

/-- `{setx <- function() x <<- NULL; g <- function(b, a) {b; a}; h <- function() g(setx(), x); x <- NULL;
h(); h()}` -/
def rewritesCaller : Expr :=
  .block ⟨0⟩ [
    .assign ⟨1⟩ (.symbol ⟨2⟩ "setx") (.function ⟨⟨3⟩, [],
      .assign ⟨4⟩ (.symbol ⟨5⟩ "x") (.constant ⟨6⟩ .null) true⟩) false,
    .assign ⟨7⟩ (.symbol ⟨8⟩ "g") (.function ⟨⟨9⟩, [⟨"b", none⟩, ⟨"a", none⟩],
      .block ⟨10⟩ [.symbol ⟨11⟩ "b", .symbol ⟨12⟩ "a"]⟩) false,
    .assign ⟨13⟩ (.symbol ⟨14⟩ "h") (.function ⟨⟨15⟩, [], .call ⟨16⟩ (.symbol ⟨17⟩ "g")
      [⟨none, .call ⟨18⟩ (.symbol ⟨19⟩ "setx") []⟩, ⟨none, .symbol ⟨20⟩ "x"⟩]⟩) false,
    .assign ⟨21⟩ (.symbol ⟨22⟩ "x") (.constant ⟨23⟩ .null) false,
    .call ⟨24⟩ (.symbol ⟨25⟩ "h") [], .call ⟨26⟩ (.symbol ⟨27⟩ "h") []]

/-- The first argument makes the value of the second one stale, which was computed ahead; the call site
loses trust for good, and the second call computes nothing ahead. -/
theorem stale_argument_distrusts :
    let s := (evalIn rewritesCaller global (start {})).2
    (s.tally.created, s.tally.hits, s.tally.deopts) = (1, 0, 1) ∧ ⟨16⟩ ∈ s.store.distrusted ∧
      (∀ b, s.tally.Course b → ⟨16⟩ ∈ b.distrusted ∧ b.hits + b.deopts ≤ b.created) ∧
      ∀ ev f args env caller,
        s.tally.Quiet (closureArgs ev f (.call ⟨16⟩ (.symbol ⟨17⟩ "g") args) args env caller s).2.tally := by
  intro s
  have distrusted : ⟨16⟩ ∈ s.store.distrusted := by decide +kernel
  have counted : (s.tally.created, s.tally.hits, s.tally.deopts) = (1, 0, 1) := by decide +kernel
  have charted : (start {}).Charted s := charted_evalIn rewritesCaller global Registry.standard_pureStrict
  have step : HostStep (start {}) s := .evalIn rewritesCaller global (start {})
  -- from here on the session is only known by these facts
  generalize s = s at *
  have run : StrictRun (start {}) s := .single ⟨step, charted.strict Registry.standard_pureStrict⟩
  obtain ⟨course, _, moments, calls, _⟩ := deoptimization_permanent run
  refine ⟨counted, distrusted, fun b later => ?_, fun ev f args env caller => ?_⟩
  · have ⟨onward, _, within⟩ := moments s.tally b course later
    exact ⟨onward.distrusted distrusted, within⟩
  · exact calls s ev f _ args env caller distrusted

end Session
end CallByNeed
