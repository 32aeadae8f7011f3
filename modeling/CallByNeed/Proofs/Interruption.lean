import CallByNeed.Proofs.Signal
import CallByNeed.Proofs.TrackingSteps

/-!
Interrupts and broken invariants reach the host. Once the interrupt flag is raised, what the host runs
next takes it down exactly if it is interrupted. An evaluation is heeded: whenever something nested in it
ends in a given failure, an alarm goes off. Where the failure is one that `try` may not catch and the host
does not see it, the alarm never went off.
-/
namespace CallByNeed

/-- Runs a computation, and an alarm after it if it ended in a given failure. Without an alarm nothing is
heeded. -/
def heed (f : Failure) : Option (EvalM Unit) → EvalM Value → EvalM Value
  | none, m => m
  | some alarm, m => do
    let outcome ← observe m
    if failing outcome = some f then alarm
    resume outcome

/-- Evaluation with an alarm after every expression that ends in a given failure. -/
def heeded (f : Failure) (alarm : Option (EvalM Unit)) : Nat → Evaluator
  | 0 => fun _ _ _ => fail .exhausted
  | depth + 1 => fun e env c => heed f alarm (evalStep (heeded f alarm depth) e env c)

theorem heeded_none (f : Failure) (depth : Nat) : heeded f none depth = eval depth := by
  induction depth with
  | zero => rfl
  | succ depth ih =>
    funext e env c
    change evalStep (heeded f none depth) e env c = evalStep (eval depth) e env c
    rw [ih]

namespace Inquiry

variable {K : Inquiry} {w : Session}

/-- The alarm stays silent unless the computation ends in the failure that is followed. -/
theorem Tracks.heeding {Q : Scope → Value → Prop} {m : Option (EvalM Unit) → EvalM Value}
    (tracks : K.Tracks w Q m) : K.Tracks w Q fun alarm => heed K.followed alarm (m alarm) := by
  intro s sound extend
  obtain ⟨r, t, runs, passes, yields⟩ := tracks s sound extend
  refine ⟨r, t, fun alarm quiet => ?_, passes, yields⟩
  cases alarm with
  | none => exact runs none quiet
  | some alarm =>
    have other : failing r ≠ some K.followed := fun same => nomatch quiet same
    change (observe (m (some alarm)) >>= _) s = _
    rw [observe_bind, runs _ quiet, if_neg other]
    rcases r with u | v <;> rfl

/-- Every evaluation is tracked, and comes to the same under every alarm. -/
theorem heeded_evaluates (guards : K.Guards .idle) (depth : Nat) :
    K.Evaluates (heeded K.followed · depth) := by
  induction depth with
  | zero => exact fun _ _ _ _ _ _ => Tracks.permitted allows_exhausted
  | succ depth ih =>
    intro w e env c spans alive
    have step := (Tracks.evalStep (c := c) guards ih spans alive).heeding
    simp only [Guard.idle_evalStep] at step
    exact step

end Inquiry

namespace Session

variable {α : Type}

/-- No builtin interrupts an evaluation by itself, without the flag. -/
def Steady (s : Session) : Prop := ∀ b ∈ s.builtins.functions, ¬b.Raises .interrupted

instance (s : Session) : Decidable s.Steady :=
  inferInstanceAs (Decidable (∀ b ∈ s.builtins.functions, ¬b.Raises .interrupted))

/-- A call of the host takes a raised interrupt flag down if and only if it ends interrupted. It ends in a
fatal failure as soon as something nested in it ends in that failure, so that an alarm which goes off then
makes a difference. -/
structure Heeds (s : Session) (m : HostM α) (heeding : Failure → EvalM Unit → HostM α) : Prop where
  kept : s.interrupt = true → (m s).2.interrupt = false → (m s).1 = .error .interrupted
  flag : s.Steady → s.interrupt = true →
    ((m s).2.interrupt = false ↔ (m s).1 = .error .interrupted)
  unchanged : ∀ f alarm, f.isFatal = true → heeding f alarm s ≠ m s → (m s).1 = .error f

/-- One failure is followed, and nothing has to be there. -/
def following (s : Session) {f : Failure} (fatal : f.isFatal = true) : Inquiry where
  live := False
  steady := s.Steady
  followed := f
  fatal := fatal

theorem sound_following (s : Session) {f : Failure} (fatal : f.isFatal = true) :
    (s.following fatal).Sound s := by
  refine Inquiry.sound_of_honest id fun b member g raises => ⟨fun steady => ?_, False.elim⟩
  rintro rfl
  exact steady b member raises

/-- What becomes of the flag, and of the alarms on the way. -/
structure Outcome (s : Session) (f : Failure) (m : Option (EvalM Unit) → HostM α) (r : Except Failure α)
    (t : Session) : Prop where
  runs : ∀ alarm, (r = .error f → alarm = none) → m alarm s = (r, t)
  raised : s.interrupt = true → t.interrupt = true ∨ r = .error .interrupted
  lowered : s.Steady → r = .error .interrupted → t.interrupt = false

theorem outcome_atTopLevel {f : Failure} {s : Session} {Q : Scope → α → Prop}
    {m : Option (EvalM Unit) → RecordId → EvalM α} (fatal : f.isFatal = true)
    (tracks : ∀ t top, (s.following fatal).Tracks t Q fun alarm => m alarm top) :
    ∃ r t, s.Outcome f (fun alarm => atTopLevel (m alarm)) r t := by
  have whole : (s.following fatal).Tracks s Q fun alarm => underRecord none none .topLevel (m alarm) :=
    .underRecord (fun _ _ => ⟨nofun, nofun, nofun, nofun, nofun⟩) fun t top _ => tracks t top
  obtain ⟨r, t, runs, passes, _⟩ := whole.lands (sound_following s fatal)
  rcases r with (g | ⟨env, v⟩) | a
  · refine ⟨.error g, t, fun alarm quiet => ?_, fun up => ?_, fun steady same => ?_⟩
    · unfold atTopLevel
      dsimp only at runs ⊢
      rw [runs alarm fun same => quiet (congrArg Except.error (Option.some.inj same))]
      rfl
    · exact (passes.raised up).imp_right fun same => congrArg Except.error (Option.some.inj same)
    · exact passes.lowered steady (congrArg some (Except.error.inj same))
  · refine ⟨.error (Unwind.toFailure (.leave env v)), t, fun alarm _ => ?_, fun up => ?_, fun _ => nofun⟩
    · unfold atTopLevel
      dsimp only at runs ⊢
      rw [runs alarm nofun]
    · exact .inl ((passes.raised up).resolve_right nofun)
  · refine ⟨.ok a, t, fun alarm _ => ?_, fun up => ?_, fun _ => nofun⟩
    · unfold atTopLevel
      dsimp only at runs ⊢
      rw [runs alarm nofun]
    · exact .inl ((passes.raised up).resolve_right nofun)

theorem following_evaluates (s : Session) {f : Failure} (fatal : f.isFatal = true) (depth : Nat) :
    (s.following fatal).Evaluates (heeded f · depth) :=
  Inquiry.heeded_evaluates (Inquiry.guards_idle trivial fun _ => trivial) depth

theorem outcome_evalWith {f : Failure} (fatal : f.isFatal = true) (s : Session) (e : Expr) (env : EnvId) :
    ∃ r t, s.Outcome f (fun alarm => evalWith (heeded f alarm nestingLimit) e env) r t := by
  obtain ⟨r, t, runs, raised, lowered⟩ := s.outcome_atTopLevel fatal fun t top =>
    s.following_evaluates fatal nestingLimit t e env top (Inquiry.spans_anything id t e)
      (Inquiry.has_anything id t (.frame env))
  dsimp only at runs
  rcases r with g | v
  · have same : (t.reportFailure g).interrupt = t.interrupt := by cases g <;> rfl
    refine ⟨.error g, t.reportFailure g, fun alarm quiet => ?_, same ▸ raised, same ▸ lowered⟩
    unfold evalWith
    rw [runs alarm quiet]
  · refine ⟨.ok v, t, fun alarm quiet => ?_, raised, lowered⟩
    unfold evalWith
    rw [runs alarm quiet]

theorem outcome_applyWith {f : Failure} (fatal : f.isFatal = true) (s : Session) (function : Value)
    (names : List (Option Name)) (values : List Value) :
    ∃ r t, s.Outcome f (fun alarm => applyWith (heeded f alarm nestingLimit) function names values) r t := by
  refine s.outcome_atTopLevel (Q := Scope.Covers) fatal fun t top =>
    .andThen (Q := Scope.Spans) (.storing fun S wider => ?_) fun u call _ code => ?_
  · have covers : S.Covers function := (Inquiry.covers_anything id t function).mono wider
    exact Scope.keeps_seq (Scope.keeps_constantNode covers) fun _ reads =>
      Scope.keeps_callNode reads (List.forall_mem_nil _)
  · exact Inquiry.Tracks.applyValues (Inquiry.guards_idle trivial fun _ => trivial) (s.following_evaluates fatal nestingLimit) names
      (Inquiry.covers_anything id u function) (Inquiry.has_anything id u (.frame global)) code
      fun v _ => Inquiry.covers_anything id u v

theorem outcome_forceWith {f : Failure} (fatal : f.isFatal = true) (s : Session) (id : PromiseId) :
    ∃ r t, s.Outcome f (fun alarm => forceWith (heeded f alarm nestingLimit) id) r t :=
  s.outcome_atTopLevel fatal fun _ _ => .force (s.following_evaluates fatal nestingLimit) id

theorem heeds_of_outcome {s : Session} {m : HostM α} (heeding : Failure → Option (EvalM Unit) → HostM α)
    (unheeded : ∀ f, heeding f none = m)
    (outcome : ∀ f : Failure, f.isFatal = true → ∃ r t, s.Outcome f (heeding f) r t) :
    s.Heeds m fun f alarm => heeding f (some alarm) := by
  obtain ⟨r, t, runs, raised, lowered⟩ := outcome .interrupted rfl
  have run : m s = (r, t) := unheeded .interrupted ▸ runs none fun _ => rfl
  have kept (up : s.interrupt = true) (down : t.interrupt = false) : r = .error .interrupted :=
    (raised up).resolve_left fun still => nomatch down.symm.trans still
  refine ⟨?_, fun steady up => ?_, fun f alarm fatal differs => ?_⟩
  · rw [run]
    exact kept
  · rw [run]
    exact ⟨kept up, lowered steady⟩
  · obtain ⟨r, t, runs, -, -⟩ := outcome f fatal
    have run : m s = (r, t) := unheeded f ▸ runs none fun _ => rfl
    rw [run] at differs ⊢
    by_contra other
    exact differs (runs (some alarm) fun ended => absurd ended other)

/-- An interrupt is neither lost nor swallowed, and nor is a broken invariant. In every session, whatever
the host evaluates, calls or forces: a raised flag is down at the end exactly if the result is the
interruption, and when anything nested ends in a failure that `try` may not catch, the whole ends in that
failure. A builtin's failures of that kind leave its call unchanged. -/
theorem interrupt_never_lost (s : Session) :
    (∀ e env, s.Heeds (evalIn e env) fun f alarm => evalWith (heeded f (some alarm) nestingLimit) e env) ∧
    (∀ function names values, s.Heeds (apply function names values) fun f alarm =>
      applyWith (heeded f (some alarm) nestingLimit) function names values) ∧
    (∀ id, s.Heeds (forcePromise id) fun f alarm => forceWith (heeded f (some alarm) nestingLimit) id) ∧
    ∀ (f : Failure) (call : Expr) (m : EvalM Value) (t : Session), f.isFatal = true →
      m s = (.error (.failure f), t) → attributeTo call m s = (.error (.failure f), t) := by
  refine ⟨fun e env => ?_, fun function names values => ?_, fun id => ?_, fun f call m t fatal run => ?_⟩
  · exact heeds_of_outcome (fun f alarm => evalWith (heeded f alarm nestingLimit) e env)
      (fun f => by rw [heeded_none]; rfl) fun _ fatal => outcome_evalWith fatal s e env
  · exact heeds_of_outcome
      (fun f alarm => applyWith (heeded f alarm nestingLimit) function names values)
      (fun f => by rw [heeded_none]; rfl) fun _ fatal => outcome_applyWith fatal s function names values
  · exact heeds_of_outcome (fun f alarm => forceWith (heeded f alarm nestingLimit) id)
      (fun f => by rw [heeded_none]; rfl) fun _ fatal => outcome_forceWith fatal s id
  · unfold attributeTo
    rw [observe_bind, run]
    cases f with
    | condition _ | cannotOptimize | generic _ => simp [Failure.isFatal] at fatal
    | internal _ | interrupted | exhausted => rfl

/-- With the flag raised, an assignment of a constant goes through, and the call of `try` that follows is
interrupted, at which an alarm goes off. -/
theorem interrupt_passes_try :
    let s := (start {}).raiseInterrupt
    let bind : Expr := .assign ⟨0⟩ (.symbol ⟨1⟩ "x") (.constant ⟨2⟩ .null) false
    let attempt : Expr := .call ⟨3⟩ (.symbol ⟨4⟩ "try") [⟨none, .symbol ⟨5⟩ "x"⟩]
    let e : Expr := .block ⟨6⟩ [bind, attempt]
    let alarm : EvalM Unit := fail .exhausted
    s.Steady ∧ (evalIn bind global s).2.interrupt = true ∧ (evalIn e global s).2.interrupt = false ∧
      evalWith (heeded .interrupted (some alarm) nestingLimit) e global s ≠ evalIn e global s ∧
      (evalIn e global s).1 = .error .interrupted ∧
      attributeTo attempt (eval 1 attempt global ⟨0⟩) s =
        (.error (.failure .interrupted), { s with interrupt := false }) := by
  intro s bind attempt e alarm
  have steady : s.Steady := by decide +kernel
  have lowered : (evalIn e global s).2.interrupt = false := by decide +kernel
  have left : (evalIn bind global s).2.interrupt = true := by decide +kernel
  have alarmed : (evalWith (heeded .interrupted (some alarm) nestingLimit) e global s).1.map (fun _ => ()) =
      .error .exhausted := by decide +kernel
  obtain ⟨evaluates, _, _, attributes⟩ := interrupt_never_lost s
  have differs : evalWith (heeded .interrupted (some alarm) nestingLimit) e global s ≠ evalIn e global s := by
    intro same
    rw [same, ((evaluates e global).flag steady rfl).mp lowered] at alarmed
    cases alarmed
  exact ⟨steady, left, lowered, differs, (evaluates e global).unchanged .interrupted alarm rfl differs,
    attributes .interrupted attempt _ _ rfl rfl⟩

end Session
end CallByNeed
