import CallByNeed.Proofs.Promises

/-!
The missingness probe. It follows a chain of promises over bare variables and marks each promise on its
way, so a chain that closes ends in a marked one. Every mark is taken back, and the probe leaves the
session exactly as it was, failures included. No chain passes more promises than wait for a value, so
the bound on its length plays no part. An argument is missing exactly if its promise holds the default
of a formal, or its chain has a missing end or closes.
-/
namespace CallByNeed

def PromiseState.isUnevaluated : PromiseState → Bool
  | unevaluated _ => true
  | _ => false

namespace Store

/-- How many promises wait for a first or another evaluation. -/
def waiting (s : Store) : Nat := s.promises.toList.countP (·.state.isUnevaluated)

theorem waiting_le_size (s : Store) : s.waiting ≤ s.promises.size := List.countP_le_length

/-- A promise that is marked waits no longer. -/
theorem waiting_mark {s : Store} {id : PromiseId} {env : EnvId}
    (state : (s.promise id).state = .unevaluated env) :
    (s.setPromiseState id (.underEvaluation env)).waiting + 1 = s.waiting := by
  have inside := waiting_inside (by rw [state]; rfl : (s.promise id).state.value? = none)
  have found : s.promises.toList[id.index]? = some (s.promise id) := by
    unfold promise
    simp [inside]
  have counted := countP_modify (·.state.isUnevaluated)
    (fun p => { p with state := .underEvaluation env }) _ _ _ found
  rw [state] at counted
  unfold waiting setPromiseState modifyPromise
  rw [Array.toList_modify]
  exact counted

/-- The mark on a promise that waited is taken back in full. -/
theorem reset_mark {s : Store} {id : PromiseId} {env : EnvId}
    (state : (s.promise id).state = .unevaluated env) :
    (s.setPromiseState id (.underEvaluation env)).resetPromise id = s := by
  have inside := waiting_inside (by rw [state]; rfl : (s.promise id).state.value? = none)
  have found : s.promises[id.index] = s.promise id := by
    unfold promise
    simp [inside]
  unfold resetPromise setPromiseState modifyPromise
  congr 1
  apply Array.ext_getElem?
  intro i
  rw [Array.getElem?_modify, Array.getElem?_modify]
  by_cases here : id.index = i
  · subst here
    rw [Array.getElem?_eq_getElem inside, found, if_pos rfl, if_pos rfl]
    have back : ({ s.promise id with state := .unevaluated env } : Promise) = s.promise id := by
      rw [← state]
    exact congrArg some back
  · rw [if_neg here, if_neg here]

end Store

namespace Session

/-- The session in which a promise is marked as under evaluation. -/
def mark (id : PromiseId) (env : EnvId) (s : Session) : Session :=
  { s with store := s.store.setPromiseState id (.underEvaluation env) }

/-- A promise that is unevaluated, has no value ahead that still stands, and is a bare symbol that its
own frame binds to `inner`. -/
def PassesOn (s : Session) (id : PromiseId) (inner : Value) : Prop :=
  ∃ env name, (s.store.promise id).state = .unevaluated env ∧
    (∀ eager, (s.store.promise id).eager = some eager → eager.deoptimized = true) ∧
    (s.store.promise id).expr.symbol? = some name ∧ s.heap.getLocal env name = .ok (some inner)

/-- A way from a binding over promises that pass on, in order, to a value. -/
inductive Chain (s : Session) : Value → List PromiseId → Value → Prop
  | here (v : Value) : Chain s v [] v
  | next {id : PromiseId} {inner last : Value} {passed : List PromiseId} :
      s.PassesOn id inner → Chain s inner passed last → Chain s (.promise id) (id :: passed) last

/-- The values at which the answer is that the argument is missing. -/
inductive MissingEnd (s : Session) : Value → Prop
  | marker : MissingEnd s .missing
  | emptyDots {id : DotsId} : (s.store.dotsAt id).values = [] → MissingEnd s (.dots id)
  | underEvaluation {id : PromiseId} {env : EnvId} :
      (s.store.promise id).state = .underEvaluation env → MissingEnd s (.promise id)
  | ahead {id : PromiseId} {env : EnvId} {eager : EagerValue} :
      (s.store.promise id).state = .unevaluated env → (s.store.promise id).eager = some eager →
      eager.deoptimized = false → eager.value = .missing → MissingEnd s (.promise id)

/-- Whether a chain that has come from the promises `before` to a binding has a missing end further on,
or closes in a promise it has passed. -/
def ChainMissing (s : Session) (before : List PromiseId) (binding : Value) : Prop :=
  ∃ passed last, s.Chain binding passed last ∧
    (s.MissingEnd last ∨ ∃ id ∈ passed ++ before, last = .promise id)

def IsDefault (s : Session) (binding : Value) : Prop :=
  ∃ id, binding = .promise id ∧ (s.store.promise id).origin = .default

/-- What a promise tells the probe: an answer, a failure to read its frame, or where to go on. -/
inductive Sign where
  | answer (missing : Bool)
  | failure (f : Failure)
  | onward (env : EnvId) (inner : Value)

/-- What a promise that waits tells, by its value ahead that still stands and its expression. -/
def waitingSign (s : Session) (env : EnvId) : Option EagerValue → Option Name → Sign
  | some eager, _ => .answer eager.value.isMissing
  | none, none => .answer false
  | none, some name =>
    match s.heap.getLocal env name with
    | .error f => .failure f
    | .ok none => .answer false
    | .ok (some inner) => .onward env inner

def sign (s : Session) (id : PromiseId) : Sign :=
  match (s.store.promise id).state with
  | .evaluated _ => .answer false
  | .underEvaluation _ => .answer true
  | .unevaluated env => s.waitingSign env ((s.store.promise id).eager.filter (!·.deoptimized))
    (s.store.promise id).expr.symbol?

theorem sign_under {s : Session} {id : PromiseId} {env : EnvId}
    (state : (s.store.promise id).state = .underEvaluation env) : s.sign id = .answer true := by
  unfold sign
  simp only [state]

/-- The signs are those of the promise and of the frames. -/
theorem sign_congr {s t : Session} {id : PromiseId} (heap : t.heap = s.heap)
    (promise : t.store.promise id = s.store.promise id) : t.sign id = s.sign id := by
  unfold sign waitingSign
  rw [heap, promise]

theorem waitingSign_onward {s : Session} {env next : EnvId} {ahead : Option EagerValue}
    {symbol : Option Name} {inner : Value} :
    s.waitingSign env ahead symbol = .onward next inner ↔ next = env ∧ ahead = none ∧
      ∃ name, symbol = some name ∧ s.heap.getLocal env name = .ok (some inner) := by
  rcases ahead with _ | eager
  · rcases symbol with _ | name
    · simp [waitingSign]
    · rcases found : s.heap.getLocal env name with f | _ | v
      · simp [waitingSign, found]
      · simp [waitingSign, found]
      · simp [waitingSign, found, eq_comm]
  · simp [waitingSign]

theorem waitingSign_true {s : Session} {env : EnvId} {ahead : Option EagerValue}
    {symbol : Option Name} : s.waitingSign env ahead symbol = .answer true ↔
      ∃ eager, ahead = some eager ∧ eager.value = .missing := by
  rcases ahead with _ | eager
  · rcases symbol with _ | name
    · simp [waitingSign]
    · rcases found : s.heap.getLocal env name with f | _ | v <;> simp [waitingSign, found]
  · cases value : eager.value <;> simp [waitingSign, value, Value.isMissing]

/-- Only a promise that waits sends the probe on, and only where it passes on. -/
theorem sign_onward_iff {s : Session} {id : PromiseId} {env : EnvId} {inner : Value} :
    s.sign id = .onward env inner ↔
      (s.store.promise id).state = .unevaluated env ∧ s.PassesOn id inner := by
  have dead : (s.store.promise id).eager.filter (!·.deoptimized) = none ↔
      ∀ eager, (s.store.promise id).eager = some eager → eager.deoptimized = true := by
    simp [Option.filter_eq_none_iff]
  unfold sign PassesOn
  cases state : (s.store.promise id).state with
  | evaluated v => simp
  | underEvaluation home => simp
  | unevaluated home =>
    dsimp only
    rw [waitingSign_onward, dead]
    constructor
    · rintro ⟨rfl, given, name, symbol, bound⟩
      exact ⟨rfl, env, name, rfl, given, symbol, bound⟩
    · rintro ⟨same, _, name, here, given, symbol, bound⟩
      cases same
      cases here
      exact ⟨rfl, given, name, symbol, bound⟩

theorem sign_true_iff {s : Session} {id : PromiseId} :
    s.sign id = .answer true ↔ s.MissingEnd (.promise id) := by
  unfold sign
  constructor
  · intro sign
    cases state : (s.store.promise id).state with
    | evaluated v =>
      rw [state] at sign
      cases sign
    | underEvaluation home => exact .underEvaluation state
    | unevaluated home =>
      rw [state] at sign
      obtain ⟨eager, stands, value⟩ := waitingSign_true.mp sign
      obtain ⟨ahead, live⟩ := Option.filter_eq_some_iff.mp stands
      exact .ahead state ahead (by simpa using live) value
  · intro ending
    cases ending with
    | underEvaluation state => rw [state]
    | ahead state ahead live value =>
      rw [state]
      exact waitingSign_true.mpr ⟨_, by simp [ahead, live], value⟩

/-- A chain ends at a value that is no promise. -/
theorem chainMissing_end {s : Session} {before : List PromiseId} {v : Value} (plain : v.promise? = none) :
    s.ChainMissing before v ↔ s.MissingEnd v := by
  constructor
  · rintro ⟨_, _, ⟨⟩, ends | ⟨id, _, rfl⟩⟩
    · exact ends
    · cases plain
    · cases plain
    · cases plain
  · exact fun ends => ⟨[], v, .here v, .inl ends⟩

/-- A chain that comes back to a promise it has passed is missing. -/
theorem chainMissing_closed {s : Session} {before : List PromiseId} {id : PromiseId}
    (known : id ∈ before) : s.ChainMissing before (.promise id) :=
  ⟨[], _, .here _, .inr ⟨id, known, rfl⟩⟩

/-- At a promise it has not passed, a chain is missing by what the promise tells, or further on. -/
theorem chainMissing_promise {s : Session} {before : List PromiseId} {id : PromiseId}
    (fresh : id ∉ before) : s.ChainMissing before (.promise id) ↔
      s.sign id = .answer true ∨
        ∃ env inner, s.sign id = .onward env inner ∧ s.ChainMissing (id :: before) inner := by
  constructor
  · rintro ⟨_, last, chain, ends⟩
    cases chain with
    | here =>
      rcases ends with ends | ⟨_, known, ⟨⟩⟩
      · exact .inl (sign_true_iff.mpr ends)
      · exact absurd known fresh
    | next passes chain =>
      rename_i inner passed
      obtain ⟨env, name, state, rest⟩ := passes
      refine .inr ⟨env, inner, sign_onward_iff.mpr ⟨state, env, name, state, rest⟩, passed, last, chain,
        ends.imp_right ?_⟩
      rintro ⟨other, known, same⟩
      exact ⟨other, by simpa [or_left_comm] using known, same⟩
  · rintro (answer | ⟨env, inner, onward, passed, last, chain, ends⟩)
    · exact ⟨[], _, .here _, .inl (sign_true_iff.mp answer)⟩
    · refine ⟨id :: passed, last, .next (sign_onward_iff.mp onward).2 chain, ends.imp_right ?_⟩
      rintro ⟨other, known, same⟩
      exact ⟨other, by simpa [or_left_comm] using known, same⟩

end Session

open Session

/-- A promise on the chain answers, fails, or is marked while the probe goes on from it. -/
theorem isMissingWithin_promise (steps : Nat) (id : PromiseId) (t : Session) :
    isMissingWithin (steps + 1) false (.promise id) t = match t.sign id with
      | .answer missing => (.ok missing, t)
      | .failure f => (.error (.failure f), t)
      | .onward env inner =>
        let run := isMissingWithin steps false inner (t.mark id env)
        (run.1, { run.2 with store := run.2.store.resetPromise id }) := by
  unfold Session.sign
  rw [isMissingWithin, get_bind]
  dsimp only
  rw [if_neg (by simp)]
  cases state : (t.store.promise id).state with
  | evaluated v => rfl
  | underEvaluation env => rfl
  | unevaluated env =>
    dsimp only
    cases ahead : (t.store.promise id).eager.filter (!·.deoptimized) with
    | some eager => rfl
    | none =>
      dsimp only
      unfold promisedBinding
      rw [state]
      cases symbol : (t.store.promise id).expr.symbol? with
      | none => rfl
      | some name =>
        dsimp only [PromiseState.env?, waitingSign]
        rw [bind_apply, readHeap_apply]
        rcases t.heap.getLocal env name with f | _ | inner
        · rfl
        · rfl
        · dsimp only
          rw [bind_apply, onStore_apply, Disciplined.beginEvaluation_apply, state]
          dsimp only
          rw [observe_bind]
          change ((do
            modifyStore (·.resetPromise id)
            resume (isMissingWithin steps false inner (t.mark id env)).1 : EvalM Bool)
              (isMissingWithin steps false inner (t.mark id env)).2) = _
          rcases isMissingWithin steps false inner (t.mark id env) with ⟨u | missing, after⟩
          · rfl
          · rfl

/-- The probe leaves the session as it was, whatever it comes to. -/
theorem isMissingWithin_session (steps : Nat) (v : Value) (t : Session) :
    (isMissingWithin steps false v t).2 = t := by
  induction steps generalizing v t with
  | zero => cases v <;> rfl
  | succ steps ih =>
    cases v with
    | promise id =>
      rw [isMissingWithin_promise]
      cases sign : t.sign id with
      | answer missing => rfl
      | failure f => rfl
      | onward env inner =>
        dsimp only
        rw [ih]
        have back := Store.reset_mark (sign_onward_iff.mp sign).1
        unfold mark
        dsimp only
        rw [back]
    | _ => rfl

/-- A chain does not pass more promises than wait for a value. -/
theorem isMissingWithin_steps {steps : Nat} {t : Session} (enough : t.store.waiting < steps)
    (more : Nat) (v : Value) :
    isMissingWithin (steps + more) false v t = isMissingWithin steps false v t := by
  induction steps generalizing v t with
  | zero => exact absurd enough (Nat.not_lt_zero _)
  | succ steps ih =>
    rw [Nat.add_right_comm]
    cases v with
    | promise id =>
      rw [isMissingWithin_promise, isMissingWithin_promise]
      cases sign : t.sign id with
      | answer missing => rfl
      | failure f => rfl
      | onward env inner =>
        have fewer := Store.waiting_mark (sign_onward_iff.mp sign).1
        dsimp only
        rw [ih (t := t.mark id env) (by unfold mark; dsimp only; omega)]
    | _ => rfl

/-- A session in which the promises of a chain are marked, and which is otherwise as before. -/
structure Marked (s : Session) (marks : List PromiseId) (t : Session) : Prop where
  heap : t.heap = s.heap
  dots : t.store.dots = s.store.dots
  under : ∀ id ∈ marks, ∃ env, (t.store.promise id).state = .underEvaluation env
  others : ∀ id, id ∉ marks → t.store.promise id = s.store.promise id

theorem Marked.mark {s t : Session} {marks : List PromiseId} (marked : Marked s marks t)
    {id : PromiseId} {env : EnvId} (state : (t.store.promise id).state = .unevaluated env) :
    Marked s (id :: marks) (t.mark id env) where
  heap := marked.heap
  dots := marked.dots
  under other member := by
    have inside := Store.waiting_inside (by rw [state]; rfl : (t.store.promise id).state.value? = none)
    unfold Session.mark
    dsimp only
    rw [Disciplined.state_set _ _ _ _ inside]
    by_cases same : other = id
    · exact ⟨env, if_pos same⟩
    · rw [if_neg same]
      exact marked.under other ((List.mem_cons.mp member).resolve_left same)
  others other fresh := by
    have apart : other ≠ id ∧ other ∉ marks := by simpa using fresh
    unfold Session.mark Store.setPromiseState
    dsimp only
    rw [Store.promise_modify, if_neg fun both => apart.1 both.1]
    exact marked.others other apart.2

/-- With the promises passed so far marked, the probe goes by the rest of the chain. -/
theorem isMissingWithin_iff {s t : Session} {before : List PromiseId} (marked : Marked s before t)
    {steps : Nat} (enough : t.store.waiting < steps) (v : Value) :
    (isMissingWithin steps false v t).1 = .ok true ↔ s.ChainMissing before v := by
  induction steps generalizing v t before with
  | zero => exact absurd enough (Nat.not_lt_zero _)
  | succ steps ih =>
    cases v with
    | missing =>
      rw [chainMissing_end rfl]
      exact ⟨fun _ => .marker, fun _ => rfl⟩
    | dots id =>
      have values : t.store.dotsAt id = s.store.dotsAt id := by
        unfold Store.dotsAt
        rw [marked.dots]
      rw [chainMissing_end rfl]
      change Except.ok (t.store.dotsAt id).values.isEmpty = _ ↔ _
      rw [values]
      constructor
      · intro empty
        exact .emptyDots (by simpa using empty)
      · intro ends
        cases ends with
        | emptyDots empty =>
          rw [empty]
          rfl
    | promise id =>
      rw [isMissingWithin_promise]
      by_cases known : id ∈ before
      · obtain ⟨env, state⟩ := marked.under id known
        rw [sign_under state]
        exact ⟨fun _ => chainMissing_closed known, fun _ => rfl⟩
      · have told := sign_congr marked.heap (marked.others id known)
        rw [told, chainMissing_promise known]
        cases sign : s.sign id with
        | answer missing => simp
        | failure f => simp
        | onward env inner =>
          have state := (sign_onward_iff.mp (told.trans sign)).1
          have fewer := Store.waiting_mark state
          have further := ih (marked.mark state) (by unfold Session.mark; dsimp only; omega) inner
          refine further.trans ⟨fun missing => .inr ⟨env, inner, rfl, missing⟩, ?_⟩
          rintro (answer | ⟨_, _, same, missing⟩)
          · cases answer
          · cases same
            exact missing
    | null | vector | closure | builtin | environment | language =>
      rw [chainMissing_end rfl]
      exact ⟨nofun, nofun⟩

/-- At the outermost level the default of a formal is missing. -/
theorem isMissingWithin_default {v : Value} {t : Session} (default : t.IsDefault v) (steps : Nat) :
    isMissingWithin (steps + 1) true v t = (.ok true, t) := by
  obtain ⟨id, rfl, origin⟩ := default
  rw [isMissingWithin, get_bind]
  simp only [origin]
  rfl

/-- All else is missing as it is further on. -/
theorem isMissingWithin_other {v : Value} {t : Session} (other : ¬ t.IsDefault v) (steps : Nat) :
    isMissingWithin (steps + 1) true v t = isMissingWithin (steps + 1) false v t := by
  cases v with
  | promise id =>
    have supplied : (t.store.promise id).origin ≠ .default := fun origin => other ⟨id, rfl, origin⟩
    rw [isMissingWithin, isMissingWithin, get_bind, get_bind]
    simp [supplied]
  | _ => rfl

theorem isMissingArgument_session (name : Name) (env : EnvId) (s : Session) :
    (isMissingArgument name env s).2 = s := by
  unfold isMissingArgument
  rw [bind_apply, readHeap_apply]
  rcases s.heap.getLocal env name with f | _ | binding
  · rfl
  · rfl
  · dsimp only
    rw [get_bind]
    by_cases default : s.IsDefault binding
    · rw [isMissingWithin_default default]
    · rw [isMissingWithin_other default]
      exact isMissingWithin_session _ binding s

/-- Whether an argument is missing is found out without a trace: whatever the answer or the failure, the
session is what it was, and the same comes out under every bound that exceeds the number of promises.
The argument is missing exactly if its promise holds the default of a formal, or its chain has a missing
end or closes. -/
theorem isMissingArgument_pure (s : Session) (name : Name) (env : EnvId) :
    ∃ r, isMissingArgument name env s = (r, s) ∧
      (∀ binding, s.heap.getLocal env name = .ok (some binding) →
        ∀ steps, s.store.promises.size < steps → isMissingWithin steps true binding s = (r, s)) ∧
      (r = .ok true ↔ ∃ binding, s.heap.getLocal env name = .ok (some binding) ∧
        (s.IsDefault binding ∨ s.ChainMissing [] binding)) := by
  unfold isMissingArgument
  rw [bind_apply, readHeap_apply]
  rcases s.heap.getLocal env name with f | _ | binding
  · exact ⟨.error (.failure f), rfl, nofun, by simp⟩
  · exact ⟨_, rfl, nofun, by simp⟩
  · dsimp only
    rw [get_bind]
    by_cases default : s.IsDefault binding
    · refine ⟨.ok true, isMissingWithin_default default _, ?_, by simp [default]⟩
      rintro _ ⟨⟩ (_ | steps) enough
      · exact absurd enough (Nat.not_lt_zero _)
      · exact isMissingWithin_default default steps
    · have unmarked : Marked s [] s := ⟨rfl, rfl, nofun, fun _ _ => rfl⟩
      have enough := Nat.lt_succ_of_le s.store.waiting_le_size
      have answer := isMissingWithin_iff unmarked enough binding
      have run := isMissingWithin_other default s.store.promises.size
      have session := isMissingWithin_session (s.store.promises.size + 1) binding s
      refine ⟨_, run.trans (Prod.ext rfl session), ?_, by simpa [default] using answer⟩
      rintro _ ⟨⟩ (_ | steps) within
      · exact absurd within (Nat.not_lt_zero _)
      · obtain ⟨more, rfl⟩ := Nat.exists_eq_add_of_le (Nat.le_of_lt_succ within)
        rw [isMissingWithin_other default, Nat.add_right_comm, isMissingWithin_steps enough]
        exact Prod.ext rfl session

end CallByNeed
