import CallByNeed.Proofs.Invariance
import Mathlib.Logic.Relation

/-!
Sessions under a host. A host makes objects, evaluates, calls, forces, binds and collects in any order;
the sessions it can bring about are the reachable ones. What evaluations keep, every host run keeps.
-/
namespace CallByNeed.Session

/-- One thing a host does to a session. -/
inductive HostStep : Session → Session → Prop
  | load (code : Source) (s : Session) : HostStep s { s with store := (code.load s.store).2 }
  | makeVector (c : Container) (s : Session) :
    HostStep s { s with store := (Store.addVector c s.store).2 }
  | makeDots (d : Dots) (s : Session) : HostStep s { s with store := (Store.addDots d s.store).2 }
  | makeClosure (f : Function) (env : EnvId) (s : Session) :
    HostStep s { s with store := (Store.closure f env s.store).2 }
  | makePromise (e : Expr) (env : EnvId) (s : Session) : HostStep s (makePromise e env s).2
  | evalIn (e : Expr) (env : EnvId) (s : Session) : HostStep s (evalIn e env s).2
  | apply (function : Value) (names : List (Option Name)) (values : List Value) (s : Session) :
    HostStep s (apply function names values s).2
  | force (id : PromiseId) (s : Session) : HostStep s (forcePromise id s).2
  | buildFrame (function : Value) (supplied : Supplied) (s : Session) :
    HostStep s (buildFrame function supplied s).2
  | defineIn (env : EnvId) (name : Name) (v : Value) (s : Session) :
    HostStep s (defineIn env name v s).2
  | defineGlobal (name : Name) (v : Value) (s : Session) : HostStep s (defineGlobal name v s).2
  | registerBuiltin (b : Builtin) (s : Session) : HostStep s (registerBuiltin b s).2
  | raiseInterrupt (s : Session) : HostStep s s.raiseInterrupt
  | setResolver (r : Resolver) (s : Session) : HostStep s (s.setResolver r)
  | clearDiagnostics (s : Session) : HostStep s s.clearDiagnostics
  | takeOutput (s : Session) : HostStep s s.takeOutput.2
  | collectGarbage (s : Session) : HostStep s s.collectGarbage.2

/-- What a host does to a session in any number of steps. -/
abbrev HostRun : Session → Session → Prop := Relation.ReflTransGen HostStep

/-- Sessions that a host can bring about. -/
def Reachable (s : Session) : Prop := ∃ options, HostRun (start options) s

variable {α : Type} {R : Ledger → Ledger → Prop} [Lawful R]

theorem atTopLevel_session (m : RecordId → EvalM α) (s : Session) :
    (atTopLevel m s).2 = (underRecord none none .topLevel m s).2 := by
  unfold atTopLevel
  rcases underRecord none none .topLevel m s with ⟨a | a, t⟩ <;> rfl

theorem keeps_atTopLevel {m : RecordId → EvalM α} (keeps : ∀ top, Keeps R (m top)) (s : Session) :
    R s.ledger (atTopLevel m s).2.ledger := by
  rw [atTopLevel_session]
  exact (Lawful.law R).holds_underRecord rfl keeps s

theorem reportFailure_ledger (f : Failure) (s : Session) :
    (s.reportFailure f).ledger = s.ledger := by
  cases f <;> rfl

theorem keeps_evalIn (e : Expr) (env : EnvId) (s : Session) :
    R s.ledger (evalIn e env s).2.ledger := by
  have kept : R s.ledger (atTopLevel (eval nestingLimit e env) s).2.ledger :=
    keeps_atTopLevel (fun top => keeps_eval _ _ _ top) s
  unfold evalIn
  rcases run : atTopLevel (eval nestingLimit e env) s with ⟨f | v, t⟩
  · rw [run] at kept
    exact (reportFailure_ledger f t).symm ▸ kept
  · rw [run] at kept
    exact kept

theorem keeps_apply (function : Value) (names : List (Option Name)) (values : List Value)
    (s : Session) : R s.ledger (apply function names values s).2.ledger :=
  keeps_atTopLevel ((Lawful.law R).holds_hostApply function names values) s

theorem keeps_buildFrame (function : Value) (supplied : Supplied) (s : Session) :
    R s.ledger (buildFrame function supplied s).2.ledger := by
  unfold buildFrame
  split
  · exact keeps_atTopLevel ((Lawful.law R).holds_hostFrame _ _ _ _) s
  · exact Lasting.refl _

theorem defineIn_ledger (env : EnvId) (name : Name) (v : Value) (s : Session) :
    (defineIn env name v s).2.ledger = s.ledger := by
  unfold defineIn
  cases s.heap.define env name v with
  | ok heap => rfl
  | error f => rfl

theorem keeps_defineGlobal (name : Name) (v : Value) (s : Session) :
    R s.ledger (defineGlobal name v s).2.ledger := by
  change R s.ledger (defineIn global name v { s with store := s.store.share v }).2.ledger
  rw [defineIn_ledger]
  exact Store.share_moves (R := (Lawful.law R).Grows) v s.store _

theorem registerBuiltin_ledger (b : Builtin) (s : Session) :
    (registerBuiltin b s).2.ledger = s.ledger := by
  change (defineIn base b.name _ { s with builtins := (s.builtins.register b).2 }).2.ledger = _
  rw [defineIn_ledger]
  rfl

theorem keeps_hostStep {s t : Session} (step : HostStep s t) : R s.ledger t.ledger := by
  cases step with
  | load code => exact moves_load (R := (Lawful.law R).Grows) code s.store _
  | makeVector c => exact Store.Owning.addVector (R := (Lawful.law R).Grows) c s.store _
  | makeDots d => exact Store.Evolution.addDots (R := (Lawful.law R).Grows) d s.store _
  | makeClosure f env => exact Store.Evolution.closure (R := (Lawful.law R).Grows) f env s.store _
  | makePromise e env =>
    exact keeps_atTopLevel (fun _ => (Lawful.law R).holds_allocate
      (Store.Evolution.lazyPromise _ _ _ _)) s
  | evalIn e env => exact keeps_evalIn e env s
  | apply function names values => exact keeps_apply function names values s
  | force id =>
    exact keeps_atTopLevel (fun _ => Lawful.force ((Lawful.law R).evaluates_eval _) _ _) s
  | buildFrame function supplied => exact keeps_buildFrame function supplied s
  | defineIn env name v =>
    rw [defineIn_ledger]
    exact Lasting.refl _
  | defineGlobal name v => exact keeps_defineGlobal name v s
  | registerBuiltin b =>
    rw [registerBuiltin_ledger]
    exact Lasting.refl _
  | raiseInterrupt | setResolver r | clearDiagnostics | takeOutput | collectGarbage =>
    exact Lasting.refl _

/-- What evaluations keep holds between the ends of every host run. -/
theorem keeps_hostRun {s t : Session} (run : HostRun s t) : R s.ledger t.ledger := by
  induction run with
  | refl => exact Lasting.refl _
  | tail _ step ih => exact Lasting.trans ih (keeps_hostStep step)

end CallByNeed.Session
