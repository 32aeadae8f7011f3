import CallByNeed.Proofs.Evaluation
import CallByNeed.Proofs.Forcing
import CallByNeed.Proofs.Running

/-!
Relations that every evaluation keeps between the session it starts from and the one it leaves. Such a
relation looks at objects only, and at how often a promise was fulfilled. Holding across each primitive
change of the store, it is a law of evaluation as soon as forcing and the missingness probe keep it.
-/
namespace CallByNeed

variable {α β : Type}

/-- The objects of a session, and how many promises were fulfilled so far. -/
structure Ledger where
  store : Store
  fulfilled : Nat

def Session.ledger (s : Session) : Ledger := ⟨s.store, s.stats.promisesForced⟩

/-- Relations that hold across every primitive change of the objects while no promise is fulfilled. -/
class Lasting (R : Ledger → Ledger → Prop) : Prop where
  refl (l : Ledger) : R l l
  trans {l m n : Ledger} : R l m → R m n → R l n
  evolution : Store.Evolution fun s t => ∀ n, R ⟨s, n⟩ ⟨t, n⟩
  eagerPromise (e : Expr) (env : EnvId) (caller : RecordId) (eager : EagerValue) (s : Store) (n : Nat) :
    R ⟨s, n⟩ ⟨(Store.eagerPromise e env caller eager s).2, n⟩
  distrust (site : NodeId) (s : Store) (n : Nat) : R ⟨s, n⟩ ⟨s.distrust site, n⟩

/-- However a computation ends, the session it leaves is related to the one it started from. -/
def Keeps (R : Ledger → Ledger → Prop) (m : EvalM α) : Prop := ∀ s, R s.ledger (m s).2.ledger

variable {R : Ledger → Ledger → Prop}

section Lasting
variable [Lasting R]

/-- A computation that touches neither objects nor the count of promises fulfilled. -/
theorem keeps_of_same {m : EvalM α} (same : ∀ s, (m s).2.ledger = s.ledger) : Keeps R m := by
  intro s
  rw [same]
  exact Lasting.refl _

omit [Lasting R] in
theorem keeps_get {f : Session → EvalM α} (keeps : ∀ s, Keeps R (f s)) : Keeps R (get >>= f) :=
  fun s => keeps s s

theorem keeps_bind_at {m : EvalM α} {f : α → EvalM β} {s : Session}
    (first : R s.ledger (m s).2.ledger) (rest : ∀ a, Keeps R (f a)) :
    R s.ledger ((m >>= f) s).2.ledger :=
  after_bind (P := fun t => R s.ledger t.ledger) first fun a t _ reached =>
    Lasting.trans reached (rest a t)

theorem keeps_bind {m : EvalM α} {f : α → EvalM β} (first : Keeps R m) (rest : ∀ a, Keeps R (f a)) :
    Keeps R (m >>= f) := fun s => keeps_bind_at (first s) rest

theorem keeps_updateHeap (f : Heap → Except Failure Heap) : Keeps R (updateHeap f) := by
  refine keeps_get fun s => ?_
  split
  · exact keeps_of_same fun _ => rfl
  · exact keeps_of_same fun _ => rfl

theorem keeps_administrative {g : Session → α × Session} (administrative : Administrative g) :
    Keeps R (modifyGet g : EvalM α) := by
  refine keeps_of_same fun s => ?_
  change (⟨(g s).2.store, (g s).2.stats.promisesForced⟩ : Ledger) = _
  rw [administrative.store, administrative.forced]
  rfl

variable (R) in
/-- The rules for a relation between ledgers. -/
def Lasting.rules : Rules where
  Holds := Keeps R
  Grounded _ _ := True
  Grows s t := ∀ n, R ⟨s, n⟩ ⟨t, n⟩
  evolution := Lasting.evolution
  value _ := keeps_of_same fun _ => rfl
  andThen := keeps_bind
  failure _ := keeps_of_same fun _ => rfl
  leaving _ _ := keeps_of_same fun _ => rfl
  reading _ := keeps_get
  observing first rest _ := fun s => Lasting.trans (first s) (rest _ _)
  storing {_ m} moves := by
    intro s
    have moved := moves s.store s.stats.promisesForced
    rw [onStore_apply]
    rcases run : m s.store with ⟨r | r, t⟩
    · rw [run] at moved
      exact moved
    · rw [run] at moved
      exact moved
  administering clerical := keeps_administrative clerical.toAdministrative
  interrupting := keeps_of_same fun _ => rfl
  polling := by
    refine keeps_get fun s => ?_
    split
    · exact keeps_of_same fun _ => rfl
    · exact keeps_of_same fun _ => rfl
  framing _ := keeps_of_same fun _ => rfl
  binding env name v := by
    refine keeps_bind (keeps_bind (keeps_get fun s => ?_) fun _ => keeps_of_same fun _ => rfl)
      fun _ => keeps_of_same fun _ => rfl
    split
    · exact keeps_of_same fun _ => rfl
    · exact keeps_of_same fun _ => rfl
  outerBinding _ _ _ := keeps_updateHeap _
  recording _ _ _ _ := keeps_of_same fun _ => rfl
  closing _ _ keeps := keeps
  flagging _ _ := keeps_of_same fun _ => rfl

theorem Lasting.remembering : (Lasting.rules R).Remembering := keeps_administrative

/-! Arguments of closure calls. What is worked out about a call site is no object. -/

theorem keeps_simpleArgs (site : NodeId) (args : List Arg) : Keeps R (simpleArgs site args) := by
  refine keeps_of_same fun s => ?_
  obtain ⟨_, run | run⟩ := simpleArgs_cases site args s
  · rw [run]
  · rw [run]; rfl

theorem keeps_forcedFormals (f : Function) : Keeps R (forcedFormals f) := by
  refine keeps_of_same fun s => ?_
  obtain ⟨_, run | run⟩ := forcedFormals_cases f s
  · rw [run]
  · rw [run]; rfl

theorem Lasting.counting : (Lasting.rules R).Counting where
  promising := Lasting.eagerPromise
  distrusting := Lasting.distrust
  created := keeps_of_same fun _ => rfl
  aborted := keeps_of_same fun _ => rfl

theorem Lasting.planning : (Lasting.rules R).Planning where
  toCounting := Lasting.counting
  looking := keeps_get
  simple := keeps_simpleArgs
  forced := keeps_forcedFormals

end Lasting

/-- Relations that forcing and the missingness probe keep too. -/
class Lawful (R : Ledger → Ledger → Prop) : Prop extends Lasting R where
  force {ev : Evaluator} (h : (Lasting.rules R).Evaluates ev) (id : PromiseId) (caller : RecordId) :
    Keeps R (force ev id caller)
  missingProbe (name : Name) (env : EnvId) : Keeps R (isMissingArgument name env)

/-- Relations that do not look at promises. -/
class Indifferent (R : Ledger → Ledger → Prop) : Prop extends Lasting R where
  life (id : PromiseId) (f : Promise → Promise) (s : Store) (n : Nat) :
    R ⟨s, n⟩ ⟨s.modifyPromise id f, n⟩
  uncounted (s : Store) (n k : Nat) : R ⟨s, n⟩ ⟨s, k⟩

instance [Indifferent R] : Lawful R :=
  have free : (Lasting.rules R).Forcing := {
    life := Indifferent.life
    distrusting := Lasting.distrust
    hit := fun s => Indifferent.uncounted s.store _ _
    fulfilled := fun s => Indifferent.uncounted s.store _ _
    givenUp := keeps_of_same fun _ => rfl }
  { force := free.holds_force
    missingProbe := free.holds_isMissingArgument }

variable [Lawful R]

variable (R) in
def Lawful.plain : Law := SearchLaw.law
  { toRules := Lasting.rules R
    force := Lawful.force
    missingProbe := Lawful.missingProbe } fun _ _ => trivial

variable (R) in
/-- The law that evaluations keep a relation between ledgers. -/
def Lawful.law : CallLaw where
  toLaw := Lawful.plain R
  arguments h := Lasting.planning.holds_arguments h
  useMethod h := (Lawful.plain R).holds_useMethod h Lasting.remembering fun _ _ => trivial
  nextMethod h := (Lawful.plain R).holds_nextMethod h fun _ _ => trivial
  standardGeneric h := (Lawful.plain R).holds_standardGeneric h Lasting.remembering

theorem keeps_eval (depth : Nat) (e : Expr) (env : EnvId) (caller : RecordId) :
    Keeps R (eval depth e env caller) := (Lawful.law R).evaluates_eval depth e env caller

end CallByNeed
