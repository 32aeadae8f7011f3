import CallByNeed.Proofs.Evolution

/-!
Properties of computations that follow the structure of the evaluator. Such a property has a rule for
each way in which computations are put together and for each primitive change of a session; every
rule of the evaluator that forces nothing then has it. Two more sessions stand beside the one a
computation runs in: one with another plan for early evaluation has to look the same to it.
-/
namespace CallByNeed

/-- Whether no handler may stop a failure on its way out. -/
def Failure.isFatal : Failure → Bool
  | internal _ | interrupted | exhausted => true
  | condition _ | cannotOptimize | generic _ => false

namespace Session

/-- A session with another plan for early evaluation: what the option says, and what was worked out
about call sites and functions. -/
def replan (s : Session) (early : Bool) (sites : Table NodeId CallSite)
    (forced : Table NodeId (List Bool)) : Session :=
  { s with options := { s.options with eagerPromises := early }, sites, forced }

/-- Two sessions that differ in their plan only; their call sites remember the same methods. -/
def Twin (s t : Session) : Prop :=
  ∃ early sites forced, t = s.replan early sites forced ∧
    ∀ node, (t.site node).cache = (s.site node).cache

theorem site_setSite (s : Session) (node other : NodeId) (f : CallSite → CallSite) :
    (s.setSite node f).site other = if node = other then f (s.site node) else s.site other := by
  unfold site setSite
  rw [Table.get?_insert]
  split <;> rfl

theorem Twin.cache {s t : Session} (twin : s.Twin t) (node : NodeId) :
    (t.site node).cache = (s.site node).cache := by
  obtain ⟨_, _, _, _, caches⟩ := twin
  exact caches node

/-- Twins stay twins when a call site of both gets the same cache. -/
theorem Twin.setCache {s t : Session} (twin : s.Twin t) (node : NodeId) (cache : DispatchCache) :
    (s.setSite node ({ · with cache := cache })).Twin
      (t.setSite node ({ · with cache := cache })) := by
  obtain ⟨early, sites, forced, rfl, caches⟩ := twin
  refine ⟨early, _, forced, rfl, fun other => ?_⟩
  rw [site_setSite, site_setSite]
  split
  · rfl
  · exact caches other

end Session

variable {α β : Type}

/-- A change of what a session remembers about methods, classes, messages and the like. -/
structure Administrative (g : Session → α × Session) : Prop where
  store : ∀ s, (g s).2.store = s.store := by exact fun _ => rfl
  heap : ∀ s, (g s).2.heap = s.heap := by exact fun _ => rfl
  records : ∀ s, (g s).2.records = s.records := by exact fun _ => rfl
  options : ∀ s, (g s).2.options = s.options := by exact fun _ => rfl
  implicit : ∀ s, (g s).2.implicit = s.implicit := by exact fun _ => rfl
  builtins : ∀ s, (g s).2.builtins = s.builtins := by exact fun _ => rfl
  interrupt : ∀ s, (g s).2.interrupt = s.interrupt := by exact fun _ => rfl
  forced : ∀ s, (g s).2.stats.promisesForced = s.stats.promisesForced := by exact fun _ => rfl
  created : ∀ s, (g s).2.stats.eagerPromisesCreated = s.stats.eagerPromisesCreated := by
    exact fun _ => rfl
  hits : ∀ s, (g s).2.stats.eagerHits = s.stats.eagerHits := by exact fun _ => rfl
  deopts : ∀ s, (g s).2.stats.eagerDeopts = s.stats.eagerDeopts := by exact fun _ => rfl
  aborts : ∀ s, (g s).2.stats.eagerAborts = s.stats.eagerAborts := by exact fun _ => rfl
  twin : ∀ s t, s.Twin t → (g t).1 = (g s).1 ∧ (g s).2.Twin (g t).2 := by
    rintro s t ⟨early, sites, forced, rfl, caches⟩
    exact ⟨rfl, early, sites, forced, rfl, caches⟩

/-- Two sessions dispatch by the same memory, frames apart. -/
structure Session.SameMemory (s t : Session) : Prop where
  caches : ∀ node, (t.site node).cache = (s.site node).cache := by exact fun _ => rfl
  methods : t.methods = s.methods := by rfl
  methodsVersion : t.methodsVersion = s.methodsVersion := by rfl
  generics : t.generics = s.generics := by rfl
  tables : t.tables = s.tables := by rfl

/-- What a session dispatches by, frames and call sites apart: an entry is made in it, or it stays as it
is. -/
inductive Session.Enters (s : Session) : Session → Prop
  | nothing {t : Session} (same : s.SameMemory t) : Enters s t
  | method (name : Name) (f : Value) :
    Enters s { s with methods := s.methods.insert name f, methodsVersion := s.methodsVersion + 1 }
  | generic (name : Name) (signature : List Name) (table : MethodTable) :
    Enters s { s with
      tables := s.tables.push table
      generics := s.generics.insert name ⟨name, signature, ⟨s.tables.size⟩⟩ }
  | formal (id : TableId) (key : String) (method : Value) :
    Enters s (s.setTable id ((s.tableAt id).define key method))

/-- A change that leaves the caches of call sites as they are. -/
structure Clerical (g : Session → α × Session) : Prop extends Administrative g where
  enters : ∀ s : Session, s.Enters (g s).2 := by exact fun _ => .nothing {}

/-- The method that a record is opened for, and the state of the dispatch that came to it. -/
def RecordKind.method? : RecordKind → Option (Value × DispatchContext)
  | .function _ f _ dispatch => dispatch.map (f, ·)
  | _ => none

/-- What a handler does with a fatal failure: it passes it on. -/
def PassesFatal (k : Except Unwind α → EvalM β) : Prop :=
  ∀ f s, f.isFatal = true → (k (.error (.failure f)) s).1 = .error (.failure f)

/-- A property of computations with a rule for each way of putting computations together and for each
primitive change of a session. -/
structure Rules where
  Holds : {α : Type} → EvalM α → Prop
  /-- The methods that may be called, and the states of a dispatch they may be called in. -/
  Grounded : Value → DispatchContext → Prop
  Grows : Store → Store → Prop
  evolution : Store.Evolution Grows
  value {α : Type} (a : α) : Holds (pure a : EvalM α)
  andThen {α β : Type} {m : EvalM α} {f : α → EvalM β} :
    Holds m → (∀ a, Holds (f a)) → Holds (m >>= f)
  failure {α : Type} (f : Failure) : Holds (fail f : EvalM α)
  leaving {α : Type} (env : EnvId) (v : Value) : Holds (throw (.leave env v) : EvalM α)
  reading {α : Type} {f : Session → EvalM α} :
    (∀ s early sites forced, f (s.replan early sites forced) = f s) → (∀ s, Holds (f s)) →
      Holds (get >>= f)
  observing {α β : Type} {m : EvalM α} {k : Except Unwind α → EvalM β} :
    Holds m → (∀ r, Holds (k r)) → PassesFatal k → Holds (observe m >>= k)
  storing {α : Type} {m : StoreM α} : Store.Moves Grows m → Holds (onStore m)
  administering {α : Type} {g : Session → α × Session} :
    Clerical g → Holds (modifyGet g : EvalM α)
  interrupting : Holds (modify fun s => { s with interrupt := true } : EvalM Unit)
  polling : Holds checkInterrupt
  framing (parent : EnvId) : Holds (allocFrame parent)
  binding (env : EnvId) (name : Name) (v : Value) : Holds (define env name v)
  outerBinding (env : EnvId) (name : Name) (v : Value) :
    Holds (updateHeap fun h => (·.2) <$> h.assignOuter env name v)
  recording (parent : Option RecordId) (call : Option Expr) (kind : RecordKind) :
    (∀ f d, kind.method? = some (f, d) → Grounded f d) → Holds (pushRecord parent call kind)
  closing {α : Type} (id : RecordId) {m : EvalM α} : Holds m → Holds (releasing id m)
  flagging (caller : RecordId) (flag : Bool) : Holds (setEagerOnly caller flag)

namespace Rules

instance (L : Rules) : Store.Evolution L.Grows := L.evolution

/-- An evaluator that has the property on every expression. -/
def Evaluates (L : Rules) (ev : Evaluator) : Prop := ∀ e env caller, L.Holds (ev e env caller)

/-- Call sites may remember anything. -/
def Remembering (L : Rules) : Prop :=
  ∀ {α : Type} {g : Session → α × Session}, Administrative g → L.Holds (modifyGet g : EvalM α)

variable (L : Rules)

theorem holds_throw (u : Unwind) : L.Holds (throw u : EvalM α) := by
  cases u with
  | failure f => exact L.failure f
  | leave env v => exact L.leaving env v

theorem holds_resume (r : Except Unwind α) : L.Holds (resume r) := by
  cases r with
  | ok a => exact L.value a
  | error u => exact L.holds_throw u

theorem holds_map {m : EvalM α} (f : α → β) (h : L.Holds m) : L.Holds (f <$> m) := by
  rw [map_eq_pure_bind]
  exact L.andThen h fun a => L.value (f a)

theorem allocate_eq_onStore (m : Alloc α) : allocate m = onStore (liftM m) := rfl

theorem modifyStore_eq_onStore (f : Store → Store) : modifyStore f = onStore (modify f) := rfl

theorem holds_allocate {m : Alloc α} (h : Store.Moves L.Grows m) : L.Holds (allocate m) := by
  rw [allocate_eq_onStore]
  exact L.storing (Store.moves_lift h)

theorem holds_modifyStore {f : Store → Store} (h : ∀ s, L.Grows s (f s)) :
    L.Holds (modifyStore f) := by
  rw [modifyStore_eq_onStore]
  exact L.storing (Store.moves_modify h)

theorem holds_vector (xs : Elements) : L.Holds (allocate (Store.vector xs)) :=
  L.holds_allocate (Store.moves_vector xs)

/-- A computation that may be left out, and what follows either way. -/
theorem holds_when (c : Prop) [Decidable c] {m : EvalM Unit} {k : Unit → EvalM α} (h : L.Holds m)
    (rest : ∀ u, L.Holds (k u)) : L.Holds (if c then m >>= k else k ()) := by
  split
  · exact L.andThen h rest
  · exact rest ()

/-- One of two computations, and what follows either. -/
theorem holds_either (c : Prop) [Decidable c] {m m' : EvalM β} {k : β → EvalM α} (h : L.Holds m)
    (h' : L.Holds m') (rest : ∀ b, L.Holds (k b)) :
    L.Holds (if c then m >>= k else m' >>= k) := by
  split
  · exact L.andThen h rest
  · exact L.andThen h' rest

theorem holds_failIf (condition : Bool) (f : Failure) : L.Holds (failIf condition f) := by
  unfold failIf
  split
  · exact L.failure f
  · exact L.value ()

theorem holds_liftExcept (r : Except Failure α) : L.Holds (liftExcept r) := by
  cases r with
  | ok a => exact L.value a
  | error f => exact L.failure f

theorem holds_readHeap (f : Heap → Except Failure α) : L.Holds (readHeap f) := by
  refine L.reading (fun _ _ _ _ => rfl) fun s => ?_
  split
  · exact L.value _
  · exact L.failure _

theorem holds_eagerOnly (caller : RecordId) : L.Holds (eagerOnly caller) :=
  L.reading (fun _ _ _ _ => rfl) fun _ => L.value _

theorem holds_ensureLazy (caller : RecordId) : L.Holds (ensureLazy caller) :=
  L.andThen (L.holds_eagerOnly caller) fun _ => L.holds_failIf _ _

theorem holds_failAt (caller : RecordId) (f : Failure) : L.Holds (failAt caller f : EvalM α) :=
  L.reading (fun _ _ _ _ => rfl) fun _ => L.failure _

theorem holds_exprText (e : Expr) : L.Holds (exprText e) :=
  L.reading (fun _ _ _ _ => rfl) fun _ => L.value _

theorem holds_underRecord {parent : Option RecordId} {call : Option Expr} {kind : RecordKind}
    (undispatched : kind.method? = none) {m : RecordId → EvalM α} (h : ∀ id, L.Holds (m id)) :
    L.Holds (underRecord parent call kind m) :=
  L.andThen (L.recording _ _ _ fun _ _ some => by rw [undispatched] at some; cases some) fun id =>
    L.closing id (h id)

theorem holds_administer {f : Session → Session} (h : Clerical fun s => ((), f s)) :
    L.Holds (modify f) := L.administering h

theorem holds_warn (message : String) (call : Option String) : L.Holds (warn message call) :=
  L.holds_administer {}

/-! Arguments of a call and the frame it makes. -/

theorem holds_visibleDots (env : EnvId) (caller : RecordId) : L.Holds (visibleDots env caller) := by
  refine L.andThen (L.holds_readHeap _) fun found => ?_
  split
  · exact L.reading (fun _ _ _ _ => rfl) fun _ => L.value _
  · exact L.value _
  · exact L.holds_failAt _ _

theorem holds_expandArgs (env : EnvId) (caller : RecordId) (position : Nat) (args : List Arg) :
    L.Holds (expandArgs env caller position args) := by
  induction args generalizing position with
  | nil => exact L.value _
  | cons a rest ih =>
    obtain ⟨name, e⟩ := a
    rw [expandArgs]
    dsimp only
    split
    · exact L.andThen (L.holds_visibleDots _ _) fun _ => L.andThen (L.value _) fun _ =>
        L.andThen (ih _) fun _ => L.value _
    · split
      · exact L.andThen (L.value _) fun _ => L.andThen (ih _) fun _ => L.value _
      · exact L.andThen (L.value _) fun _ => L.andThen (ih _) fun _ => L.value _

theorem holds_matchCall (f : Function) (names : List (Option Name)) (labels : List String)
    (call : Expr) : L.Holds (matchCall f names labels call) := by
  refine L.reading (fun _ _ _ _ => rfl) fun s => ?_
  split
  · exact L.value _
  · exact L.failure _

theorem holds_matchSupplied (f : Function) (supplied : Supplied) (call : Expr) :
    L.Holds (matchSupplied f supplied call) :=
  L.reading (fun _ _ _ _ => rfl) fun _ => L.holds_matchCall _ _ _ _

theorem holds_formalValue (supplied : Supplied) (env : EnvId) (record : RecordId) (formal : Formal)
    (slot : FormalSlot) : L.Holds (formalValue supplied env record formal slot) := by
  unfold formalValue
  extract_lets unsupplied
  have unmatched : L.Holds unsupplied := by
    unfold unsupplied
    split
    · exact L.value _
    · split
      · exact L.holds_allocate (Store.Evolution.evaluatedPromise _ _ _)
      · exact L.holds_allocate (Store.Evolution.lazyPromise _ _ _ _)
  split
  · exact L.holds_map _ (L.holds_allocate (Store.Evolution.addDots _))
  · dsimp only
    split
    · exact unmatched
    · exact L.value _
  · exact unmatched

theorem holds_bindFormals (supplied : Supplied) (env : EnvId) (record : RecordId)
    (formals : List Formal) (slots : List FormalSlot) :
    L.Holds (bindFormals supplied env record formals slots) := by
  induction formals generalizing slots with
  | nil => exact L.value _
  | cons formal rest ih =>
    exact L.andThen (L.holds_formalValue _ _ _ _ _) fun _ =>
      L.andThen (L.binding _ _ _) fun _ => ih _

theorem holds_bindDispatch (env : EnvId) (context : DispatchContext) :
    L.Holds (bindDispatch env context) :=
  L.andThen (L.holds_vector _) fun _ => L.andThen (L.binding _ _ _) fun _ =>
    L.andThen (L.holds_vector _) fun _ => L.binding _ _ _

theorem holds_enterFrame (closure : Value) (f : Function) (definedIn : EnvId) (call : Expr)
    (supplied : Supplied) (slots : List FormalSlot) (caller : RecordId)
    {dispatch : Option DispatchContext} (grounded : ∀ d, dispatch = some d → L.Grounded closure d) :
    L.Holds (enterFrame closure f definedIn call supplied slots caller dispatch) := by
  refine L.reading (fun _ _ _ _ => rfl) fun s => L.holds_when _ (L.failure _) fun _ => ?_
  refine L.andThen (L.framing _) fun env => L.andThen (L.recording _ _ _ fun g d opened => ?_) fun record =>
    L.andThen (L.holds_bindFormals _ _ _ _ _) fun _ => ?_
  · obtain ⟨d, given, same⟩ := Option.map_eq_some_iff.mp opened
    cases same
    exact grounded d given
  dsimp only
  split
  · exact L.andThen (L.holds_bindDispatch _ _) fun _ => L.value _
  · exact L.value _

/-! Arguments evaluated at the call. -/

/-- What evaluating an argument early adds to a session is among the changes a property allows: a promise
with its value, or the loss of trust in the call site, and the count of either. -/
structure Counting : Prop where
  promising (e : Expr) (env : EnvId) (caller : RecordId) (eager : EagerValue) (s : Store) :
    L.Grows s (Store.eagerPromise e env caller eager s).2
  distrusting (site : NodeId) (s : Store) : L.Grows s (s.distrust site)
  created : L.Holds (count fun c => { c with eagerPromisesCreated := c.eagerPromisesCreated + 1 })
  aborted : L.Holds (count fun c => { c with eagerAborts := c.eagerAborts + 1 })

namespace Counting

variable {L} (counting : L.Counting)
include counting

theorem holds_eagerArgument {ev : Evaluator} (h : L.Evaluates ev) (e : Expr) (env : EnvId)
    (caller : RecordId) (site : NodeId) : L.Holds (eagerArgument ev e env caller site) := by
  have lazily : L.Holds (allocate (Store.lazyPromise e env .supplied caller)) :=
    L.holds_allocate (Store.Evolution.lazyPromise _ _ _ _)
  refine L.andThen (L.holds_readHeap _) fun snapshot => L.andThen (L.holds_eagerOnly _) fun previous =>
    L.andThen (L.flagging _ _) fun _ => L.observing (h _ _ _) (fun r => ?_) ?_
  · refine L.andThen (L.flagging _ _) fun _ => ?_
    split
    · exact L.andThen counting.created fun _ => L.holds_allocate (counting.promising _ _ _ _)
    · exact L.andThen (L.holds_failIf _ _) fun _ =>
        L.andThen (L.holds_modifyStore (counting.distrusting site)) fun _ =>
          L.andThen counting.aborted fun _ => lazily
    · split
      · exact L.andThen counting.aborted fun _ => lazily
      · exact L.failure _
    · exact L.holds_throw _
  · intro f s fatal
    cases f with
    | condition _ | cannotOptimize | generic _ => simp [Failure.isFatal] at fatal
    | internal _ | interrupted | exhausted => rfl

theorem holds_argumentValue {ev : Evaluator} (h : L.Evaluates ev) (env : EnvId) (caller : RecordId)
    (site : NodeId) (early : Nat → Nat → Bool) (index : Nat) (pending : Pending) :
    L.Holds (argumentValue ev env caller site early index pending) := by
  unfold argumentValue
  split
  · exact L.value _
  · split
    · exact L.holds_allocate (Store.Evolution.evaluatedPromise _ _ _)
    · refine L.reading (fun _ _ _ _ => rfl) fun s => ?_
      split
      · exact counting.holds_eagerArgument h _ _ _ _
      · exact L.holds_allocate (Store.Evolution.lazyPromise _ _ _ _)

theorem holds_argumentValues {ev : Evaluator} (h : L.Evaluates ev) (env : EnvId) (caller : RecordId)
    (site : NodeId) (early : Nat → Nat → Bool) (index : Nat) (pending : List Pending) :
    L.Holds (argumentValues ev env caller site early index pending) := by
  induction pending generalizing index with
  | nil => exact L.value _
  | cons p rest ih =>
    exact L.andThen (counting.holds_argumentValue h _ _ _ _ _ _) fun _ =>
      L.andThen (ih _) fun _ => L.value _

end Counting

/-- Looking at the plan for early evaluation and working it out is among the changes a property allows. -/
structure Planning : Prop extends L.Counting where
  looking {α : Type} {f : Session → EvalM α} (holds : ∀ s, L.Holds (f s)) : L.Holds (get >>= f)
  simple (site : NodeId) (args : List Arg) : L.Holds (simpleArgs site args)
  forced (f : Function) : L.Holds (forcedFormals f)

namespace Planning

variable {L} (planning : L.Planning)
include planning

theorem holds_suppliedValues {ev : Evaluator} (h : L.Evaluates ev) (env : EnvId) (caller : RecordId)
    (site : NodeId) (f : Function) (args : List Arg) (slots : List FormalSlot)
    (pending : List Pending) : L.Holds (suppliedValues ev env caller site f args slots pending) := by
  have values (early : Nat → Nat → Bool) :
      L.Holds (argumentValues ev env caller site early 0 pending) :=
    planning.holds_argumentValues h _ _ _ _ _ _
  refine planning.looking fun s => ?_
  split
  · exact L.andThen (planning.simple _ _) fun _ => L.andThen (planning.forced _) fun _ => values _
  · exact values _

theorem holds_arguments {ev : Evaluator} (h : L.Evaluates ev) (f : Function) (call : Expr)
    (args : List Arg) (env : EnvId) (caller : RecordId) :
    L.Holds (do
      ensureLazy caller
      closureArgs ev f call args env caller) :=
  L.andThen (L.holds_ensureLazy _) fun _ => L.andThen (L.holds_expandArgs _ _ _ _) fun _ =>
    planning.looking fun _ => L.andThen (L.holds_matchCall _ _ _ _) fun _ =>
      L.andThen (planning.holds_suppliedValues h _ _ _ _ _ _ _) fun _ => L.value _

end Planning
end Rules
end CallByNeed
