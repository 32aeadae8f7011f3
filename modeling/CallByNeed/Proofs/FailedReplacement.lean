import CallByNeed.Proofs.Places
import CallByNeed.Proofs.Replacement

/-!
Replacements that fail. Nothing is bound then. What was written on the way stays: the containers that the
inner calls of a nested replacement had already written to, and the name that a replacement of an element
appends to an unshared vector before it finds that the element cannot be written.
-/
namespace CallByNeed

namespace Builtins

open Store

variable {R : Store → Store → Prop} {α β : Type} {a : Accessor} {args : Arguments} {c : VectorId}
  {s t u : Store}

/-- A replacement appends a name to its target before it writes: it is one of an element, its target is not
shared, and its index a string that is not among the names. -/
structure Extends (a : Accessor) (args : Arguments) (s : Store) (c : VectorId) (name : Name) : Prop where
  element : a = .element
  there : c.index < s.vectors.size
  target : args.get? "x" 0 = some (.vector c)
  unshared : (s.container c).sharing.isShared = false
  valued : (args.get? "value" 2).isSome
  unknown : ∃ index, args.get? "i" 1 = some index ∧ s.string? index = some name ∧
    resolveIndex s c index true = .ok none

theorem failsWithin_last {m : StoreM α} (first : FailsWithin R m) (b : β) :
    FailsWithin R (m >>= fun _ => pure b : StoreM β) := by
  intro s f failed
  rw [seq_apply] at failed ⊢
  rcases run : m s with ⟨e | a, t⟩
  · have reached := first s e (congrArg Prod.fst run)
    rw [run] at reached
    exact reached
  · rw [run] at failed
    cases failed

/-- An attribute that cannot be stored leaves every vector as it is. -/
theorem failsWithin_replaceAttribute [Owning R] (id : VectorId) (name : Name) (v : Option Value) :
    FailsWithin R (replaceAttribute id name v) := by
  unfold replaceAttribute
  split
  · refine failsWithin_read fun s => ?_
    dsimp only
    split
    · exact failsWithin_setAttribute _ _ _
    · exact failsWithin_seq (moves_modify (share_moves _)) fun _ => failsWithin_setAttribute _ _ _
  · exact failsWithin_setAttribute _ _ _

theorem Renamed.later {names : List String} (renamed : Renamed c names s t) (there : c.index < t.vectors.size)
    (grown : Grown t u) : Renamed c names s u where
  elements := ((grown.1 c there).2.1).trans renamed.elements
  fresh := by
    obtain ⟨m, new, inside, holds, added⟩ := renamed.fresh
    obtain ⟨still, kept, _⟩ := grown.1 m inside
    exact ⟨m, new, still, kept.trans holds, ((grown.1 c there).2.2).trans added⟩
  others d other := Chained.trans (renamed.others d other) (grown.1 d)
  size := Nat.le_trans renamed.size grown.2

/-- Finding the place of an element either changes nothing, or appends a name. -/
theorem place_cases (there : c.index < s.vectors.size)
    (unshared : (s.container c).sharing.isShared = false) (index : Value) :
    ((place c index s).2 = s ∧ ∀ name, s.string? index = some name → resolveIndex s c index true ≠ .ok none) ∨
    ∃ name t, s.string? index = some name ∧ resolveIndex s c index true = .ok none ∧
      place c index s = (.ok (s.elements c).length, t) ∧ Renamed c (extendedNames s c name) s t := by
  cases resolved : resolveIndex s c index true with
  | error f =>
    rw [place_invalid resolved]
    exact .inl ⟨rfl, nofun⟩
  | ok found =>
    cases found with
    | some k =>
      rw [place_resolved resolved]
      exact .inl ⟨rfl, nofun⟩
    | none =>
      rw [place_absent resolved]
      cases text : s.string? index with
      | none => exact .inl ⟨rfl, nofun⟩
      | some name =>
        have extending : ∃ t, appendName c name s = (.ok (s.elements c).length, t) ∧
          Renamed c (extendedNames s c name) s t ∧ _ := appendName_ok there unshared
        obtain ⟨t, appended, renamed, _⟩ := extending
        exact .inr ⟨name, t, rfl, rfl, appended, renamed⟩

/-- An element that cannot be written leaves everything as it was, or a name that was appended for it. -/
theorem place_put_failed {index v : Value} {f : Failure} (there : c.index < s.vectors.size)
    (unshared : (s.container c).sharing.isShared = false)
    (failed : (place c index >>= fun k => put c k v >>= fun _ => pure (.vector c) : StoreM Value) s =
      (.error f, t)) :
    (Grown s t ∧ ∀ name, s.string? index = some name → resolveIndex s c index true ≠ .ok none) ∨
      ∃ name, s.string? index = some name ∧ resolveIndex s c index true = .ok none ∧
        Renamed c (extendedNames s c name) s t := by
  have writing (k : Nat) {u : Store}
      (ended : (put c k v >>= fun _ => pure (.vector c) : StoreM Value) u = (.error f, t)) : Grown u t := by
    have reached := failsWithin_last (failsWithin_put c k v) (Value.vector c) u f (congrArg Prod.fst ended)
    rwa [ended] at reached
  rw [seq_apply] at failed
  rcases place_cases there unshared index with ⟨same, settled⟩ | ⟨name, u, text, absent, placed, renamed⟩
  · refine .inl ⟨?_, settled⟩
    rcases placed : place c index s with ⟨e | k, u⟩
    · rw [placed] at failed same
      cases failed
      obtain rfl : t = s := same
      exact Chained.refl t
    · rw [placed] at failed same
      obtain rfl : u = s := same
      exact writing k failed
  · rw [placed] at failed
    have inside : c.index < u.vectors.size := Nat.lt_of_lt_of_le there renamed.size
    exact .inr ⟨name, text, absent, renamed.later inside (writing _ failed)⟩

/-- A replacement of an element of an unshared vector that fails has written a name at most. -/
theorem setElement_failed {f : Failure} (there : c.index < s.vectors.size)
    (given : args.get? "x" 0 = some (.vector c)) (unshared : (s.container c).sharing.isShared = false)
    (failed : setElement args s = (.error f, t)) :
    ((∀ name, ¬ Extends .element args s c name) → Grown s t) ∧
      ∀ name, Extends .element args s c name → Renamed c (extendedNames s c name) s t := by
  rw [setElement_eq, required_then given] at failed
  cases position : args.get? "i" 1 with
  | none =>
    rw [required_absent position] at failed
    cases failed
    refine ⟨fun _ => Chained.refl s, fun name meant => ?_⟩
    obtain ⟨_, found, _⟩ := meant.unknown
    rw [position] at found
    cases found
  | some index =>
    rw [required_then position] at failed
    cases value : args.get? "value" 2 with
    | none =>
      rw [required_absent value] at failed
      cases failed
      refine ⟨fun _ => Chained.refl s, fun name meant => ?_⟩
      have valued := meant.valued
      rw [value] at valued
      cases valued
    | some v =>
      rw [required_then value, seq_apply, replacementTarget_unshared unshared] at failed
      rcases place_put_failed there unshared failed with ⟨grown, settled⟩ | ⟨name, text, absent, renamed⟩
      · refine ⟨fun _ => grown, fun name meant => ?_⟩
        obtain ⟨_, found, text, absent⟩ := meant.unknown
        rw [position] at found
        cases found
        exact absurd absent (settled name text)
      · have first : Extends .element args s c name :=
          ⟨rfl, there, given, unshared, by rw [value]; rfl, ⟨index, position, text, absent⟩⟩
        refine ⟨fun never => absurd first (never name), fun other meant => ?_⟩
        obtain ⟨_, found, same, _⟩ := meant.unknown
        rw [position] at found
        cases found
        rw [text] at same
        cases same
        exact renamed

/-- If a computation on a vector fails that another one picked, the second one has failed. -/
theorem picked_failed {pick : StoreM VectorId} {rest : VectorId → StoreM Value} {f : Failure}
    (picked : pick s = (.ok c, s)) (writing : FailsWithin R (rest c))
    (failed : (pick >>= rest : StoreM Value) s = (.error f, t)) : R s t := by
  rw [seq_apply, picked] at failed
  have reached := writing s f (congrArg Prod.fst failed)
  dsimp only at failed
  rwa [failed] at reached

/-- A replacement of an attribute of an unshared vector that fails has written nothing. -/
theorem setAttribute_failed {f : Failure} (given : args.get? "x" 0 = some (.vector c))
    (unshared : (s.container c).sharing.isShared = false)
    (failed : setAttribute args s = (.error f, t)) : Grown s t := by
  unfold setAttribute at failed
  rw [required_then given] at failed
  refine picked_failed (attributeTarget_unshared unshared) ?_ failed
  exact failsWithin_read fun _ => failsWithin_seq (moves_except _) fun _ =>
    failsWithin_last (failsWithin_replaceAttribute _ _ _) _

theorem setClassOf_failed {f : Failure} (given : args.get? "x" 0 = some (.vector c))
    (unshared : (s.container c).sharing.isShared = false)
    (failed : setClassOf args s = (.error f, t)) : Grown s t := by
  unfold setClassOf at failed
  rw [required_then given] at failed
  refine picked_failed (attributeTarget_unshared unshared) ?_ failed
  exact failsWithin_last (failsWithin_replaceAttribute _ _ _) _

/-- What a replacement that fails has written: at most a name that it appended to its target. -/
theorem replaceIn_failed {f : Failure} (failed : a.replaceIn args s = (.error f, t)) :
    (∀ c, (args.get? "x" 0 = some (.vector c) → (s.container c).sharing.isShared = true ∨
      ∀ name, ¬ Extends a args s c name) → Sparing c s t) ∧
    ∀ c name, Extends a args s c name → Renamed c (extendedNames s c name) s t := by
  refine ⟨fun c spares there => ?_, fun c name extending => ?_⟩
  · cases given : args.get? "x" 0 with
    | none =>
      rw [a.replaceIn_missing given] at failed
      cases failed
      exact Chained.refl (R := Sparing c) s there
    | some target =>
      have replacing := replacing_replaceIn a given s
      rw [failed] at replacing
      by_cases other : target = .vector c → (s.container c).sharing.isShared = true
      · exact replacing.spares c other there
      · obtain ⟨rfl, unshared⟩ := Classical.not_imp.mp other
        have unshared := Bool.eq_false_iff.mpr unshared
        have never := (spares given).resolve_left (by rw [unshared]; exact Bool.false_ne_true)
        cases a with
        | element => exact ((setElement_failed there given unshared failed).1 never).1 c there
        | attributeOf => exact (setAttribute_failed given unshared failed).1 c there
        | classOf => exact (setClassOf_failed given unshared failed).1 c there
  · obtain rfl := extending.element
    exact (setElement_failed extending.there extending.target extending.unshared failed).2 name extending

end Builtins

/-- One attempt to call a replacement function: the session before its arguments are evaluated and the one
after, the function and the arguments unless that failed, and whether the attempt failed. -/
structure Attempt where
  start : Session
  ready : Session
  call? : Option (Value × Arguments)
  failed : Bool

namespace Attempt

/-- The attempt calls the standard replacement function of an accessor. -/
def Calls (r : Attempt) (a : Accessor) (args : Arguments) : Prop :=
  ∃ name id b, r.call? = some (.builtin name id, args) ∧ r.ready.builtins.functions[id]? = some b ∧
    b.operation = .strict a.operation

/-- The evaluation of the arguments changes nothing, and the function is the standard one of an accessor. -/
def Undisturbed (r : Attempt) : Prop :=
  r.start.Quiet r.ready ∧ ∀ call, r.call? = some call → ∃ a, r.Calls a call.2

/-- The attempt appends a name to a vector. -/
def Extends (r : Attempt) (c : VectorId) (name : Name) : Prop :=
  ∃ a args, r.Calls a args ∧ Builtins.Extends a args r.ready.store c name

/-- The attempt leaves a container as it is: it is not the target of the call, or it is shared, or the call
fails and appends no name. -/
def Spares (r : Attempt) (c : VectorId) : Prop :=
  ∀ call, r.call? = some call → call.2.get? "x" 0 = some (.vector c) →
    (r.ready.store.container c).sharing.isShared = true ∨
      r.failed = true ∧ ∀ name, ¬ r.Extends c name

end Attempt

section Attempts
variable (ev : Evaluator) (env : EnvId) (caller : RecordId) (outer : Bool)

/-- The attempts that an assignment makes, up to the first that fails. -/
def attempts : Expr → Value → Session → List Attempt
  | .call _ f (⟨_, first⟩ :: extra), v, s =>
    match f.symbol? with
    | none => []
    | some accessor =>
      match prepareAttempt ev env caller outer accessor first extra v s with
      | (.error _, ready) => [⟨s, ready, none, true⟩]
      | (.ok (setter, call, args), ready) =>
        match callReplacement ev env caller setter call args ready with
        | (.error _, _) => [⟨s, ready, some (setter, args), true⟩]
        | (.ok updated, t) => ⟨s, ready, some (setter, args), false⟩ :: attempts first updated t
  | _, _, _ => []

variable {ev env caller outer} in
theorem attempts_failed (id : NodeId) {f : Expr} {accessor : Name} (known : f.symbol? = some accessor)
    (name : Option Name) {first : Expr} {extra : List Arg} {v setter : Value} {call : Expr}
    {args : Arguments} {u : Unwind} {s ready t : Session}
    (prepared : prepareAttempt ev env caller outer accessor first extra v s =
      (.ok (setter, call, args), ready))
    (called : callReplacement ev env caller setter call args ready = (.error u, t)) :
    attempts ev env caller outer (.call id f (⟨name, first⟩ :: extra)) v s =
      [⟨s, ready, some (setter, args), true⟩] := by
  rw [attempts, known]
  simp only [prepared, called]

end Attempts

open Builtins

section Calls

variable {ev : Evaluator} {env : EnvId} {caller : RecordId} {a : Accessor} {args : Arguments} {setter : Value}
  {call : Expr} {start ready t : Session}

theorem Accessor.operation_injective {a b : Accessor} (same : a.operation = b.operation) : a = b := by
  cases a <;> cases b <;> first | rfl | cases same

theorem Attempt.Calls.unique {r : Attempt} {b : Accessor} {args' : Arguments} (first : r.Calls a args)
    (second : r.Calls b args') : a = b ∧ args = args' := by
  obtain ⟨_, _, f, call, found, operation⟩ := first
  obtain ⟨_, _, g, call', found', operation'⟩ := second
  rw [call] at call'
  cases call'
  rw [found] at found'
  cases found'
  rw [operation] at operation'
  injection operation' with same
  exact ⟨Accessor.operation_injective same, rfl⟩

/-- A call that succeeded changed no binding, and its target at most. -/
theorem call_succeeded {updated : Value}
    (calls : (⟨start, ready, some (setter, args), false⟩ : Attempt).Calls a args)
    (called : callReplacement ev env caller setter call args ready = (.ok updated, t)) :
    t.heap = ready.heap ∧
      ∀ c, (⟨start, ready, some (setter, args), false⟩ : Attempt).Spares c →
        Store.Sparing c ready.store t.store := by
  obtain ⟨name, id, b, given, found, operation⟩ := calls
  cases given
  obtain ⟨heap, spares, _⟩ := callReplacement_effect found operation called
  refine ⟨heap, fun c spared => spares c fun target => ?_⟩
  rcases spared _ rfl target with shared | ⟨failed, _⟩
  · exact shared
  · cases failed

/-- A call that failed changed no binding, and at most the names of its target. -/
theorem call_failed {u : Unwind}
    (calls : (⟨start, ready, some (setter, args), true⟩ : Attempt).Calls a args)
    (called : callReplacement ev env caller setter call args ready = (.error u, t)) :
    t.heap = ready.heap ∧
      (∀ c, (⟨start, ready, some (setter, args), true⟩ : Attempt).Spares c →
        Store.Sparing c ready.store t.store) ∧
      ∀ c name, (⟨start, ready, some (setter, args), true⟩ : Attempt).Extends c name →
        Renamed c (extendedNames ready.store c name) ready.store t.store := by
  have known := calls
  obtain ⟨name, id, b, given, found, operation⟩ := calls
  cases given
  have effect := callReplacement_storing ev env caller found operation name call args
  rw [called] at effect
  obtain ⟨⟨records, rfl⟩, answers⟩ := effect
  rcases replaced : a.replaceIn args ready.store with ⟨f | updated, after⟩
  · obtain ⟨spares, extends'⟩ := replaceIn_failed replaced
    refine ⟨rfl, fun c spared => ?_, fun c name extending => ?_⟩
    · refine spares c fun target => ?_
      rcases spared _ rfl target with shared | ⟨_, never⟩
      · exact .inl shared
      · exact .inr fun name extending => never name ⟨a, args, known, extending⟩
    · obtain ⟨_, _, also, extending⟩ := extending
      obtain ⟨rfl, rfl⟩ := known.unique also
      exact extends' c name extending
  · rw [replaced] at answers
    cases (answers updated).mpr rfl

end Calls

/-- What an assignment that fails leaves, by the attempts it made. -/
structure BrokenOff (rs : List Attempt) (s t : Session) : Prop where
  bindings : ∀ frame name, s.heap.contains frame → t.bound? frame name = s.bound? frame name
  spared : ∀ c, (∀ r ∈ rs, r.Spares c) → Store.Sparing c s.store t.store
  extended : ∀ r ∈ rs, r.failed = true → ∀ c name, r.Extends c name →
    Renamed c (extendedNames r.ready.store c name) r.ready.store t.store

namespace BrokenOff

variable {ev : Evaluator} {env : EnvId} {caller : RecordId} {outer : Bool} {s t : Session}

theorem quiet (quiet : s.Quiet t) : BrokenOff [] s t :=
  ⟨quiet.bindings, fun c _ => quiet.containers c, fun _ member => absurd member List.not_mem_nil⟩

theorem bound_of_quiet {ready : Session} (quiet : s.Quiet ready) (heap : t.heap = ready.heap)
    {frame : EnvId} (name : Name) (alive : s.heap.contains frame) :
    t.bound? frame name = s.bound? frame name := by
  rw [← quiet.bindings frame name alive]
  unfold Session.bound?
  rw [heap]

theorem later {rs : List Attempt} {u : Session} (rest : BrokenOff rs t u) (still : s.Quiet t) :
    BrokenOff rs s u where
  bindings frame name alive := by
    have kept := still.bindings frame name alive
    exact (rest.bindings frame name (Session.contains_of_bound kept alive)).trans kept
  spared c spares := Store.Chained.trans (still.containers c) (rest.spared c spares)
  extended := rest.extended

/-- An attempt whose call succeeded, and what the rest of the assignment comes to. -/
theorem cons {r : Attempt} {rs : List Attempt} {u : Session} (undisturbed : r.start.Quiet r.ready)
    (succeeded : r.failed = false) (heap : t.heap = r.ready.heap)
    (spares : ∀ c, r.Spares c → Store.Sparing c r.ready.store t.store) (rest : BrokenOff rs t u) :
    BrokenOff (r :: rs) r.start u where
  bindings frame name alive := by
    have kept := bound_of_quiet undisturbed heap name alive
    exact (rest.bindings frame name (Session.contains_of_bound kept alive)).trans kept
  spared c spared := by
    have first := spares c (spared r List.mem_cons_self)
    have later := rest.spared c fun r member => spared r (List.mem_cons_of_mem _ member)
    exact Store.Chained.trans (undisturbed.containers c) (Store.Chained.trans first later)
  extended q member failed := by
    rcases List.mem_cons.mp member with rfl | below
    · rw [succeeded] at failed
      cases failed
    · exact rest.extended q below failed

/-- Binding a variable either succeeds or does nothing. -/
theorem assignVariable {x : Name} {v : Value} {u : Unwind}
    (failed : assignVariable x v env outer s = (.error u, t)) : BrokenOff [] s t := by
  rcases Session.assignVariable_cases x v env outer s with ⟨f, ended⟩ | ⟨store, owned, bound⟩
  · rw [ended] at failed
    cases failed
    exact quiet (Session.quiet_of_same rfl rfl)
  · rw [bound] at failed
    have unbound : t = { s with store } := by
      split at failed
      · rw [updateHeap_apply] at failed
        split at failed
        · cases failed
        · cases failed
          rfl
      · rw [define_apply] at failed
        split at failed
        · cases failed
        · cases failed
          rfl
    rw [unbound]
    rcases owned with rfl | rfl
    · exact quiet (Session.quiet_of_same rfl rfl)
    · exact quiet ⟨fun _ _ _ => rfl, fun c => Store.share_moves v s.store⟩

/-- An attempt whose call was not made. -/
theorem unprepared {ready : Session} (still : s.Quiet ready) : BrokenOff [⟨s, ready, none, true⟩] s ready where
  bindings := still.bindings
  spared c _ := still.containers c
  extended r member _ c name extending := by
    obtain rfl := List.mem_singleton.mp member
    obtain ⟨_, _, ⟨_, _, _, none, _⟩, _⟩ := extending
    cases none

/-- An attempt whose call failed. -/
theorem last {setter : Value} {call : Expr} {args : Arguments} {u : Unwind} {ready : Session}
    (undisturbed : (⟨s, ready, some (setter, args), true⟩ : Attempt).Undisturbed)
    (called : callReplacement ev env caller setter call args ready = (.error u, t)) :
    BrokenOff [⟨s, ready, some (setter, args), true⟩] s t := by
  obtain ⟨still, standard⟩ := undisturbed
  obtain ⟨a, calls⟩ := standard _ rfl
  obtain ⟨heap, spares, extended⟩ := call_failed calls called
  refine ⟨fun frame name => bound_of_quiet still heap name, fun c spared => ?_, fun r member _ => ?_⟩
  · exact Store.Chained.trans (still.containers c) (spares c (spared _ List.mem_cons_self))
  · obtain rfl := List.mem_singleton.mp member
    exact extended

/-- A target that takes no attempt. -/
theorem unattempted {target : Expr} {v : Value} {u : Unwind}
    (other : ∀ id f name first extra, target ≠ .call id f (⟨name, first⟩ :: extra))
    (run : CallByNeed.assign ev env caller outer target v s = (.error u, t)) : BrokenOff [] s t := by
  cases target with
  | symbol id x =>
    rw [CallByNeed.assign] at run
    exact assignVariable run
  | call id f args =>
    cases args with
    | nil =>
      rw [CallByNeed.assign] at run
      cases run
      exact quiet (Session.quiet_of_same rfl rfl)
    | cons arg extra =>
      cases arg with
      | mk name first => exact (other id f name first extra rfl).elim
  | _ =>
    have failed : (failAt caller (.invalidArgument "invalid assignment target") : EvalM Unit) s =
        (.error u, t) := run
    cases failed
    exact quiet (Session.quiet_of_same rfl rfl)

theorem assign {target : Expr} {v : Value} {u : Unwind}
    (run : assign ev env caller outer target v s = (.error u, t))
    (undisturbed : ∀ r ∈ attempts ev env caller outer target v s, r.Undisturbed) :
    BrokenOff (attempts ev env caller outer target v s) s t := by
  induction target, v, s using attempts.induct ev env caller outer generalizing t with
  | case1 id f name first extra v s unknown =>
    rw [attempts, unknown]
    rw [CallByNeed.assign, unknown] at run
    cases run
    exact quiet (Session.quiet_of_same rfl rfl)
  | case2 id f name first extra v s accessor known e ready prepared =>
    rw [attempts, known] at undisturbed ⊢
    simp only [prepared] at undisturbed ⊢
    rw [assign_attempt ev env caller outer known, bind_apply, prepared] at run
    cases run
    exact unprepared (undisturbed _ List.mem_cons_self).1
  | case3 id f name first extra v s accessor known setter call args ready prepared e after called =>
    rw [attempts, known] at undisturbed ⊢
    simp only [prepared, called] at undisturbed ⊢
    rw [assign_attempt ev env caller outer known, bind_apply, prepared] at run
    dsimp only at run
    rw [bind_apply, called] at run
    cases run
    exact last (undisturbed _ List.mem_cons_self) called
  | case4 id f name first extra v s accessor known setter call args ready prepared updated between called ih =>
    rw [attempts, known] at undisturbed ⊢
    simp only [prepared, called] at undisturbed ⊢
    rw [assign_attempt ev env caller outer known, bind_apply, prepared] at run
    dsimp only at run
    rw [bind_apply, called] at run
    obtain ⟨still, standard⟩ := undisturbed _ List.mem_cons_self
    obtain ⟨a, calls⟩ := standard _ rfl
    obtain ⟨heap, spares⟩ := call_succeeded calls called
    exact cons still rfl heap spares (ih run fun r member => undisturbed r (List.mem_cons_of_mem _ member))
  | case5 target v s other =>
    have none : attempts ev env caller outer target v s = [] := by
      rw [attempts]
      exact other
    rw [none]
    exact unattempted other run

end BrokenOff

namespace Session

/-- The attempts that the evaluation of an assignment makes. -/
def attempting (depth : Nat) (target value : Expr) (outer : Bool) (env : EnvId) (caller : RecordId)
    (s : Session) : List Attempt :=
  (eval depth value env caller s).1.toOption.elim [] fun v =>
    attempts (eval depth) env caller outer target v (eval depth value env caller s).2

/-- The containers of a session that all attempts leave as they are. -/
def SparedBy (s : Session) (rs : List Attempt) (c : VectorId) : Prop :=
  c.index < s.store.vectors.size ∧ ∀ r ∈ rs, r.Spares c

theorem brokenOff_of_eval {depth : Nat} {id : NodeId} {target value : Expr} {outer : Bool} {env : EnvId}
    {caller : RecordId} {u : Unwind} {s t : Session}
    (run : eval (depth + 1) (.assign id target value outer) env caller s = (.error u, t))
    (still : s.Quiet (eval depth value env caller s).2)
    (undisturbed : ∀ r ∈ attempting depth target value outer env caller s, r.Undisturbed) :
    BrokenOff (attempting depth target value outer env caller s) s t := by
  unfold attempting at undisturbed ⊢
  change (eval depth value env caller >>= _) s = _ at run
  rw [bind_apply] at run
  rcases valued : eval depth value env caller s with ⟨e | v, between⟩
  · rw [valued] at run still
    cases run
    exact BrokenOff.quiet still
  · rw [valued] at run still undisturbed
    dsimp only at run
    rw [bind_apply] at run
    rcases assigned : assign (eval depth) env caller outer target v between with ⟨e | _, after⟩
    · rw [assigned] at run
      cases run
      have rest := BrokenOff.assign assigned undisturbed
      exact rest.later still
    · rw [assigned] at run
      cases run

/-- An assignment that fails, whose expressions change nothing and whose replacement functions are the
standard ones, binds nothing, so every variable reads as the same value. The contents of that value are the
same if and only if those of the containers are that it leads to and that were written to on the way. These
are the unshared targets of the calls that had succeeded, and of the call that failed if it appends a name:
then its target gets that name, and nothing else changes. -/
theorem failed_replacement_effect {depth : Nat} {id : NodeId} {target value : Expr} {outer : Bool}
    {env : EnvId} {caller : RecordId} {u : Unwind} {s t : Session}
    (run : eval (depth + 1) (.assign id target value outer) env caller s = (.error u, t))
    (still : s.Quiet (eval depth value env caller s).2)
    (undisturbed : ∀ r ∈ attempting depth target value outer env caller s, r.Undisturbed) :
    let rs := attempting depth target value outer env caller s
    (∀ r ∈ rs, r.failed = true → ∀ c name, r.Extends c name →
      Renamed c (extendedNames r.ready.store c name) r.ready.store t.store) ∧
    ∀ frame name, s.heap.contains frame → t.bound? frame name = s.bound? frame name ∧
      ∀ w, s.reading? frame name = some w → t.reading? frame name = some w ∧
        (s.store.SameContents w t.store w ↔ ∀ c, s.store.Meets (s.SparedBy rs) w c →
          s.store.SameContents (.vector c) t.store (.vector c)) := by
  intro rs
  have broken := brokenOff_of_eval run still undisturbed
  have promises : Disciplined s.ledger t.ledger := by
    have kept := keeps_eval (R := Disciplined) (depth + 1) (.assign id target value outer) env caller s
    rw [run] at kept
    exact kept
  refine ⟨broken.extended, fun frame name alive => ?_⟩
  have bound := broken.bindings frame name alive
  refine ⟨bound, fun w reads => ⟨reading_kept bound promises reads, ?_⟩⟩
  exact Store.sameContents_iff_meets (fun c spared => (broken.spared c spared.2 spared.1).2) w

/-- `x[["k"]]`, with the constant that `aliased` holds. -/
def newElementOfX : Expr :=
  .call ⟨2⟩ (.symbol ⟨3⟩ "[[") [⟨none, .symbol ⟨0⟩ "x"⟩, ⟨none, .constant ⟨1⟩ (.vector ⟨11⟩)⟩]

/-- What comes before the call of `[[<-` in the assignment of `y` to `newElementOfX`. -/
def newElementReady : Except Unwind (Value × Expr × Arguments) × Session :=
  prepareAttempt (eval 3) global ⟨0⟩ false "[[" (.symbol ⟨0⟩ "x") [⟨none, .constant ⟨1⟩ (.vector ⟨11⟩)⟩]
    (.vector ⟨10⟩) aliased

/-- The one attempt that this assignment makes. -/
def newElementAttempt : Attempt :=
  ⟨aliased, newElementReady.2, some (.builtin "[[<-" 3, ⟨[none, none, some "value"],
    [.vector ⟨10⟩, .vector ⟨11⟩, .vector ⟨10⟩]⟩), true⟩

set_option maxRecDepth 10000 in
theorem newElement_attempting :
    attempting 3 newElementOfX (.symbol ⟨4⟩ "y") false global ⟨0⟩ aliased = [newElementAttempt] := by
  let call : Expr := .call ⟨1⟩ (.symbol ⟨0⟩ "[[<-") []
  let args : Arguments := ⟨[none, none, some "value"], [.vector ⟨10⟩, .vector ⟨11⟩, .vector ⟨10⟩]⟩
  have valued : eval 3 (.symbol ⟨4⟩ "y") global ⟨0⟩ aliased = (.ok (.vector ⟨10⟩), aliased) := rfl
  have prepared : newElementReady = (.ok (.builtin "[[<-" 3, call, args), newElementReady.2) := rfl
  rcases called : callReplacement (eval 3) global ⟨0⟩ (.builtin "[[<-" 3) call args newElementReady.2 with
    ⟨e | updated, t⟩
  · unfold attempting
    rw [valued]
    exact attempts_failed ⟨2⟩ (f := .symbol ⟨3⟩ "[[") rfl none prepared called
  · have failed : (callReplacement (eval 3) global ⟨0⟩ (.builtin "[[<-" 3) call args
        newElementReady.2).1.isOk = false := by decide +kernel
    rw [called] at failed
    cases failed

set_option maxRecDepth 10000 in
/-- A replacement that fails because too many elements are given has appended the name to the vector, which
the other variable that is bound to it shows as well. -/
theorem failed_replacement_leaves_name :
    let t := (eval 4 (.assign ⟨5⟩ newElementOfX (.symbol ⟨4⟩ "y") false) global ⟨0⟩ aliased).2
    aliased.Reachable ∧
      (eval 4 (.assign ⟨5⟩ newElementOfX (.symbol ⟨4⟩ "y") false) global ⟨0⟩ aliased).1.isOk = false ∧
      t.reading? global "x" = some (.vector ⟨10⟩) ∧
      ¬ aliased.store.SameContents (.vector ⟨10⟩) t.store (.vector ⟨10⟩) := by
  intro t
  have fails : (eval 4 (.assign ⟨5⟩ newElementOfX (.symbol ⟨4⟩ "y") false) global ⟨0⟩
      aliased).1.isOk = false := by decide +kernel
  rcases run : eval 4 (.assign ⟨5⟩ newElementOfX (.symbol ⟨4⟩ "y") false) global ⟨0⟩ aliased with
    ⟨u | v, after⟩
  · have calls : newElementAttempt.Calls .element ⟨[none, none, some "value"],
        [.vector ⟨10⟩, .vector ⟨11⟩, .vector ⟨10⟩]⟩ := ⟨_, _, _, rfl, rfl, rfl⟩
    have undisturbed : ∀ r ∈ attempting 3 newElementOfX (.symbol ⟨4⟩ "y") false global ⟨0⟩ aliased,
        r.Undisturbed := by
      rw [newElement_attempting]
      intro r member
      obtain rfl := List.mem_singleton.mp member
      exact ⟨quiet_of_same rfl rfl, fun call given => by cases given; exact ⟨_, calls⟩⟩
    obtain ⟨extended, kept⟩ := failed_replacement_effect run (quiet_of_same rfl rfl) undisturbed
    rw [newElement_attempting] at extended
    have extending : newElementAttempt.Extends ⟨10⟩ "k" :=
      ⟨_, _, calls, ⟨rfl, by decide +kernel, rfl, rfl, rfl, ⟨_, rfl, rfl, rfl⟩⟩⟩
    have renamed := extended _ List.mem_cons_self rfl _ _ extending
    obtain ⟨m, _, _, _, added⟩ := renamed.fresh
    have same : t = after := congrArg Prod.snd run
    rw [same]
    have bare : (newElementAttempt.ready.store.container ⟨10⟩).attributes = {} := rfl
    have before : (aliased.store.container ⟨10⟩).attributes = {} := rfl
    refine ⟨⟨{}, ?_⟩, fails, ((kept global "x" rfl).2 _ rfl).1, Store.not_sameContents_self ?_⟩
    · exact (((Relation.ReflTransGen.single (.makeVector _ _)).tail (.makeVector _ _)).tail
        (.defineIn _ _ _ _)).tail (.defineIn _ _ _ _)
    · rw [added, bare, before]
      exact Nat.one_ne_zero
  · rw [run] at fails
    cases fails

end Session
end CallByNeed
