import CallByNeed.Proofs.Law
import CallByNeed.Proofs.Running

/-!
Every evaluation has every law that the arguments of closure calls have: dispatch from inside generics,
special builtins, and the step of the evaluator. The main statement is `CallLaw.evaluates_eval`, by
induction on the depth of nesting.
-/
namespace CallByNeed

/-- A law that also holds of the arguments of a closure call, of the two kinds of dispatch that a call site
remembers, and of the one that goes on from another. -/
structure CallLaw extends Law where
  arguments {depth : Nat} (h : toRules.Evaluates (eval depth)) (f : Function) (call : Expr)
    (args : List Arg) (env : EnvId) (caller : RecordId) :
    Holds (do
      ensureLazy caller
      closureArgs (eval depth) f call args env caller)
  useMethod {depth : Nat} (h : toRules.Evaluates (eval depth)) (generic : Name) (object : Option Value)
    (c : SpecialCall) : Holds (useMethod (eval depth) generic object c)
  nextMethod {depth : Nat} (h : toRules.Evaluates (eval depth)) (c : SpecialCall) :
    Holds (nextMethod (eval depth) c)
  standardGeneric {depth : Nat} (h : toRules.Evaluates (eval depth)) (name : Name) (c : SpecialCall) :
    Holds (standardGeneric (eval depth) name c)

/-! What dispatch remembers at a call site. -/

theorem administrative_consultCache (search : MethodSearch) (chain : VectorId) (site : NodeId) :
    Administrative (consultCache search chain site) where
  twin s t twin := by
    have same := twin.cache site
    have kept := twin.setCache site
    obtain ⟨early, sites, forced, rfl, caches⟩ := twin
    unfold consultCache
    dsimp only
    rw [same]
    exact ⟨rfl, kept _⟩

theorem administrative_remember (generic : Name) (chain : VectorId) (stamp : Stamp)
    (m : CachedMethod) (site : NodeId) :
    Administrative fun s : Session => ((), s.setSite site fun known =>
      { known with cache := known.cache.insert generic [s.classView chain] stamp m }) where
  twin s t twin := by
    have same := twin.cache site
    obtain ⟨early, sites, forced, rfl, caches⟩ := twin
    refine ⟨rfl, early, _, forced, rfl, fun other => ?_⟩
    dsimp only
    rw [Session.site_setSite, Session.site_setSite]
    split
    · dsimp only
      rw [same]
      rfl
    · exact caches other

/-- The outcome of a dispatch over formal classes, and the table and cache it leaves. -/
theorem administrative_selectFormal (generic : Generic) (chains : List VectorId) (site : NodeId) :
    Administrative fun s : Session =>
      let table := s.tableAt generic.table
      let (result, table', cache) := formalDispatch s.resolver s.classes generic.name
        (chains.map s.classView) table (s.site site).cache
      let slow := table'.slowPaths - table.slowPaths
      (result,
        { (s.setTable generic.table table').setSite site ({ · with cache := cache }) with
          stats := { s.stats with formalSlowPaths := s.stats.formalSlowPaths + slow } }) where
  twin s t twin := by
    have same := twin.cache site
    have kept := twin.setCache site
    obtain ⟨early, sites, forced, rfl, caches⟩ := twin
    dsimp only
    rw [same]
    refine ⟨rfl, early, _, forced, rfl, fun other => ?_⟩
    exact (kept _).cache other

namespace Law

variable (L : Law) {depth : Nat} (h : L.Evaluates (eval depth))
include h

/-! Dispatch from inside a generic. -/

theorem holds_forceAll (caller : RecordId) (values : List Value) :
    L.Holds (forceAll (eval depth) caller values) := by
  induction values with
  | nil => exact L.value _
  | cons v rest ih =>
    exact L.andThen (L.holds_forceValue h _ _) fun _ => L.andThen ih fun _ => L.value _

theorem holds_callDefaultMethod (method : Value) (call : Expr) (supplied : Supplied) (env : EnvId)
    (caller : RecordId) : L.Holds (callDefaultMethod (eval depth) method call supplied env caller) := by
  unfold callDefaultMethod
  split
  · exact L.andThen (L.holds_findBuiltin _ _) fun _ => L.andThen (L.holds_failIf _ _) fun _ =>
      L.andThen (L.holds_forceAll h _ _) fun _ => L.holds_invokeStrict h _ _ _ _ _ _ _
  · exact L.reading (fun _ _ _ _ => rfl) fun _ => L.failure _

/-- Only a closure is called under a record that tells the state of the dispatch. -/
theorem holds_callMethod_of {method : Value} (call : Expr) (supplied : Supplied) (parent : RecordId)
    {context : DispatchContext}
    (grounded : ∀ id f definedIn, method = .closure id f definedIn → L.Grounded method context) :
    L.Holds (callMethod (eval depth) method call supplied parent context) := by
  unfold callMethod
  split
  · refine L.holds_invokeClosure h _ _ _ _ _ _ fun d same => ?_
    cases same
    exact grounded _ _ _ rfl
  · exact L.holds_callDefaultMethod h _ _ _ _ _

theorem holds_callMethod {method : Value} (call : Expr) (supplied : Supplied) (parent : RecordId)
    {context : DispatchContext} (grounded : L.Grounded method context) :
    L.Holds (callMethod (eval depth) method call supplied parent context) :=
  L.holds_callMethod_of h call supplied parent fun _ _ _ _ => grounded

theorem holds_dispatchObject (f : Function) (env : EnvId) (frame : RecordId) :
    L.Holds (dispatchObject (eval depth) f env frame) := by
  unfold dispatchObject
  split
  · exact L.value _
  · split
    · refine L.andThen (L.holds_readHeap _) fun found => ?_
      split
      · refine L.reading (fun _ _ _ _ => rfl) fun s => ?_
        split
        · exact L.holds_forceValue h _ _
        · exact L.value _
      · exact L.value _
    · exact L.holds_readVariable h _ _ _

theorem holds_selectMethod (remembering : L.Remembering) (search : MethodSearch) (chain : VectorId)
    (c : SpecialCall) : L.Holds (selectMethod (eval depth) search chain c) := by
  rw [selectMethod_eq]
  refine L.andThen (remembering (administrative_consultCache _ _ _)) fun known => ?_
  cases known.2 with
  | some m => exact L.value _
  | none =>
    refine L.andThen (L.holds_administer {}) fun _ =>
      L.andThen (L.holds_findMethod h _ _ _) fun searched => ?_
    split
    · exact L.failure _
    · exact L.andThen (remembering (administrative_remember _ _ _ _ _)) fun _ => L.value _

theorem holds_dispatchOn (remembering : L.Remembering) (free : ∀ f d, L.Grounded f d) (generic : Name)
    (frame : Record) (env definedIn : EnvId) (c : SpecialCall) (object : Value) :
    L.Holds (dispatchOn (eval depth) generic frame env definedIn c object) :=
  L.reading (fun _ _ _ _ => rfl) fun _ => L.andThen (L.holds_selectMethod h remembering _ _ _) fun _ =>
    L.andThen (L.holds_callMethod h _ _ _ (free _ _)) fun _ => L.leaving _ _

/-- A dispatch from inside a generic, if those on any object have the property. -/
theorem holds_useMethod_of {generic : Name} {c : SpecialCall}
    (dispatching : ∀ frame env definedIn object,
      L.Holds (dispatchOn (eval depth) generic frame env definedIn c object)) (object : Option Value) :
    L.Holds (useMethod (eval depth) generic object c) := by
  refine L.reading (fun _ _ _ _ => rfl) fun s => ?_
  split
  · exact L.failure _
  · rename_i frame env f definedIn _
    dsimp only
    split
    · exact L.andThen (L.value _) (dispatching frame env definedIn)
    · exact L.andThen (L.holds_dispatchObject h _ _ _) (dispatching frame env definedIn)

theorem holds_useMethod (remembering : L.Remembering) (free : ∀ f d, L.Grounded f d) (generic : Name)
    (object : Option Value) (c : SpecialCall) : L.Holds (useMethod (eval depth) generic object c) :=
  L.holds_useMethod_of h (fun frame env definedIn =>
    L.holds_dispatchOn h remembering free generic frame env definedIn c) object

omit h in
theorem holds_extraPromise (c : SpecialCall) (e : Expr) : L.Holds (extraPromise c e) := by
  unfold extraPromise
  split
  · exact L.holds_allocate (Store.Evolution.evaluatedPromise _ _ _)
  · exact L.holds_allocate (Store.Evolution.lazyPromise _ _ _ _)

omit h in
theorem holds_addExtraArgs (c : SpecialCall) (skipped : Nat) (supplied : Supplied)
    (args : List Arg) : L.Holds (addExtraArgs c skipped supplied args) := by
  induction args generalizing skipped supplied with
  | nil => exact L.value _
  | cons a rest ih =>
    obtain ⟨name, e⟩ := a
    rw [addExtraArgs]
    split
    · exact ih _ _
    · split
      · exact ih _ _
      · split
        · exact ih _ _
        · exact L.andThen (L.holds_extraPromise _ _) fun _ => ih _ _

theorem holds_nextMethod (free : ∀ f d, L.Grounded f d) (c : SpecialCall) :
    L.Holds (nextMethod (eval depth) c) := by
  refine L.reading (fun _ _ _ _ => rfl) fun s => ?_
  dsimp only
  split
  · refine L.andThen (L.holds_findMethod h _ _ _) fun found => ?_
    split
    · exact L.failure _
    · exact L.andThen (L.holds_addExtraArgs _ _ _ _) fun _ => L.holds_callMethod h _ _ _ (free _ _)
  · exact L.failure _

theorem holds_signatureValue (env : EnvId) (caller : RecordId) (formal : Name) :
    L.Holds (signatureValue (eval depth) env caller formal) := by
  refine L.andThen (L.holds_readHeap _) fun found => ?_
  split
  · exact L.value _
  · exact L.value _
  · refine L.reading (fun _ _ _ _ => rfl) fun s => ?_
    split
    · exact L.value _
    · exact L.force h _ _
  · exact L.value _

theorem holds_signatureChains (env : EnvId) (caller : RecordId) (signature : List Name) :
    L.Holds (signatureChains (eval depth) env caller signature) := by
  induction signature with
  | nil => exact L.value _
  | cons formal rest ih =>
    exact L.andThen (L.holds_signatureValue h _ _ _) fun _ =>
      L.reading (fun _ _ _ _ => rfl) fun _ => L.andThen ih fun _ => L.value _

omit h in
theorem holds_selectFormal (remembering : L.Remembering) (generic : Generic) (chains : List VectorId)
    (site : NodeId) : L.Holds (selectFormal generic chains site) :=
  remembering (administrative_selectFormal generic chains site)

theorem holds_standardGeneric (remembering : L.Remembering) (name : Name) (c : SpecialCall) :
    L.Holds (standardGeneric (eval depth) name c) := by
  refine L.reading (fun _ _ _ _ => rfl) fun s => ?_
  split
  · exact L.failure _
  · dsimp only
    split
    · refine L.andThen (L.holds_signatureChains h _ _ _) fun chains =>
        L.andThen (L.holds_selectFormal remembering _ _ _) fun result => ?_
      split
      · exact L.holds_invokeClosure h _ _ _ _ _ _ nofun
      · exact L.holds_callDefaultMethod h _ _ _ _ _
      · exact L.holds_callDefaultMethod h _ _ _ _ _
      · exact L.reading (fun _ _ _ _ => rfl) fun _ => L.failure _
    · exact L.failure _

/-! Special builtins. -/

theorem holds_evalArg (c : SpecialCall) (name : Name) (position : Nat) :
    L.Holds (evalArg? (eval depth) c name position) := by
  unfold evalArg?
  split
  · exact L.holds_map _ (h _ _ _)
  · exact L.value _

omit h in
theorem holds_caughtValue (f : Failure) : L.Holds (allocate (caughtValue f)) :=
  L.holds_allocate (Store.moves_bind (Store.moves_vector _) fun _ =>
    Store.moves_map _ (Store.Owning.addVector _))

theorem holds_attempt (c : SpecialCall) : L.Holds (attempt (eval depth) c) := by
  unfold attempt
  split
  · exact L.value _
  · refine L.andThen (L.holds_evalArg h _ _ _) fun flag => L.reading (fun _ _ _ _ => rfl) fun s =>
      L.observing (h _ _ _) (fun r => ?_) ?_
    · split
      · split
        · dsimp only
          split
          · exact L.holds_caughtValue _
          · exact L.andThen (L.holds_administer {}) fun _ => L.holds_caughtValue _
        · exact L.failure _
      · exact L.holds_resume _
    · intro f s fatal
      cases f with
      | condition _ | cannotOptimize | generic _ => simp [Failure.isFatal] at fatal
      | internal _ | interrupted | exhausted => rfl

theorem holds_leave (c : SpecialCall) : L.Holds (leave (eval depth) c) :=
  L.andThen (L.holds_evalArg h _ _ _) fun _ => L.leaving _ _

omit h in
theorem holds_isMissing (c : SpecialCall) : L.Holds (isMissing c) := by
  refine L.reading (fun _ _ _ _ => rfl) fun s => ?_
  split
  · exact L.andThen (L.missingProbe _ _) fun _ => L.holds_vector _
  · exact L.failure _

theorem holds_environment (c : SpecialCall) : L.Holds (environment (eval depth) c) := by
  refine L.andThen (L.holds_evalArg h _ _ _) fun v => ?_
  split
  · exact L.value _
  · exact L.value _
  · exact L.value _
  · exact L.value _

/-! The step of the evaluator. -/

theorem holds_evaluateArgs (env : EnvId) (caller : RecordId) (args : List Arg) :
    L.Holds (evaluateArgs (eval depth) env caller args) := by
  induction args with
  | nil => exact L.value _
  | cons a rest ih =>
    obtain ⟨name, e⟩ := a
    rw [evaluateArgs]
    dsimp only
    split
    · exact L.andThen (L.holds_visibleDots _ _) fun _ => L.andThen (L.holds_forceAll h _ _) fun _ =>
        L.andThen (L.value _) fun _ => L.andThen ih fun _ => L.value _
    · split
      · exact L.andThen (L.value _) fun _ => L.andThen ih fun _ => L.value _
      · exact L.andThen (h _ _ _) fun _ => L.andThen (L.value _) fun _ =>
          L.andThen ih fun _ => L.value _

theorem holds_calledFunction (f : Expr) (env : EnvId) (caller : RecordId) :
    L.Holds (calledFunction (eval depth) f env caller) := by
  unfold calledFunction
  split
  · exact L.holds_lookupFunction h _ _ _
  · refine L.andThen (h _ _ _) fun v => ?_
    split
    · exact L.value _
    · exact L.holds_failAt _ _

theorem holds_evalBlock (env : EnvId) (caller : RecordId) (last : Value) (body : List Expr) :
    L.Holds (evalBlock (eval depth) env caller last body) := by
  induction body generalizing last with
  | nil => exact L.value _
  | cons e rest ih => exact L.andThen (h _ _ _) fun _ => ih _

theorem holds_evalBranch (test yes : Expr) (no : Option Expr) (env : EnvId) (caller : RecordId) :
    L.Holds (evalBranch (eval depth) test yes no env caller) := by
  refine L.andThen (h _ _ _) fun v => L.reading (fun _ _ _ _ => rfl) fun s => ?_
  split
  · exact L.holds_failAt _ _
  · exact h _ _ _
  · split
    · exact h _ _ _
    · exact L.value _

end Law

namespace CallLaw

variable (L : CallLaw) {depth : Nat} (h : L.Evaluates (eval depth))
include h

/-! Special builtins. -/

theorem holds_useMethodBuiltin (c : SpecialCall) : L.Holds (useMethodBuiltin (eval depth) c) := by
  refine L.andThen (L.holds_evalArg h _ _ _) fun generic => ?_
  split
  · exact L.failure _
  · refine L.reading (fun _ _ _ _ => rfl) fun s => ?_
    split
    · exact L.failure _
    · exact L.andThen (L.holds_evalArg h _ _ _) fun _ => L.useMethod h _ _ _

theorem holds_standardGenericBuiltin (c : SpecialCall) :
    L.Holds (standardGenericBuiltin (eval depth) c) := by
  refine L.andThen (L.holds_evalArg h _ _ _) fun generic => ?_
  split
  · exact L.failure _
  · refine L.reading (fun _ _ _ _ => rfl) fun s => ?_
    split
    · exact L.failure _
    · exact L.standardGeneric h _ _

theorem holds_runSpecial (op : SpecialOp) (c : SpecialCall) : L.Holds (runSpecial (eval depth) op c) := by
  cases op with
  | attempt => exact L.holds_attempt h c
  | leave => exact L.holds_leave h c
  | isMissing => exact L.holds_isMissing c
  | currentCall | currentFunction | parentFrame =>
    exact L.andThen (L.holds_ensureLazy _) fun _ =>
      L.reading (fun _ _ _ _ => rfl) fun _ => L.value _
  | environment => exact L.holds_environment h c
  | useMethod => exact L.holds_useMethodBuiltin h c
  | nextMethod => exact L.nextMethod h c
  | standardGeneric => exact L.holds_standardGenericBuiltin h c
  | quote => exact L.value _

/-! The step of the evaluator. -/

theorem holds_callBuiltin (b : Builtin) (call : Expr) (args : List Arg) (env : EnvId)
    (caller : RecordId) : L.Holds (callBuiltin (eval depth) b call args env caller) := by
  unfold callBuiltin
  refine L.holds_when _ (L.holds_ensureLazy caller) fun _ => ?_
  split
  · exact L.holds_attributeTo _ (L.holds_runSpecial h _ _)
  · exact L.andThen (L.holds_evaluateArgs h _ _ _) fun _ => L.holds_invokeStrict h _ _ _ _ _ _ _

theorem holds_evalCall (call f : Expr) (args : List Arg) (env : EnvId) (caller : RecordId) :
    L.Holds (evalCall (eval depth) call f args env caller) := by
  refine L.andThen L.polling fun _ => L.andThen (L.holds_calledFunction h _ _ _) fun function => ?_
  split
  · rw [← bind_assoc]
    exact L.andThen (L.arguments h _ _ _ _ _) fun _ => L.holds_applyClosure h _ _ _ _ _ _ _ nofun
  · exact L.andThen (L.holds_findBuiltin _ _) fun _ => L.holds_callBuiltin h _ _ _ _ _
  · exact L.failure _

theorem evaluates_evalStep : L.Evaluates (evalStep (eval depth)) := by
  intro e env caller
  cases e with
  | constant id v => exact L.value v
  | symbol id name => exact L.holds_readVariable h _ _ _
  | empty id => exact L.value _
  | call id f args => exact L.holds_evalCall h _ _ _ _ _
  | function f => exact L.holds_allocate (Store.Evolution.closure f env)
  | block id body => exact L.holds_evalBlock h _ _ _ _
  | branch id test yes no => exact L.holds_evalBranch h _ _ _ _ _
  | assign id target value outer =>
    exact L.andThen (h _ _ _) fun _ => L.andThen (L.holds_assign h _ _ _ _ _) fun _ => L.value _

omit h in
/-- An evaluation has every law, to whatever depth its steps may nest. -/
theorem evaluates_eval (depth : Nat) : L.Evaluates (eval depth) := by
  induction depth with
  | zero => exact fun _ _ _ => L.failure .exhausted
  | succ depth ih => exact L.evaluates_evalStep ih

/-! Calls that a host makes. -/

omit h in
theorem holds_hostCall (function : Value) : L.Holds (Session.hostCall function) :=
  L.storing (Store.moves_seq (moves_constantNode _) fun _ => moves_callNode _ _)

omit h in
theorem holds_hostApply (function : Value) (names : List (Option Name)) (values : List Value)
    (top : RecordId) : L.Holds (do
      let call ← Session.hostCall function
      applyValues (eval nestingLimit) function call names values Session.global top) :=
  L.andThen (L.holds_hostCall _) fun _ =>
    L.holds_applyValues (L.evaluates_eval nestingLimit) _ _ _ _ _ _

omit h in
theorem holds_hostFrame (closure : Value) (f : Function) (definedIn : EnvId) (supplied : Supplied)
    (top : RecordId) : L.Holds (do
      let call ← Session.hostCall closure
      let slots ← matchSupplied f supplied call
      let (env, record) ← enterFrame closure f definedIn call supplied slots top none
      releasing record (pure env)) :=
  L.andThen (L.holds_hostCall _) fun _ => L.andThen (L.holds_matchSupplied _ _ _) fun _ =>
    L.andThen (L.holds_enterFrame _ _ _ _ _ _ _ nofun) fun _ => L.closing _ (L.value _)

end CallLaw
end CallByNeed
