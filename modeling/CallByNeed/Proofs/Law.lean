import CallByNeed.Proofs.Rules

/-!
Laws of evaluation. A property that has a rule for each way of putting computations together, and that
forcing and the missingness probe have, holds of variables, calls of closures and strict builtins if it
holds of what is nested in them.
-/
namespace CallByNeed

/-- A property of computations that forcing has too. -/
structure SearchLaw extends Rules where
  force {ev : Evaluator} (h : toRules.Evaluates ev) (id : PromiseId) (caller : RecordId) :
    Holds (force ev id caller)
  missingProbe (name : Name) (env : EnvId) : Holds (isMissingArgument name env)

namespace SearchLaw

variable {α β : Type} (L : SearchLaw) {ev : Evaluator} (h : L.Evaluates ev)
include h

/-! Variables. -/

theorem holds_forceValue (v : Value) (caller : RecordId) : L.Holds (forceValue ev v caller) := by
  unfold forceValue
  split
  · exact L.force h _ _
  · exact L.value _

theorem holds_resolveBinding (name : Name) (v : Value) (caller : RecordId) :
    L.Holds (resolveBinding ev name v caller) := by
  unfold resolveBinding
  split
  · exact L.holds_failAt _ _
  · exact L.force h _ _
  · exact L.holds_failAt _ _
  · exact L.value _

theorem holds_readDotIndex (name : Name) (env : EnvId) (caller : RecordId) :
    L.Holds (readDotIndex ev name env caller) := by
  refine L.andThen (L.holds_readHeap _) fun found => ?_
  split
  · refine L.reading (fun _ _ _ _ => rfl) fun s => ?_
    dsimp only
    split
    · exact L.holds_resolveBinding h _ _ _
    · exact L.holds_failAt _ _
  · exact L.holds_failAt _ _

theorem holds_readVariable (name : Name) (env : EnvId) (caller : RecordId) :
    L.Holds (readVariable ev name env caller) := by
  unfold readVariable
  split
  · exact L.holds_failAt _ _
  · split
    · exact L.holds_readDotIndex h _ _ _
    · refine L.andThen (L.holds_readHeap _) fun found => ?_
      split
      · exact L.holds_resolveBinding h _ _ _
      · exact L.holds_failAt _ _

theorem holds_findFunctionAlong (name : Name) (caller : RecordId) (chain : List EnvId) :
    L.Holds (findFunctionAlong ev name caller chain) := by
  induction chain with
  | nil => exact L.value _
  | cons env rest ih =>
    refine L.andThen (L.holds_readHeap _) fun found => ?_
    split
    · exact ih
    · refine L.andThen (L.holds_forceValue h _ _) fun v => ?_
      split
      · exact L.value _
      · exact ih

theorem holds_findFunction (name : Name) (env : EnvId) (caller : RecordId) :
    L.Holds (findFunction ev name env caller) :=
  L.reading (fun _ _ _ _ => rfl) fun _ => L.holds_findFunctionAlong h _ _ _

theorem holds_lookupFunction (name : Name) (env : EnvId) (caller : RecordId) :
    L.Holds (lookupFunction ev name env caller) := by
  refine L.andThen (L.holds_findFunction h _ _ _) fun found => ?_
  split
  · exact L.value _
  · exact L.holds_failAt _ _

omit h in
theorem holds_assignVariable (name : Name) (v : Value) (env : EnvId) (outer : Bool) :
    L.Holds (assignVariable name v env outer) := by
  have bound : L.Holds (if outer then updateHeap fun h => (·.2) <$> h.assignOuter env name v
      else define env name v) := by
    split
    · exact L.outerBinding _ _ _
    · exact L.binding _ _ _
  refine L.andThen (L.holds_readHeap _) fun current => L.reading (fun _ _ _ _ => rfl) fun s => ?_
  dsimp only
  split
  · exact bound
  · exact L.andThen (L.holds_modifyStore (Store.share_moves v)) fun _ => bound

/-! Calls of closures. -/

theorem holds_applyClosure (closure : Value) (f : Function) (definedIn : EnvId) (call : Expr)
    (supplied : Supplied) (slots : List FormalSlot) (caller : RecordId)
    {dispatch : Option DispatchContext} (grounded : ∀ d, dispatch = some d → L.Grounded closure d) :
    L.Holds (applyClosure ev closure f definedIn call supplied slots caller dispatch) := by
  refine L.andThen (L.holds_enterFrame _ _ _ _ _ _ _ grounded) fun frame =>
    L.observing (L.closing _ (h _ _ _)) (fun r => ?_) fun _ _ _ => rfl
  split
  · split
    · exact L.value _
    · exact L.leaving _ _
  · exact L.holds_resume _

theorem holds_invokeClosure (closure : Value) (f : Function) (definedIn : EnvId) (call : Expr)
    (supplied : Supplied) (caller : RecordId) {dispatch : Option DispatchContext}
    (grounded : ∀ d, dispatch = some d → L.Grounded closure d) :
    L.Holds (invokeClosure ev closure f definedIn call supplied caller dispatch) :=
  L.andThen (L.holds_ensureLazy _) fun _ => L.andThen (L.holds_matchSupplied _ _ _) fun _ =>
    L.holds_applyClosure h _ _ _ _ _ _ _ grounded

/-! The search for methods. -/

theorem holds_findMethodFunction (name : Name) (caller : RecordId) (scope : List EnvId) :
    L.Holds (findMethodFunction ev name caller scope) := by
  induction scope with
  | nil => exact L.reading (fun _ _ _ _ => rfl) fun _ => L.value _
  | cons env rest ih =>
    refine L.andThen (L.holds_findFunction h _ _ _) fun found => ?_
    split
    · exact L.value _
    · exact ih

theorem holds_findForClass (search : MethodSearch) (caller : RecordId) (position : Nat)
    (className : Name) : L.Holds (findForClass ev search caller position className) := by
  refine L.andThen (L.holds_findMethodFunction h _ _ _) fun found => ?_
  split
  · exact L.value _
  · split
    · exact L.value _
    · refine L.andThen (L.holds_findMethodFunction h _ _ _) fun found => ?_
      split
      · exact L.value _
      · exact L.value _

theorem holds_findAmong (search : MethodSearch) (caller : RecordId)
    (classes : List (Name × Nat)) : L.Holds (findAmong ev search caller classes) := by
  induction classes with
  | nil => exact L.value _
  | cons entry rest ih =>
    refine L.andThen (L.holds_findForClass h _ _ _ _) fun found => ?_
    split
    · exact L.value _
    · exact ih

theorem holds_findClassMethod (search : MethodSearch) (start : Nat) (caller : RecordId) :
    L.Holds (findClassMethod ev search start caller) := L.holds_findAmong h _ _ _

omit h in
theorem holds_builtinMethod (search : MethodSearch) : L.Holds (builtinMethod search) := by
  refine L.andThen (L.holds_readHeap _) fun found => ?_
  split
  · exact L.value _
  · exact L.value _

theorem holds_defaultMethod (search : MethodSearch) (start : Nat) (caller : RecordId) :
    L.Holds (defaultMethod ev search start caller) := by
  unfold defaultMethod
  dsimp only
  split
  · refine L.andThen (L.holds_findMethodFunction h _ _ _) fun found => ?_
    split
    · exact L.value _
    · exact L.value _
  · exact L.value _

theorem holds_findMethod (search : MethodSearch) (start : Nat) (caller : RecordId) :
    L.Holds (findMethod ev search start caller) := by
  refine L.andThen (L.holds_findClassMethod h _ _ _) fun found => ?_
  split
  · exact L.value _
  · refine L.andThen (L.holds_defaultMethod h _ _ _) fun found => ?_
    split
    · exact L.value _
    · exact L.holds_builtinMethod _

theorem holds_operandMethods (b : Builtin) (env : EnvId) (caller : RecordId)
    (values : List Value) : L.Holds (operandMethods ev b env caller values) := by
  induction values with
  | nil => exact L.value _
  | cons v rest ih =>
    refine L.reading (fun _ _ _ _ => rfl) fun s => ?_
    split
    · refine L.andThen (L.holds_findClassMethod h _ _ _) fun found => L.andThen ih fun others => ?_
      split
      · exact L.value _
      · exact L.value _
    · exact ih

omit h in
theorem holds_chooseMethod (b : Builtin) (call : Expr) (caller : RecordId)
    (found : List OperandMethod) : L.Holds (chooseMethod b call caller found) := by
  unfold chooseMethod
  split
  · exact L.value _
  · exact L.value _
  · split
    · exact L.value _
    · exact L.andThen (L.holds_ensureLazy _) fun _ => L.andThen (L.holds_exprText _) fun _ =>
        L.andThen (L.holds_warn _ _) fun _ => L.value _

/-- Any method may be called. -/
theorem holds_dispatchInternal (free : ∀ f d, L.Grounded f d) (b : Builtin) (call : Expr)
    (names : List (Option Name)) (values : List Value) (env : EnvId) (caller : RecordId) :
    L.Holds (dispatchInternal ev b call names values env caller) := by
  refine L.andThen (L.holds_operandMethods h _ _ _ _) fun found =>
    L.andThen (L.holds_chooseMethod _ _ _ _) fun chosen => ?_
  split
  · split
    · exact L.andThen (L.holds_modifyStore (Store.shareAll_moves values)) fun _ =>
        L.holds_map _ (L.holds_invokeClosure h _ _ _ _ _ _ fun d _ => free _ d)
    · exact L.value _
  · exact L.value _

end SearchLaw

/-- A property of computations that the dispatch of a builtin on its arguments has too. -/
structure Law extends SearchLaw where
  internal {depth : Nat} (h : toRules.Evaluates (eval depth)) (b : Builtin) (call : Expr)
    (names : List (Option Name)) (values : List Value) (env : EnvId) (caller : RecordId) :
    Holds (dispatchInternal (eval depth) b call names values env caller)

/-- A property that looks at no dispatch. -/
def SearchLaw.law (L : SearchLaw) (free : ∀ f d, L.Grounded f d) : Law where
  toSearchLaw := L
  internal h := L.holds_dispatchInternal h free

namespace Law

variable {α β : Type} (L : Law) {depth : Nat} (h : L.Evaluates (eval depth))
include h

/-! Strict builtins. -/

omit h in
theorem holds_findBuiltin (name : Name) (id : Nat) : L.Holds (findBuiltin name id) := by
  refine L.reading (fun _ _ _ _ => rfl) fun s => ?_
  split
  · exact L.value _
  · exact L.failure _

omit h in
theorem holds_write (args : Arguments) : L.Holds (write args) :=
  L.reading (fun _ _ _ _ => rfl) fun _ => L.andThen (L.holds_administer {}) fun _ => L.value _

omit h in
theorem holds_stop (c : StrictCall) : L.Holds (stop c) :=
  L.reading (fun _ _ _ _ => rfl) fun _ => L.failure _

omit h in
theorem holds_warnBuiltin (c : StrictCall) : L.Holds (warnBuiltin c) :=
  L.reading (fun _ _ _ _ => rfl) fun _ => L.andThen (L.holds_warn _ _) fun _ => L.holds_vector _

omit h in
theorem holds_registerMethod (args : Arguments) : L.Holds (registerMethod args) :=
  L.reading (fun _ _ _ _ => rfl) fun _ => L.andThen (L.holds_liftExcept _) fun _ =>
    L.andThen (L.holds_liftExcept _) fun _ => L.andThen (L.holds_liftExcept _) fun _ =>
      L.andThen (L.holds_failIf _ _) fun _ =>
        L.andThen (L.holds_administer { enters := fun _ => .method _ _ }) fun _ => L.value _

omit h in
theorem holds_defineClass (args : Arguments) : L.Holds (defineClass args) :=
  L.reading (fun _ _ _ _ => rfl) fun _ => L.andThen (L.holds_liftExcept _) fun _ =>
    L.andThen (L.holds_administer {}) fun _ => L.holds_vector _

theorem holds_genericFunction (name : Name) (definition : Option Value) (c : StrictCall) :
    L.Holds (genericFunction (eval depth) name definition c) := by
  unfold genericFunction
  split
  · exact L.value _
  · exact L.reading (fun _ _ _ _ => rfl) fun _ => L.failure _
  · refine L.andThen (L.holds_findFunction h _ _ _) fun found => ?_
    split
    · exact L.failure _
    · exact L.andThen (L.storing (moves_load _)) fun _ => L.andThen (h _ _ _) fun _ => L.value _

/-- The entry of a new generic in the tables of a session. -/
def enterGeneric (name : Name) (f : Function) (default : Option Value) (args : Arguments)
    (s : Session) : Generic × Session :=
  let signature := dispatchFormals s.store f args
  let table : MethodTable := {}
  let table := (default.map (table.define (anyKey signature))).getD table
  let generic : Generic := ⟨name, signature, ⟨s.tables.size⟩⟩
  (generic, { s with tables := s.tables.push table, generics := s.generics.insert name generic })

theorem holds_defineGeneric (name : Name) (definition : Option Value) (c : StrictCall) :
    L.Holds (defineGeneric (eval depth) name definition c) := by
  refine L.andThen (L.holds_genericFunction h _ _ _) fun found => ?_
  split
  · rename_i id f env default
    change L.Holds (do
      let generic ← modifyGet (enterGeneric name f default c.args)
      define Session.global name (.closure id f env)
      pure generic)
    exact L.andThen (L.administering { enters := fun _ => .generic _ _ _ }) fun _ =>
      L.andThen (L.binding _ _ _) fun _ => L.value _
  · exact L.failure _

theorem holds_defineGenericBuiltin (c : StrictCall) : L.Holds (defineGenericBuiltin (eval depth) c) :=
  L.reading (fun _ _ _ _ => rfl) fun _ => L.andThen (L.holds_liftExcept _) fun _ =>
    L.andThen (L.holds_defineGeneric h _ _ _) fun _ => L.holds_vector _

omit h in
theorem holds_enterMethod (name : Name) (classes : List Name) (method : Value) (generic : Generic) :
    L.Holds (enterMethod name classes method generic) :=
  L.andThen (L.holds_failIf _ _) fun _ =>
    L.andThen (L.holds_administer { enters := fun _ => .formal _ _ _ }) fun _ => L.holds_vector _

theorem holds_defineMethod (c : StrictCall) : L.Holds (defineMethod (eval depth) c) := by
  rw [defineMethod_eq]
  refine L.reading (fun _ _ _ _ => rfl) fun s => L.andThen (L.holds_liftExcept _) fun _ =>
    L.andThen (L.holds_liftExcept _) fun _ => L.andThen (L.holds_liftExcept _) fun _ =>
      L.andThen (L.holds_failIf _ _) fun _ => ?_
  dsimp only
  split
  · exact L.andThen (L.value _) fun _ => L.holds_enterMethod _ _ _ _
  · exact L.andThen (L.holds_defineGeneric h _ _ _) fun _ => L.holds_enterMethod _ _ _ _

omit h in
theorem holds_numeric (f : Store → Arguments → Except Failure Elements) (args : Arguments) :
    L.Holds (numeric f args) :=
  L.reading (fun _ _ _ _ => rfl) fun _ => L.andThen (L.holds_liftExcept _) fun _ => L.holds_vector _

omit h in
theorem holds_runHost (op : HostOp) (args : Arguments) : L.Holds (runHost op args) := by
  unfold runHost
  split
  · refine L.andThen L.interrupting fun _ => ?_
    split
    · exact L.holds_vector _
    · exact L.value _
  · exact L.reading (fun _ _ _ _ => rfl) fun _ => L.andThen (L.holds_liftExcept _) fun _ =>
      L.holds_vector _
  · exact L.holds_vector _
  · exact L.failure _

theorem holds_runStrict (op : StrictOp) (c : StrictCall) : L.Holds (runStrict (eval depth) op c) := by
  cases op with
  | combine => exact L.storing (Builtins.moves_combine _)
  | makeList => exact L.storing (Builtins.moves_makeList _)
  | element => exact L.storing (Builtins.moves_element _)
  | setElement => exact L.storing (Builtins.moves_setElement _)
  | length => exact L.storing (Builtins.moves_length _)
  | identical => exact L.storing (Builtins.moves_identical _)
  | isNull => exact L.storing (Builtins.moves_isNull _)
  | getAttribute => exact L.storing (Builtins.moves_getAttribute _)
  | setAttribute => exact L.storing (Builtins.moves_setAttribute _)
  | withAttributes => exact L.storing (Builtins.moves_withAttributes _)
  | classOf =>
    exact L.reading (fun _ _ _ _ => rfl) fun _ => L.storing (Builtins.moves_classOf _ _)
  | oldClass => exact L.storing (Builtins.moves_oldClass _)
  | setClassOf => exact L.storing (Builtins.moves_setClassOf _)
  | unclass => exact L.storing (Builtins.moves_unclass Builtins.moves_classless _)
  | inherits =>
    exact L.reading (fun _ _ _ _ => rfl) fun _ => L.storing (Builtins.moves_inherits _ _)
  | arithmetic op => exact L.holds_numeric _ _
  | compare op => exact L.holds_numeric _ _
  | negate => exact L.holds_numeric _ _
  | summary op => exact L.holds_numeric _ _
  | absolute => exact L.holds_numeric _ _
  | write => exact L.holds_write _
  | stop => exact L.holds_stop _
  | warn => exact L.holds_warnBuiltin _
  | identity => exact L.storing (Builtins.moves_identity _)
  | registerMethod => exact L.holds_registerMethod _
  | defineClass => exact L.holds_defineClass _
  | defineGeneric => exact L.holds_defineGenericBuiltin h _
  | defineMethod => exact L.holds_defineMethod h _
  | newObject =>
    exact L.reading (fun _ _ _ _ => rfl) fun _ => L.storing (Builtins.moves_newObject _ _)
  | host op => exact L.holds_runHost _ _

omit h in
theorem holds_attributeTo (call : Expr) {m : EvalM α} (holds : L.Holds m) :
    L.Holds (attributeTo call m) := by
  refine L.observing holds (fun r => ?_) ?_
  · split
    · split
      · exact L.failure _
      · exact L.andThen (L.holds_exprText _) fun _ => L.failure _
    · exact L.holds_resume _
  · intro f s fatal
    cases f with
    | condition _ | cannotOptimize | generic _ => simp [Failure.isFatal] at fatal
    | internal _ | interrupted | exhausted => rfl

theorem holds_runBuiltin (b : Builtin) (op : StrictOp) (call : Expr) (names : List (Option Name))
    (values : List Value) (env : EnvId) (caller : RecordId) :
    L.Holds (runBuiltin (eval depth) b op call names values env caller) :=
  L.andThen (L.holds_eagerOnly _) fun _ => L.holds_underRecord rfl fun _ =>
    L.andThen (L.flagging _ _) fun _ => L.holds_attributeTo _ (L.holds_runStrict h _ _)

theorem holds_invokeStrict (b : Builtin) (call : Expr) (names : List (Option Name))
    (values : List Value) (env : EnvId) (caller : RecordId) (dispatch : Bool) :
    L.Holds (invokeStrict (eval depth) b call names values env caller dispatch) := by
  refine L.holds_either _ (L.internal h _ _ _ _ _ _) (L.value _) fun dispatched => ?_
  dsimp only
  split
  · exact L.value _
  · exact L.holds_runBuiltin h _ _ _ _ _ _ _
  · exact L.failure _

/-! Assignment. -/

theorem holds_applyValues (function : Value) (call : Expr) (names : List (Option Name))
    (values : List Value) (env : EnvId) (caller : RecordId) :
    L.Holds (applyValues (eval depth) function call names values env caller) := by
  unfold applyValues
  split
  · exact L.holds_invokeClosure h _ _ _ _ _ _ nofun
  · exact L.andThen (L.holds_findBuiltin _ _) fun _ => L.andThen (L.holds_failIf _ _) fun _ =>
      L.holds_invokeStrict h _ _ _ _ _ _ _
  · exact L.reading (fun _ _ _ _ => rfl) fun _ => L.failure _

theorem holds_replacedValue (e : Expr) (env : EnvId) (caller : RecordId) (outer : Bool) :
    L.Holds (replacedValue (eval depth) e env caller outer) := by
  unfold replacedValue
  split
  · exact h _ _ _
  · refine L.holds_either _ (L.holds_map _ (L.holds_readHeap _)) (L.value _) fun start =>
      L.andThen (L.holds_readHeap _) fun found => ?_
    split
    · exact L.holds_failAt _ _
    · exact L.andThen (L.holds_resolveBinding h _ _ _) fun v =>
        L.holds_when _ (L.holds_modifyStore (Store.share_moves v)) fun _ => L.value _

theorem holds_evalAll (env : EnvId) (caller : RecordId) (args : List Arg) :
    L.Holds (evalAll (eval depth) env caller args) := by
  induction args with
  | nil => exact L.value _
  | cons a rest ih =>
    obtain ⟨name, e⟩ := a
    exact L.andThen (h e env caller) fun _ => L.andThen ih fun _ => L.value _

theorem holds_replace (name : Name) (current : Value) (extra : List Arg) (v : Value) (env : EnvId)
    (caller : RecordId) : L.Holds (replace (eval depth) name current extra v env caller) := by
  refine L.andThen (L.holds_evalAll h _ _ _) fun values =>
    L.andThen (L.holds_lookupFunction h _ _ _) fun function =>
      L.andThen (L.storing ?_) fun call => ?_
  · exact Store.moves_seq (moves_symbolNode _) fun _ => moves_callNode _ _
  · split
    · exact L.andThen (L.holds_findBuiltin _ _) fun _ => L.holds_invokeStrict h _ _ _ _ _ _ _
    · exact L.holds_applyValues h _ _ _ _ _ _

theorem holds_assign (env : EnvId) (caller : RecordId) (outer : Bool) (target : Expr) (v : Value) :
    L.Holds (assign (eval depth) env caller outer target v) := by
  fun_induction assign (eval depth) env caller outer target v with
  | case1 id name v => exact L.holds_assignVariable _ _ _ _
  | case3 id f name first extra v setter known ih =>
    exact L.andThen (L.holds_replacedValue h _ _ _ _) fun _ =>
      L.andThen (L.holds_replace h _ _ _ _ _ _) fun _ => ih _
  | case2 | case4 | case5 => exact L.holds_failAt _ _

end Law
end CallByNeed
