import CallByNeed.Proofs.Calling
import CallByNeed.Proofs.HandlingBuiltins

/-!
The conduct of calls of functions with evaluated arguments: the search for methods by class, strict
builtins under records of their own, and assignment through replacement functions. On the way to strict
builtins stands a guard that is conducted too, which may do nothing.
-/
namespace CallByNeed

/-- Whether an operation runs a method in the place of the function that called it, or makes a function
that does. -/
def Operation.dispatches : Operation → Bool
  | .special .useMethod | .special .nextMethod | .special .standardGeneric => true
  | .strict .defineGeneric | .strict .defineMethod => true
  | _ => false

namespace Expr

variable {id : NodeId} {f target value test yes e : Expr} {args : List Arg} {a : Arg} {body : List Expr}
  {no : Option Expr} {outer : Bool}

/-! The parts of an expression are smaller. -/

theorem sizeOf_callee : sizeOf f < sizeOf (call id f args) := by
  rw [call.sizeOf_spec]
  omega

theorem sizeOf_arg (member : a ∈ args) : sizeOf a.value < sizeOf (call id f args) := by
  have inside := List.sizeOf_lt_of_mem member
  have part : sizeOf a = 1 + sizeOf a.name + sizeOf a.value := by
    cases a
    rw [Arg.mk.sizeOf_spec]
  rw [call.sizeOf_spec]
  omega

theorem sizeOf_statement (member : e ∈ body) : sizeOf e < sizeOf (block id body) := by
  have inside := List.sizeOf_lt_of_mem member
  rw [block.sizeOf_spec]
  omega

theorem sizeOf_test : sizeOf test < sizeOf (branch id test yes no) := by
  rw [branch.sizeOf_spec]
  omega

theorem sizeOf_yes : sizeOf yes < sizeOf (branch id test yes no) := by
  rw [branch.sizeOf_spec]
  omega

theorem sizeOf_no : sizeOf e < sizeOf (branch id test yes (some e)) := by
  rw [branch.sizeOf_spec, Option.some.sizeOf_spec]
  omega

theorem sizeOf_target : sizeOf target < sizeOf (assign id target value outer) := by
  rw [assign.sizeOf_spec]
  omega

theorem sizeOf_value : sizeOf value < sizeOf (assign id target value outer) := by
  rw [assign.sizeOf_spec]
  omega

end Expr

namespace Regime

variable (K : Regime) (ev : K.ι → Evaluator)

/-- What dispatch from inside a function asks for: every name and promise may be mentioned, and what
runs under any record is conducted. -/
structure Liberal : Prop where
  names : ∀ name, K.ambit.symbol name
  free : K.ambit.Free
  evaluates : ∀ (s : Session) (e : Expr) (env : EnvId) (c : RecordId), c.index < s.records.next →
    s.records.Childless c → K.ambit.Reads s.extent e →
    K.Conducts s K.ambit.Admits fun i => ev i e env c

/-- It is asked for only where the ambit has a builtin that dispatches so. -/
def Lenient (r : Registry) : Prop := ∀ b, K.ambit.Knows r b → b.operation.dispatches = true →
  K.Liberal ev

/-- What is evaluated under a record, of code smaller than a given size, is conducted. -/
def Below (w : Session) (c : RecordId) (size : Nat) : Prop :=
  ∀ (t : Session) (e : Expr), w.Follows K.ambit t → sizeOf e < size → K.ambit.Reads t.extent e →
    K.Runs ev t c e

variable {K ev} {α β : Type} {w s t : Session} {c : RecordId}

theorem Below.later {size : Nat} (below : K.Below ev w c size) (follows : w.Follows K.ambit s) :
    K.Below ev s c size := fun t e onward => below t e (follows.trans onward)

theorem Liberal.ready (liberal : K.Liberal ev) (issued : c.index < s.records.next) : K.Ready ev s c where
  issued := issued
  room := .inl liberal.free
  nested t r e env sound nests _ reads _ :=
    liberal.evaluates t e env r.id (nests.issued sound) nests.childless reads

namespace Conducts

/-! The search for a method. -/

/-- A method that was found keeps to the ambit. -/
def Found (K : Regime) (n : Nat) (found : Option CachedMethod) : Prop :=
  K.ambit.AdmitsAny n (found.map (·.method))

theorem found {m : CachedMethod} (ok : ∀ k, w.extent ≤ k → K.ambit.Admits k m.method) :
    K.Conducts w (Found K) fun _ => pure (some m) := by
  refine value fun k le v same => ?_
  cases same
  exact ok k le

theorem findMethodFunction (ready : K.Ready ev w c) {name : Name} (allowed : K.ambit.symbol name)
    (scope : List EnvId) :
    K.Conducts w K.ambit.AdmitsAny fun i => findMethodFunction (ev i) name c scope := by
  induction scope generalizing w with
  | nil =>
    refine reading fun s sound _ => value fun k le v known => ?_
    exact (sound.methods v (Table.mem_values_of_get? known)).mono le
  | cons env rest ih =>
    refine andThen (findFunction ready allowed env) fun t f follows ok => ?_
    cases f with
    | none => exact ih (ready.later follows)
    | some f => exact value fun k le => ok.mono le

theorem findForClass (ready : K.Ready ev w c) (search : MethodSearch) (position : Nat)
    (className : Name) :
    K.Conducts w (Found K) fun i => findForClass (ev i) search c position className := by
  refine andThen (findMethodFunction ready (K.ambit.method _ className) search.scope)
    fun t f follows ok => ?_
  cases f with
  | some f => exact found fun k le => (ok f rfl).mono le
  | none =>
    cases search.group with
    | none => exact value fun _ _ => nofun
    | some group =>
      refine andThen (findMethodFunction (ready.later follows) (K.ambit.method group className)
        search.scope) fun u f _ ok => ?_
      cases f with
      | some f => exact found fun k le => (ok f rfl).mono le
      | none => exact value fun _ _ => nofun

theorem findAmong (ready : K.Ready ev w c) (search : MethodSearch) (classes : List (Name × Nat)) :
    K.Conducts w (Found K) fun i => findAmong (ev i) search c classes := by
  induction classes generalizing w with
  | nil => exact value fun _ _ => nofun
  | cons entry rest ih =>
    obtain ⟨className, position⟩ := entry
    refine andThen (findForClass ready search position className) fun t m follows ok => ?_
    cases m with
    | some m => exact value fun k le => ok.mono le
    | none => exact ih (ready.later follows)

theorem findClassMethod (ready : K.Ready ev w c) (search : MethodSearch) (start : Nat) :
    K.Conducts w (Found K) fun i => findClassMethod (ev i) search start c :=
  findAmong ready search _

theorem builtinMethod {search : MethodSearch} (allowed : K.ambit.symbol search.generic) :
    K.Conducts w (Found K) fun _ => builtinMethod search := by
  refine andThen (getLocal Session.base allowed) fun t found _ ok => ?_
  rcases found with _ | v
  · exact value fun _ _ => nofun
  · cases v with
    | builtin name id => exact Conducts.found fun k le => (ok _ rfl).mono le
    | _ => exact value fun _ _ => nofun

theorem defaultMethod (ready : K.Ready ev w c) (search : MethodSearch) (start : Nat) :
    K.Conducts w (Found K) fun i => defaultMethod (ev i) search start c := by
  refine branch (fun _ => ?_) fun _ => value fun _ _ => nofun
  have allowed : K.ambit.symbol (search.generic ++ ".default") := by
    have dotted := K.ambit.method search.generic "default"
    rwa [String.append_assoc] at dotted
  refine andThen (findMethodFunction ready allowed search.scope) fun t f follows ok => ?_
  cases f with
  | some f => exact found fun k le => (ok f rfl).mono le
  | none => exact value fun _ _ => nofun

theorem findMethod (ready : K.Ready ev w c) {search : MethodSearch}
    (allowed : K.ambit.symbol search.generic) (start : Nat) :
    K.Conducts w (Found K) fun i => findMethod (ev i) search start c := by
  refine andThen (findClassMethod ready search start) fun t m first ok => ?_
  cases m with
  | some m => exact value fun k le => ok.mono le
  | none =>
    refine andThen (defaultMethod (ready.later first) search start) fun u m _ ok => ?_
    cases m with
    | some m => exact value fun k le => ok.mono le
    | none => exact builtinMethod allowed

/-- A method found for an operand keeps to the ambit, and so does the operand. -/
def Suits (K : Regime) (n : Nat) (m : OperandMethod) : Prop :=
  K.ambit.Admits n m.object ∧ K.ambit.Admits n m.found.method

theorem Suits.mono {n k : Nat} {m : OperandMethod} (ok : Suits K n m) (le : n ≤ k) : Suits K k m :=
  ⟨ok.1.mono le, ok.2.mono le⟩

theorem operandMethods (ready : K.Ready ev w c) (b : Builtin) (env : EnvId) {values : List Value}
    (ok : K.ambit.AdmitsAll w.extent values) :
    K.Conducts w (fun n ms => ∀ m ∈ ms, Suits K n m) fun i => operandMethods (ev i) b env c values := by
  induction values generalizing w with
  | nil => exact value fun _ _ => nofun
  | cons v rest ih =>
    obtain ⟨first, others⟩ := Ambit.admitsAll_cons.mp ok
    refine reading fun s _ follows => branch (fun _ => ?_) fun _ =>
      ih (ready.later follows) (others.mono follows.extent_le)
    have ready := ready.later follows
    refine andThen (findClassMethod ready _ 0) fun t m second suited => ?_
    have late := follows.trans second
    refine andThen (ih (ready.later second) (others.mono late.extent_le)) fun u ms third all => ?_
    cases m with
    | none => exact value fun k le m member => (all m member).mono le
    | some m =>
      refine value fun k le => List.forall_mem_cons.mpr ⟨⟨?_, ?_⟩, fun m member => (all m member).mono le⟩
      · exact first.mono (Nat.le_trans (late.trans third).extent_le le)
      · exact (suited m.method rfl).mono (Nat.le_trans third.extent_le le)

theorem chooseMethod (b : Builtin) (call : Expr) (c : RecordId) {ms : List OperandMethod}
    (ok : ∀ m ∈ ms, Suits K w.extent m) :
    K.Conducts w (fun n r => ∀ m, r = some m → Suits K n m) fun _ => chooseMethod b call c ms := by
  rcases ms with _ | ⟨lhs, _ | ⟨rhs, rest⟩⟩
  · exact value fun _ _ => nofun
  · refine value fun k le m same => ?_
    cases same
    exact (ok lhs List.mem_cons_self).mono le
  · refine branch (fun _ => value fun k le m same => ?_) fun _ => ?_
    · cases same
      exact (ok lhs List.mem_cons_self).mono le
    · exact guarding fun _ _ _ _ => reading fun _ _ _ => andThen (noting fun _ => rfl) fun _ _ _ _ =>
        value fun _ _ => nofun

theorem dispatchInternal (ready : K.Ready ev w c) (b : Builtin) {call : Expr}
    (names : List (Option Name)) {values : List Value} (env : EnvId)
    (code : K.ambit.Reads w.extent call) (ok : K.ambit.AdmitsAll w.extent values) :
    K.Conducts w K.ambit.AdmitsAny fun i => dispatchInternal (ev i) b call names values env c := by
  refine andThen (operandMethods ready b env (ok.sublist (List.take_subset _ _))) fun t ms first suited => ?_
  refine andThen (chooseMethod b call c suited) fun u m second chosen => ?_
  cases m with
  | none => exact value fun _ _ => nofun
  | some m =>
    obtain ⟨object, classes, m⟩ := m
    obtain ⟨admitted, suits⟩ := chosen _ rfl
    obtain ⟨method, target, position, group, deferred⟩ := m
    cases method with
    | closure id f definedIn =>
      refine andThen (modifying (Ambit.handles_shareAll values)) fun x _ third _ => ?_
      have late := (first.trans second).trans third
      refine map (invokeClosure (ready.later late) id definedIn ⟨?_, code.mono late.extent_le,
        fun _ => ok.mono late.extent_le, fun d same => ?_⟩) fun n v forced w same => ?_
      · exact (Ambit.admits_closure.mp suits).mono third.extent_le
      · cases same
        exact admitted.mono third.extent_le
      · cases same
        exact forced
    | _ => exact value fun _ _ => nofun

/-! Strict builtins. -/

theorem findBuiltin (name : Name) {id : Nat} (allowed : K.ambit.builtin id) :
    K.Conducts w (fun _ b => K.ambit.Knows w.builtins b) fun _ => findBuiltin name id := by
  refine reading fun s _ follows => ?_
  cases found : s.builtins.functions[id]? with
  | none => exact failure rfl
  | some b => exact value fun _ _ => ⟨id, allowed, follows.builtins ▸ found⟩

theorem write (args : Arguments) : K.Conducts w K.ambit.Admits fun _ => write args :=
  reading fun _ _ _ => andThen (noting fun _ => rfl) fun _ _ _ _ => value fun _ _ => Ambit.admits_null

theorem stop (call : StrictCall) : K.Conducts w K.ambit.Admits fun _ => stop call :=
  reading fun _ _ _ => failure rfl

theorem warnBuiltin (call : StrictCall) : K.Conducts w K.ambit.Admits fun _ => warnBuiltin call :=
  reading fun _ _ _ => andThen (noting fun _ => rfl) fun _ _ _ _ => vector rfl

theorem registerMethod {args : Arguments} (held : K.ambit.AdmitsAll w.extent args.values) :
    K.Conducts w K.ambit.Admits fun _ => registerMethod args := by
  refine reading fun s _ first => ?_
  refine andThen (lifting fun _ _ => Ambit.fair_requiredString args s.store "genname" 0)
    fun t generic second _ => ?_
  refine andThen (lifting fun _ _ => Ambit.fair_requiredString args s.store "class" 1)
    fun u className third _ => ?_
  have late := (first.trans second).trans third
  refine andThen (lifting fun k le => Ambit.fair_required (held.mono (Nat.le_trans late.extent_le le))
    "method" 2) fun x method fourth admitted => ?_
  refine andThen (failIf rfl) fun y _ fifth _ => andThen (updating (fun z sound sixth => ⟨?_, ?_⟩))
    fun _ _ _ _ => value fun _ _ => Ambit.admits_null
  · refine { sound with methods := fun v member => ?_ }
    rcases Table.mem_values_insert member with rfl | old
    · exact admitted.mono (fifth.trans sixth).extent_le
    · exact sound.methods v old
  · exact Session.follows_same rfl rfl rfl rfl rfl

theorem defineClass (args : Arguments) : K.Conducts w K.ambit.Admits fun _ => defineClass args := by
  refine reading fun s _ _ => ?_
  refine andThen (lifting fun _ _ => Ambit.fair_requiredString args s.store "Class" 0) fun _ _ _ _ => ?_
  exact andThen (noting fun _ => rfl) fun _ _ _ _ => vector rfl

/-- The function of a generic, and the method it starts with. -/
def Starts (K : Regime) (n : Nat) (r : Value × Option Value) : Prop :=
  K.ambit.Admits n r.1 ∧ K.ambit.AdmitsAny n r.2

theorem genericFunction (liberal : K.Liberal ev) (name : Name) {definition : Option Value}
    {call : StrictCall} (issued : call.record.index < w.records.next)
    (childless : w.records.Childless call.record) (ok : K.ambit.AdmitsAny w.extent definition) :
    K.Conducts w (Starts K) fun i => genericFunction (ev i) name definition call := by
  cases definition with
  | some v =>
    cases v with
    | closure id f env => exact value fun k le => ⟨(ok _ rfl).mono le, nofun⟩
    | _ => exact reading fun _ _ _ => failure rfl
  | none =>
    refine andThen (findFunction (liberal.ready issued) (liberal.names name) call.env)
      fun t existing first known => ?_
    cases existing with
    | none => exact failure rfl
    | some existing =>
      have mentions : ∀ m ∈ (skeleton name).mentions, m = .symbol "standardGeneric" := by
        simp [skeleton, Source.mentions, SourceFormal.allMentions, Source.optionMentions,
          SourceArg.allMentions]
      refine andThen (storing (Ambit.checks_load fun m mentioned => ?_)) fun u code second reads => ?_
      · rw [mentions m mentioned]
        exact liberal.names _
      · have late := first.trans second
        refine andThen (liberal.evaluates u code _ _ (Nat.lt_of_lt_of_le issued late.next)
          (late.childless childless) reads) fun x f third made => ?_
        exact value fun k le => ⟨made.mono le,
          known.mono (Nat.le_trans (second.trans third).extent_le le)⟩

/-- The method tables of a session with one more. -/
theorem sound_tables {table : MethodTable} {generics : Table Name Generic} (sound : s.Sound K.ambit)
    (ok : K.ambit.AdmitsAll s.extent table.methods.values) :
    ({ s with tables := s.tables.push table, generics } : Session).Sound K.ambit := by
  refine { sound with tables := fun t member => ?_ }
  rcases Array.mem_push.mp member with old | rfl
  · exact sound.tables t old
  · exact ok

theorem admitsAll_define {table : MethodTable} {n : Nat} {key : String} {method : Value}
    (ok : K.ambit.AdmitsAll n table.methods.values) (admitted : K.ambit.Admits n method) :
    K.ambit.AdmitsAll n (table.define key method).methods.values := by
  intro v member
  rcases MethodTable.mem_values_define member with rfl | old
  · exact admitted
  · exact ok v old

theorem defineGeneric (liberal : K.Liberal ev) (name : Name) {definition : Option Value}
    {call : StrictCall} (issued : call.record.index < w.records.next)
    (childless : w.records.Childless call.record) (ok : K.ambit.AdmitsAny w.extent definition) :
    K.Conducts w Ambit.Any fun i => defineGeneric (ev i) name definition call := by
  refine andThen (genericFunction liberal name issued childless ok) fun t made first starts => ?_
  obtain ⟨function, initial⟩ := made
  obtain ⟨admitted, start⟩ := starts
  cases function with
  | closure id f env =>
    refine replacing (fun s sound second => ⟨sound_tables sound ?_, ?_⟩) fun s sound second => ?_
    · cases initial with
      | none => exact nofun
      | some method =>
        have empty : K.ambit.AdmitsAll s.extent ({} : MethodTable).methods.values := nofun
        exact admitsAll_define empty ((start method rfl).mono second.extent_le)
    · exact Session.follows_same rfl rfl rfl rfl rfl
    · exact andThen (defining name (admitted.mono second.extent_le)) fun _ _ _ _ => value fun _ _ => trivial
  | _ => exact failure rfl

theorem runHost {b : Builtin} {op : HostOp} (args : Arguments)
    (known : K.ambit.Knows w.builtins b) (strict : b.operation = .strict (.host op)) :
    K.Conducts w K.ambit.Admits fun _ => runHost op args := by
  cases op with
  | interrupt result =>
    refine andThen (noting fun _ => rfl) fun _ _ _ _ => ?_
    cases result with
    | some x => exact vector rfl
    | none => exact value fun _ _ => Ambit.admits_null
  | twice =>
    refine reading fun s _ _ => ?_
    exact andThen (lifting fun _ _ => Builtins.fair_twice s.store args) fun _ _ _ atomic => vector atomic
  | countArguments => exact vector rfl
  | fail f =>
    have raised : K.Raised w f := ⟨b, known, strict⟩
    exact permitted ⟨fun _ _ => raised, fun _ _ => raised⟩

theorem numeric {f : Store → Arguments → Except Failure Elements} {args : Arguments}
    (fair : ∀ n s, Ambit.Fair Builtins.Atomic n (f s args)) :
    K.Conducts w K.ambit.Admits fun _ => numeric f args := by
  refine reading fun s _ _ => ?_
  exact andThen (lifting fun n _ => fair n s.store) fun _ _ _ atomic => vector atomic

theorem defineGenericBuiltin (liberal : K.Liberal ev) {call : StrictCall}
    (issued : call.record.index < w.records.next) (childless : w.records.Childless call.record)
    (held : K.ambit.AdmitsAll w.extent call.args.values) :
    K.Conducts w K.ambit.Admits fun i => defineGenericBuiltin (ev i) call := by
  refine reading fun s _ first => ?_
  refine andThen (lifting fun _ _ => Ambit.fair_requiredString call.args s.store "name" 0)
    fun t name second _ => ?_
  have late := first.trans second
  exact andThen (defineGeneric liberal name (Nat.lt_of_lt_of_le issued late.next)
    (late.childless childless) ((held.mono late.extent_le).argument "def" 1))
    fun _ _ _ _ => vector rfl

theorem tableAt {n : Nat} (sound : s.Sound K.ambit) (le : s.extent ≤ n) (id : TableId) :
    K.ambit.AdmitsAll n (s.tableAt id).methods.values := by
  intro v member
  obtain ⟨t, there, held⟩ := Session.mem_methods_tableAt member
  exact (sound.tables t there v held).mono le

theorem sound_setTable {table : MethodTable} (id : TableId) (sound : s.Sound K.ambit)
    (ok : K.ambit.AdmitsAll s.extent table.methods.values) : (s.setTable id table).Sound K.ambit := by
  refine { sound with tables := fun t member => ?_ }
  rcases Session.mem_tables_setTable member with rfl | old
  · exact ok
  · exact sound.tables t old

theorem enterMethod (name : Name) (classes : List Name) {method : Value} (generic : Generic)
    (admitted : K.ambit.Admits w.extent method) :
    K.Conducts w K.ambit.Admits fun _ => enterMethod name classes method generic := by
  refine andThen (failIf rfl) fun t _ first _ => andThen (updating fun s sound second => ⟨?_, ?_⟩)
    fun _ _ _ _ => vector rfl
  · refine sound_setTable _ sound (admitsAll_define (tableAt sound (Nat.le_refl _) _) ?_)
    exact admitted.mono (first.trans second).extent_le
  · exact Session.follows_same rfl rfl rfl rfl rfl

theorem defineMethod (liberal : K.Liberal ev) {call : StrictCall}
    (issued : call.record.index < w.records.next) (childless : w.records.Childless call.record)
    (held : K.ambit.AdmitsAll w.extent call.args.values) :
    K.Conducts w K.ambit.Admits fun i => defineMethod (ev i) call := by
  refine reading fun s _ first => ?_
  refine andThen (lifting fun _ _ => Ambit.fair_requiredString call.args s.store "f" 0)
    fun t name second _ => ?_
  have late := first.trans second
  refine andThen (lifting fun k le => Ambit.fair_required (held.mono (Nat.le_trans late.extent_le le))
    "signature" 1) fun u signature third _ => ?_
  have late := late.trans third
  refine andThen (lifting fun k le => Ambit.fair_required (held.mono (Nat.le_trans late.extent_le le))
    "definition" 2) fun x method fourth admitted => andThen (failIf rfl) fun y _ fifth _ => ?_
  have late := late.trans (fourth.trans fifth)
  have rest (z : Session) (generic : Generic) (sixth : y.Follows K.ambit z)
      (_ : Ambit.Any z.extent generic) : K.Conducts z K.ambit.Admits fun _ =>
        CallByNeed.enterMethod name ((s.store.strings? signature).getD []) method generic :=
    enterMethod name _ generic (admitted.mono (fifth.trans sixth).extent_le)
  cases known : s.generics.get? name with
  | some generic => exact andThen (value fun _ _ => trivial) rest
  | none =>
    exact andThen (defineGeneric liberal name (Nat.lt_of_lt_of_le issued late.next)
      (late.childless childless) nofun) rest

end Conducts

/-! Strict builtins at work. Of a writer it is asked what it does to the store at hand. -/

namespace Lands

theorem attributing {m : K.ι → EvalM α} {Q : Nat → α → Prop} (call : Expr) (lands : K.Lands s s Q m)
    (mono : ∀ n k a, n ≤ k → Q n a → Q k a) : K.Lands s s Q fun i => attributeTo call (m i) := by
  refine lands.observing (.refl s) fun t r follows ends => ?_
  rcases r with (f | ⟨env, v⟩) | a
  · refine .branch (fun _ => .permitted (Permits.on ends follows)) fun _ => ?_
    refine .reading fun s _ onward => .permitted ?_
    have permits : K.Permits s f := Permits.on ends (follows.trans onward)
    cases f with
    | condition c => exact permits_of_fair rfl
    | _ => exact permits
  · exact .leaving ends
  · exact .value fun k le => mono _ k a le ends

theorem runStrict (lenient : K.Lenient ev s.builtins) {b : Builtin} {op : StrictOp} {call : StrictCall}
    (known : K.ambit.Knows s.builtins b) (strict : b.operation = .strict op)
    (issued : call.record.index < s.records.next) (childless : s.records.Childless call.record)
    (held : K.ambit.AdmitsAll s.extent call.args.values) (sound : s.Sound K.ambit)
    (writing : ∀ m, op.writer? call.args = some m → (m s.store).2.Sound K.ambit ∧
      s.store.Grows K.ambit (m s.store).2 ∧
        Ambit.Fair K.ambit.Admits (m s.store).2.vectors.size (m s.store).1)
    (copies : ∀ id k, K.ambit.Checks k K.ambit.Admits (Builtins.classless id)) :
    K.Lands s s K.ambit.Admits fun i => runStrict (ev i) op call := by
  cases op with
  | setElement | setAttribute | withAttributes | setClassOf => exact .storing sound (writing _ rfl)
  | combine => exact Conducts.lands (.storing (Builtins.checks_combine held)) sound
  | makeList => exact Conducts.lands (.storing (Builtins.checks_makeList held)) sound
  | element => exact Conducts.lands (.storing (Builtins.checks_element held)) sound
  | length => exact Conducts.lands (.storing (Builtins.checks_length _)) sound
  | identical => exact Conducts.lands (.storing (Builtins.checks_identical _)) sound
  | isNull => exact Conducts.lands (.storing (Builtins.checks_logical _)) sound
  | getAttribute => exact Conducts.lands (.storing (Builtins.checks_getAttribute _)) sound
  | classOf =>
    exact Conducts.lands (.reading fun s _ _ => .storing (Builtins.checks_classOf s.implicit _)) sound
  | oldClass => exact Conducts.lands (.storing (Builtins.checks_oldClass _)) sound
  | unclass => exact Conducts.lands (.storing (Builtins.checks_unclass copies held)) sound
  | inherits =>
    exact Conducts.lands (.reading fun s _ _ => .storing (Builtins.checks_inherits s.implicit _)) sound
  | arithmetic op => exact Conducts.lands (.numeric fun _ s => Builtins.fair_arithmetic op s _) sound
  | compare op => exact Conducts.lands (.numeric fun _ s => Builtins.fair_compare op s _) sound
  | negate => exact Conducts.lands (.numeric fun _ s => Builtins.fair_negate s _) sound
  | summary op => exact Conducts.lands (.numeric fun _ s => Builtins.fair_summary op s _) sound
  | absolute => exact Conducts.lands (.numeric fun _ s => Builtins.fair_absolute s _) sound
  | write => exact (Conducts.write _).lands sound
  | stop => exact (Conducts.stop _).lands sound
  | warn => exact (Conducts.warnBuiltin _).lands sound
  | identity => exact Conducts.lands (.storing (Builtins.checks_identity held)) sound
  | registerMethod => exact (Conducts.registerMethod held).lands sound
  | defineClass => exact (Conducts.defineClass _).lands sound
  | defineGeneric =>
    have liberal := lenient b known (by rw [strict]; rfl)
    exact (Conducts.defineGenericBuiltin liberal issued childless held).lands sound
  | defineMethod =>
    have liberal := lenient b known (by rw [strict]; rfl)
    exact (Conducts.defineMethod liberal issued childless held).lands sound
  | newObject =>
    exact Conducts.lands (.reading fun s _ first =>
      .storing (Builtins.checks_newObject s.classes (held.mono first.extent_le))) sound
  | host op => exact (Conducts.runHost _ known strict).lands sound

theorem runBuiltin (lenient : K.Lenient ev s.builtins) (issued : c.index < s.records.next) {b : Builtin}
    {op : StrictOp} {call : Expr} {names : List (Option Name)} {values : List Value} (env : EnvId)
    (known : K.ambit.Knows s.builtins b) (strict : b.operation = .strict op)
    (code : K.ambit.Reads s.extent call) (held : K.ambit.AdmitsAll s.extent values)
    (sound : s.Sound K.ambit)
    (writing : ∀ m, op.writer? ⟨names, values⟩ = some m → (m s.store).2.Sound K.ambit ∧
      s.store.Grows K.ambit (m s.store).2 ∧
        Ambit.Fair K.ambit.Admits (m s.store).2.vectors.size (m s.store).1)
    (copies : ∀ id k, K.ambit.Checks k K.ambit.Admits (Builtins.classless id)) :
    K.Lands s s K.ambit.Admits fun i => runBuiltin (ev i) b op call names values env c := by
  let flag := s.records.eagerOnly c
  let r := s.newRecord (some c) (some call) (.builtin b.name) flag
  have below (p : RecordId) (same : some c = some p) : p.index < s.records.next := by
    cases same
    exact issued
  have within : K.ambit.AllowsRecord s.extent r := by
    refine ⟨fun e same => ?_, nofun, nofun, nofun⟩
    cases same
    exact code
  have opened : (s.opening r).Sound K.ambit := by
    refine sound.opening below (fun p member same flagged => ⟨?_, rfl⟩) within
    cases same
    exact (sound.records.eagerOnly_of_mem member).trans flagged
  have nests : s.Nests K.ambit (s.opening r) r := sound.nests below
  have inner : K.Lands (s.opening r) (s.opening r) K.ambit.Admits fun i =>
      attributeTo call (CallByNeed.runStrict (ev i) op ⟨⟨names, values⟩, env, r.id⟩) := by
    refine attributing call (runStrict (s := s.opening r) lenient known strict ?_ nests.childless held
      opened writing copies) fun _ _ _ le ok => ok.mono le
    exact opened.records.issued r List.mem_cons_self
  obtain ⟨a, t, runs, sound', onward, ends⟩ :=
    Conducts.closing nests (fun calm => calm.eagerOnly c) inner
  refine ⟨a, t, ?_, sound', onward, ends⟩
  have flagged : (s.records.opened { r with eagerOnly := false }).setEagerOnly r.id flag =
    s.records.opened r := sound.records.opened_flagged rfl flag
  filter_upwards [runs] with i run
  unfold CallByNeed.runBuiltin
  rw [eagerOnly_bind, underRecord_apply, ← run]
  unfold releasing Session.opening
  rw [setEagerOnly_bind]
  dsimp only
  rw [← flagged]
  rfl

/-- The same from every sound session that follows. -/
theorem later {Q : Nat → α → Prop} {m : K.ι → EvalM α} (lands : K.Lands s s Q m)
    (follows : w.Follows K.ambit s) : K.Lands w s Q m := by
  obtain ⟨r, t, runs, sound, onward, ends⟩ := lands
  exact ⟨r, t, runs, sound, onward, ends.back follows⟩

end Lands

/-- A guard is conducted, together with the builtins it lets through. -/
structure Guarded (K : Regime) (g : Guard) : Prop where
  running {ev : K.ι → Evaluator} {w : Session} {c : RecordId} {b : Builtin} {op : StrictOp} {call : Expr}
    {names : List (Option Name)} {values : List Value} {env : EnvId} :
    K.Lenient ev w.builtins → c.index < w.records.next → K.ambit.Knows w.builtins b →
      b.operation = .strict op → K.ambit.Reads w.extent call → K.ambit.AdmitsAll w.extent values →
        K.Conducts w K.ambit.Admits fun i => g.runBuiltin (ev i) b op call names values env c
  replacing {w : Session} {b : Builtin} : K.Conducts w Ambit.Any fun _ => g.replacing b

/-- No guard is needed where every write is allowed. -/
theorem guarded_idle (lax : K.ambit.Lax) : K.Guarded .idle where
  running lenient issued known strict code held s sound follows :=
    have held := held.mono follows.extent_le
    .later (Lands.runBuiltin (follows.builtins ▸ lenient) (Nat.lt_of_lt_of_le issued follows.next) _
      (follows.builtins ▸ known) strict (code.mono follows.extent_le) held sound
      (fun _ writer => Builtins.checks_writer lax held writer s.store sound.store (Nat.le_refl _))
      fun id _ => Builtins.checks_classless lax id) follows
  replacing := .value fun _ _ => trivial

namespace Conducts

theorem attributing {m : K.ι → EvalM α} {Q : Nat → α → Prop} (call : Expr) (conducts : K.Conducts w Q m)
    (mono : ∀ n k a, n ≤ k → Q n a → Q k a) : K.Conducts w Q fun i => attributeTo call (m i) :=
  fun _ sound follows =>
    .later (.attributing call ((conducts.later follows).lands sound) mono) follows

variable {g : Guard}

theorem invokeStrict (guarded : K.Guarded g) (ready : K.Ready ev w c) (lenient : K.Lenient ev w.builtins)
    {b : Builtin} {call : Expr} (names : List (Option Name)) {values : List Value} (env : EnvId)
    (dispatch : Bool) (known : K.ambit.Knows w.builtins b) (code : K.ambit.Reads w.extent call)
    (held : K.ambit.AdmitsAll w.extent values) :
    K.Conducts w K.ambit.Admits fun i => g.invokeStrict (ev i) b call names values env c dispatch := by
  have rest (t : Session) (dispatched : Option Value) (follows : w.Follows K.ambit t)
      (ok : K.ambit.AdmitsAny t.extent dispatched) : K.Conducts t K.ambit.Admits fun i =>
        g.afterDispatch (ev i) b call names values env c dispatched := by
    unfold Guard.afterDispatch
    cases dispatched with
    | some v => exact value fun k le => (ok v rfl).mono le
    | none =>
      cases strict : b.operation with
      | strict op =>
        exact guarded.running (follows.builtins ▸ lenient) (ready.later follows).issued
          (follows.builtins ▸ known) strict (code.mono follows.extent_le) (held.mono follows.extent_le)
      | special op => exact failure rfl
  exact branch (fun _ => andThen (dispatchInternal ready b names env code held) rest) fun _ =>
    andThen (value fun _ _ => nofun) rest

/-! Calls with evaluated arguments. -/

theorem applyValues (guarded : K.Guarded g) (ready : K.Ready ev w c) (lenient : K.Lenient ev w.builtins)
    {function : Value} {call : Expr} (names : List (Option Name)) {values : List Value} (env : EnvId)
    (ok : K.ambit.Admits w.extent function) (code : K.ambit.Reads w.extent call)
    (held : K.ambit.AdmitsAll w.extent values) :
    K.Conducts w K.ambit.Admits fun i => g.applyValues (ev i) function call names values env c := by
  cases function with
  | closure id f definedIn =>
    exact invokeClosure ready id definedIn ⟨Ambit.admits_closure.mp ok, code, fun _ => held, nofun⟩
  | builtin name id =>
    refine andThen (findBuiltin name (Ambit.admits_builtin.mp ok)) fun t b first known => ?_
    refine andThen (failIf rfl) fun u _ second _ => ?_
    have late := first.trans second
    exact invokeStrict guarded (ready.later late) (late.builtins ▸ lenient) names env true
      (late.builtins ▸ known) (code.mono late.extent_le) (held.mono late.extent_le)
  | _ => exact reading fun _ _ _ => failure rfl

/-- The value of a variable seen from a frame, with one owner more if another frame holds it. -/
def sharedVariable (ev : Evaluator) (name : Name) (c : RecordId) (start : EnvId) : EvalM Value := do
  match ← readHeap (·.lookup start name) with
  | none => CallByNeed.failAt c (.objectNotFound name)
  | some (foundIn, binding) =>
    let v ← CallByNeed.resolveBinding ev name binding c
    if foundIn ≠ start then modifyStore (·.share v)
    pure v

theorem sharedVariable_conducts (ready : K.Ready ev w c) {name : Name} (allowed : K.ambit.symbol name)
    (start : EnvId) : K.Conducts w K.ambit.Admits fun i => sharedVariable (ev i) name c start := by
  refine andThen (lookup start allowed) fun t found first ok => ?_
  rcases found with _ | ⟨foundIn, binding⟩
  · exact failAt rfl
  · refine andThen (resolveBinding (ready.later first) name (ok binding rfl)) fun u v second admitted => ?_
    refine branch (fun _ => ?_) fun _ => value fun k le => admitted.mono le
    refine andThen (modifying (Ambit.handles_share v)) fun x _ third _ => ?_
    exact value fun k le => admitted.mono (Nat.le_trans third.extent_le le)

theorem replacedValue (ready : K.Ready ev w c) {e : Expr} (env : EnvId) (outer : Bool)
    (runs : K.Runs ev w c e) :
    K.Conducts w K.ambit.Admits fun i => replacedValue (ev i) e env c outer := by
  unfold CallByNeed.replacedValue
  cases symbol : e.symbol? with
  | none => exact runs.here env
  | some name =>
    have rest (t : Session) (start : EnvId) (follows : w.Follows K.ambit t)
        (_ : Ambit.Any t.extent start) :
        K.Conducts t K.ambit.Admits fun i => sharedVariable (ev i) name c start :=
      sharedVariable_conducts (ready.later follows) (runs.reads.ofSymbol symbol) start
    refine branch (fun _ => andThen (map (readingHeap fun s _ _ => Heap.fair_parent s.heap env)
      fun _ _ _ => trivial) rest) fun _ => andThen (value fun _ _ => trivial) rest

theorem evalAll (env : EnvId) {args : List Arg} (runs : ∀ a ∈ args, K.Runs ev w c a.value) :
    K.Conducts w K.ambit.AdmitsAll fun i => evalAll (ev i) env c args := by
  induction args generalizing w with
  | nil => exact value fun _ _ => Ambit.admitsAll_nil
  | cons a rest ih =>
    obtain ⟨first, others⟩ := List.forall_mem_cons.mp runs
    obtain ⟨name, e⟩ := a
    refine andThen (first.here env) fun t v follows admitted => ?_
    refine andThen (ih fun a member => (others a member).later follows) fun u vs onward all => ?_
    exact value fun k le => Ambit.admitsAll_cons.mpr
      ⟨admitted.mono (Nat.le_trans onward.extent_le le), all.mono le⟩

theorem replace (guarded : K.Guarded g) (ready : K.Ready ev w c) (lenient : K.Lenient ev w.builtins)
    (name : Name) {current v : Value} {extra : List Arg} (env : EnvId) (runs : ∀ a ∈ extra, K.Runs ev w c a.value)
    (old : K.ambit.Admits w.extent current) (new : K.ambit.Admits w.extent v) :
    K.Conducts w K.ambit.Admits fun i => g.replace (ev i) name current extra v env c := by
  refine andThen (evalAll env runs) fun t values first all => ?_
  have setter := K.ambit.setter name
  refine andThen (lookupFunction (ready.later first) setter env) fun u function second admitted => ?_
  refine andThen (storing (Ambit.checks_seq (Ambit.checks_symbolNode setter) fun _ f _ reads =>
    Ambit.checks_callNode reads (List.forall_mem_nil _))) fun x call third code => ?_
  have late := first.trans (second.trans third)
  have ready := ready.later late
  have lenient : K.Lenient ev x.builtins := late.builtins ▸ lenient
  have held : K.ambit.AdmitsAll x.extent (current :: values ++ [v]) := by
    refine Ambit.admitsAll_cons.mpr ⟨old.mono late.extent_le, Ambit.admitsAll_append.mpr
      ⟨all.mono (second.trans third).extent_le, Ambit.admitsAll_cons.mpr
        ⟨new.mono late.extent_le, Ambit.admitsAll_nil⟩⟩⟩
  have admitted := admitted.mono third.extent_le
  cases function with
  | builtin name id =>
    refine andThen (findBuiltin name (Ambit.admits_builtin.mp admitted)) fun y b fourth known => ?_
    refine andThen guarded.replacing fun z _ fifth _ => ?_
    have late := fourth.trans fifth
    exact invokeStrict guarded (ready.later late) (late.builtins ▸ lenient) _ env false
      (late.builtins ▸ known) (code.mono late.extent_le) (held.mono late.extent_le)
  | _ => exact applyValues guarded ready lenient _ env admitted code held

/-- Assignment to a variable or through replacement functions, along the path of the target. -/
theorem assign (guarded : K.Guarded g) (ready : K.Ready ev w c) (lenient : K.Lenient ev w.builtins)
    {target : Expr} {v : Value} (env : EnvId) (outer : Bool) {size : Nat} (below : K.Below ev w c size) (small : sizeOf target < size)
    (reads : K.ambit.Reads w.extent target) (ok : K.ambit.Admits w.extent v) :
    K.Conducts w Ambit.Any fun i => g.assign (ev i) env c outer target v := by
  induction bound : sizeOf target using Nat.strong_induction_on generalizing w target v with | _ total ih
  unfold Guard.assign
  cases target with
  | symbol id name => exact assignVariable name env outer ok
  | call id f args =>
    obtain ⟨callee, parts⟩ := Ambit.reads_call.mp reads
    rcases args with _ | ⟨⟨name, first⟩, extra⟩
    · exact failAt rfl
    · have inner : sizeOf first < total := by
        rw [← bound]
        exact Expr.sizeOf_arg (a := ⟨name, first⟩) List.mem_cons_self
      have runs (t : Session) (late : w.Follows K.ambit t) (a : Arg)
          (member : a ∈ (⟨name, first⟩ :: extra : List Arg)) : K.Runs ev t c a.value := by
        exact below t a.value late (Nat.lt_trans (Expr.sizeOf_arg member) small)
          ((parts a member).mono late.extent_le)
      cases symbol : f.symbol? with
      | none =>
        dsimp only
        rw [symbol]
        exact failAt rfl
      | some setter =>
        dsimp only
        rw [symbol]
        refine andThen (replacedValue ready env outer (runs w (.refl w) _ List.mem_cons_self))
          fun t current follows old => ?_
        refine andThen (replace guarded (ready.later follows) (follows.builtins ▸ lenient) setter env
          (fun a member => runs t follows a (List.mem_cons_of_mem _ member)) old
          (ok.mono follows.extent_le)) fun u updated onward new => ?_
        have late := follows.trans onward
        exact ih (sizeOf first) inner (ready.later late) (late.builtins ▸ lenient) (below.later late)
          (Nat.lt_trans (bound ▸ inner) small) ((parts _ List.mem_cons_self).mono late.extent_le) new rfl
  | _ => exact failAt rfl

end Conducts
end Regime
end CallByNeed
