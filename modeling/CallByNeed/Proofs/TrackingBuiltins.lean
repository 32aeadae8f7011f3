import CallByNeed.Proofs.Invoking
import CallByNeed.Proofs.TrackingCalls

/-!
Tracking calls of functions with evaluated arguments, given that what is nested in them is tracked: the
search for methods by class, strict builtins under records of their own, and assignment through
replacement functions. On the way to strict builtins stands a guard that itself is tracked, which may do
nothing.
-/
namespace CallByNeed
namespace Inquiry

variable {K : Inquiry} {g : Guard} {ev : Option (EvalM Unit) → Evaluator} {α β : Type} {w s t : Session}
  {c : RecordId}

namespace Tracks

/-- A computation may start from what is known of a sound session. -/
theorem soundly {Q : Scope → α → Prop} {m : Option (EvalM Unit) → EvalM α}
    (rest : ∀ s, K.Sound s → w.Extends s → K.Tracks s Q m) : K.Tracks w Q m :=
  fun s sound extend => (rest s sound extend).lands sound

/-! The search for a method. -/

/-- A method that was found may be referred to. -/
def Suited (S : Scope) (found : Option CachedMethod) : Prop := ∀ m, found = some m → S.Covers m.method

theorem suited {m : CachedMethod} (ok : (K.scope w).Covers m.method) :
    K.Tracks w Suited fun _ => pure (some m) := by
  refine value fun S wider n same => ?_
  cases same
  exact ok.mono wider

theorem findMethodFunction (evaluates : K.Evaluates ev) (name : Name) {scope : List EnvId}
    (alive : ∀ env ∈ scope, (K.scope w).frame env) :
    K.Tracks w Scope.CoversAny fun alarm => findMethodFunction (ev alarm) name c scope := by
  induction scope generalizing w with
  | nil =>
    refine reading fun s sound _ => value fun S wider v known => ?_
    exact (sound.methods v (Table.mem_values_of_get? known)).mono wider
  | cons env rest ih =>
    obtain ⟨first, others⟩ := List.forall_mem_cons.mp alive
    refine andThen (findFunction evaluates name first) fun t f late ok => ?_
    cases f with
    | none => exact ih fun e member => scope_within late (.frame e) (others e member)
    | some f =>
      refine value fun S wider v same => ?_
      cases same
      exact (ok f rfl).2.mono wider

variable {search : MethodSearch}

theorem findForClass (evaluates : K.Evaluates ev) (position : Nat) (className : Name)
    (alive : ∀ env ∈ search.scope, (K.scope w).frame env) :
    K.Tracks w Suited fun alarm => findForClass (ev alarm) search c position className := by
  refine andThen (findMethodFunction evaluates _ alive) fun t f late ok => ?_
  cases f with
  | some f => exact suited (ok f rfl)
  | none =>
    cases search.group with
    | none => exact value fun _ _ => nofun
    | some group =>
      refine andThen (findMethodFunction evaluates _ fun e member =>
        scope_within late (.frame e) (alive e member)) fun u f _ ok => ?_
      cases f with
      | some f => exact suited (ok f rfl)
      | none => exact value fun _ _ => nofun

theorem findAmong (evaluates : K.Evaluates ev) (classes : List (Name × Nat))
    (alive : ∀ env ∈ search.scope, (K.scope w).frame env) :
    K.Tracks w Suited fun alarm => findAmong (ev alarm) search c classes := by
  induction classes generalizing w with
  | nil => exact value fun _ _ => nofun
  | cons entry rest ih =>
    obtain ⟨className, position⟩ := entry
    refine andThen (findForClass evaluates position className alive) fun t m late ok => ?_
    cases m with
    | some m => exact suited (ok m rfl)
    | none => exact ih fun e member => scope_within late (.frame e) (alive e member)

theorem findClassMethod (evaluates : K.Evaluates ev) (start : Nat)
    (alive : ∀ env ∈ search.scope, (K.scope w).frame env) :
    K.Tracks w Suited fun alarm => findClassMethod (ev alarm) search start c :=
  findAmong evaluates _ alive

theorem builtinMethod (search : MethodSearch) : K.Tracks w Suited fun _ => builtinMethod search := by
  refine soundly fun s sound _ => andThen (getLocal sound.base search.generic) fun t found _ ok => ?_
  rcases found with _ | v
  · exact value fun _ _ => nofun
  · cases v with
    | builtin name id => exact suited (ok _ rfl)
    | _ => exact value fun _ _ => nofun

theorem defaultMethod (evaluates : K.Evaluates ev) (start : Nat)
    (alive : ∀ env ∈ search.scope, (K.scope w).frame env) :
    K.Tracks w Suited fun alarm => defaultMethod (ev alarm) search start c := by
  refine branch (fun _ => ?_) fun _ => value fun _ _ => nofun
  refine andThen (findMethodFunction evaluates _ alive) fun t f _ ok => ?_
  cases f with
  | some f => exact suited (ok f rfl)
  | none => exact value fun _ _ => nofun

theorem findMethod (evaluates : K.Evaluates ev) (start : Nat)
    (alive : ∀ env ∈ search.scope, (K.scope w).frame env) :
    K.Tracks w Suited fun alarm => findMethod (ev alarm) search start c := by
  refine andThen (findClassMethod evaluates start alive) fun t m late ok => ?_
  cases m with
  | some m => exact suited (ok m rfl)
  | none =>
    refine andThen (defaultMethod evaluates start fun e member =>
      scope_within late (.frame e) (alive e member)) fun u m _ ok => ?_
    cases m with
    | some m => exact suited (ok m rfl)
    | none => exact builtinMethod search

/-- An operand and the method found for it may be referred to. -/
def OperandSuited (S : Scope) (m : OperandMethod) : Prop := S.Covers m.object ∧ S.Covers m.found.method

theorem OperandSuited.mono {S T : Scope} {m : OperandMethod} (ok : OperandSuited S m) (wider : S.Within T) :
    OperandSuited T m := ⟨ok.1.mono wider, ok.2.mono wider⟩

theorem operandMethods (evaluates : K.Evaluates ev) (b : Builtin) {env : EnvId} {values : List Value}
    (alive : (K.scope w).frame env) (ok : (K.scope w).CoversAll values) :
    K.Tracks w (fun S ms => ∀ m ∈ ms, OperandSuited S m)
      fun alarm => operandMethods (ev alarm) b env c values := by
  induction values generalizing w with
  | nil => exact value fun _ _ => nofun
  | cons v rest ih =>
    obtain ⟨first, others⟩ := Scope.coversAll_cons.mp ok
    have further {t : Session} (late : w.Extends t) :
        K.Tracks t (fun S ms => ∀ m ∈ ms, OperandSuited S m)
          fun alarm => CallByNeed.operandMethods (ev alarm) b env c rest :=
      ih (scope_within late (.frame env) alive) (Scope.CoversAll.mono others (scope_within late))
    refine reading fun s _ start => branch (fun _ => ?_) fun _ => further start
    have there (e : EnvId) (member : e ∈ [env]) : (K.scope s).frame e :=
      List.mem_singleton.mp member ▸ scope_within start (.frame env) alive
    refine andThen (findClassMethod evaluates 0 there) fun t m second suited => ?_
    have late := start.trans second
    refine andThen (further late) fun u ms third all => ?_
    cases m with
    | none => exact value fun S wider m member => (all m member).mono wider
    | some m =>
      refine value fun S wider => List.forall_mem_cons.mpr
        ⟨⟨?_, ?_⟩, fun m member => (all m member).mono wider⟩
      · exact first.mono ((scope_within (late.trans third)).trans wider)
      · exact (suited m rfl).mono ((scope_within third).trans wider)

theorem chooseMethod (b : Builtin) (call : Expr) {ms : List OperandMethod}
    (ok : ∀ m ∈ ms, OperandSuited (K.scope w) m) :
    K.Tracks w (fun S r => ∀ m, r = some m → OperandSuited S m) fun _ => chooseMethod b call c ms := by
  have only (m : OperandMethod) (member : m ∈ ms) :
      K.Tracks w (fun S r => ∀ m, r = some m → OperandSuited S m) fun _ => pure (some m) := by
    refine value fun S wider n same => ?_
    cases same
    exact (ok m member).mono wider
  rcases ms with _ | ⟨lhs, _ | ⟨rhs, rest⟩⟩
  · exact value fun _ _ => nofun
  · exact only lhs List.mem_cons_self
  · refine branch (fun _ => only lhs List.mem_cons_self) fun _ => ?_
    exact andThen (ensureLazy c) fun _ _ _ _ => andThen (exprText call) fun _ _ _ _ =>
      andThen (noting fun _ => ⟨rfl, rfl⟩) fun _ _ _ _ => value fun _ _ => nofun

theorem dispatchInternal (evaluates : K.Evaluates ev) (b : Builtin) {call : Expr}
    (names : List (Option Name)) {values : List Value} {env : EnvId} (alive : (K.scope w).frame env)
    (code : (K.scope w).Spans call) (ok : (K.scope w).CoversAll values) :
    K.Tracks w Scope.CoversAny fun alarm => dispatchInternal (ev alarm) b call names values env c := by
  refine andThen (operandMethods evaluates b alive fun v member => ok v (List.mem_of_mem_take member))
    fun t ms first suited => andThen (chooseMethod b call suited) fun u m second chosen => ?_
  cases m with
  | none => exact value fun _ _ => nofun
  | some m =>
    obtain ⟨object, classes, m⟩ := m
    obtain ⟨covered, suits⟩ := chosen _ rfl
    obtain ⟨method, target, position, group, deferred⟩ := m
    cases method with
    | closure id f definedIn =>
      refine andThen (modifying fun S _ s within => ?_) fun x _ third _ => ?_
      · exact (Scope.makes_shareAll values s within).1
      have wider := scope_within (K := K) ((first.trans second).trans third)
      refine map (invokeClosure evaluates ⟨Scope.Covers.mono suits (scope_within third), code.mono wider,
        Scope.CoversAll.mono ok wider, fun d same => ?_⟩) fun S v forced w same => ?_
      · cases same
        exact ⟨covered.mono (scope_within third), wider (.frame env) alive, nofun⟩
      · cases same
        exact forced
    | _ => exact value fun _ _ => nofun

/-! Strict builtins. -/

theorem findBuiltin (name : Name) {id : Nat} (known : (K.scope w).builtin id) :
    K.Tracks w (fun _ b => b ∈ w.builtins.functions) fun _ => findBuiltin name id := by
  refine reading fun s _ extend => ?_
  cases found : s.builtins.functions[id]? with
  | some b => exact value fun _ _ => extend.builtins ▸ Array.mem_of_getElem? found
  | none =>
    refine permitted ⟨fun _ => nofun, fun live => absurd (known live) ?_⟩
    rw [← extend.builtins]
    exact Nat.not_lt_of_le (Array.getElem?_eq_none_iff.mp found)

theorem write (args : Arguments) : K.Tracks w Scope.Covers fun _ => write args :=
  reading fun _ _ _ => andThen (noting fun _ => ⟨rfl, rfl⟩) fun _ _ _ _ => value fun _ _ => Scope.covers_null

theorem stop (call : StrictCall) : K.Tracks w Scope.Covers fun _ => stop call :=
  reading fun _ _ _ => failure rfl

theorem warnBuiltin (call : StrictCall) : K.Tracks w Scope.Covers fun _ => warnBuiltin call :=
  reading fun _ _ _ => andThen (noting fun _ => ⟨rfl, rfl⟩) fun _ _ _ _ => vector rfl

theorem registerMethod {args : Arguments} (held : (K.scope w).CoversAll args.values) :
    K.Tracks w Scope.Covers fun _ => registerMethod args := by
  refine reading fun s _ first => ?_
  refine andThen (lifting (Scope.fine_requiredString args s.store "genname" 0)) fun t generic second _ => ?_
  refine andThen (lifting (Scope.fine_requiredString args s.store "class" 1)) fun u className third _ => ?_
  have late := first.trans (second.trans third)
  refine andThen (lifting (Scope.fine_required (Scope.CoversAll.mono held (scope_within late)) "method" 2))
    fun x method fourth covered => andThen (failIf rfl) fun y _ fifth _ => ?_
  refine andThen (updating (fun z sound sixth => ⟨?_, .same rfl rfl⟩) fun _ up => up) fun _ _ _ _ =>
    value fun _ _ => Scope.covers_null
  have covered : (K.scope z).Covers method :=
    covered.mono (scope_within (fourth.trans (fifth.trans sixth)))
  refine { sound with methods := fun v member => ?_ }
  rcases Table.mem_values_insert member with rfl | old
  · exact covered
  · exact sound.methods v old

theorem defineClass (args : Arguments) : K.Tracks w Scope.Covers fun _ => defineClass args := by
  refine reading fun s _ _ => ?_
  refine andThen (lifting (Scope.fine_requiredString args s.store "Class" 0)) fun _ _ _ _ => ?_
  exact andThen (noting fun _ => ⟨rfl, rfl⟩) fun _ _ _ _ => vector rfl

/-- The function of a generic and the method it starts with may be referred to. -/
def Starts (S : Scope) (r : Value × Option Value) : Prop := S.Covers r.1 ∧ S.CoversAny r.2

theorem genericFunction (evaluates : K.Evaluates ev) (name : Name) {definition : Option Value}
    {call : StrictCall} (alive : (K.scope w).frame call.env) (ok : (K.scope w).CoversAny definition) :
    K.Tracks w Starts fun alarm => genericFunction (ev alarm) name definition call := by
  cases definition with
  | some v =>
    cases v with
    | closure id f env => exact value fun S wider => ⟨(ok _ rfl).mono wider, nofun⟩
    | _ => exact reading fun _ _ _ => failure rfl
  | none =>
    refine andThen (findFunction evaluates name alive) fun t existing _ known => ?_
    cases existing with
    | none => exact failure rfl
    | some existing =>
      have closed (S : Scope) : ∀ r ∈ (skeleton name).references, S.Has r := by
        simp [skeleton, Source.references, SourceFormal.allReferences, Source.optionReferences,
          SourceArg.allReferences]
      refine andThen (storing fun S _ => Scope.keeps_load (closed S)) fun u code second reads => ?_
      refine soundly fun x sound third => ?_
      refine andThen (evaluates x code _ _ (Scope.Spans.mono reads (scope_within third)) sound.global)
        fun y f fourth made => value fun S wider => ⟨made.mono wider, fun v same => ?_⟩
      cases same
      exact (known existing rfl).2.mono ((scope_within (second.trans (third.trans fourth))).trans wider)

theorem coversAll_define {S : Scope} {table : MethodTable} {key : String} {method : Value}
    (ok : S.CoversAll table.methods.values) (covered : S.Covers method) :
    S.CoversAll (table.define key method).methods.values := by
  intro v member
  rcases MethodTable.mem_values_define member with rfl | old
  · exact covered
  · exact ok v old

theorem defineGeneric (evaluates : K.Evaluates ev) (name : Name) {definition : Option Value}
    {call : StrictCall} (alive : (K.scope w).frame call.env) (ok : (K.scope w).CoversAny definition) :
    K.Tracks w Any fun alarm => defineGeneric (ev alarm) name definition call := by
  refine andThen (genericFunction evaluates name alive ok) fun t made _ starts => ?_
  obtain ⟨function, initial⟩ := made
  obtain ⟨covered, start⟩ := starts
  cases function with
  | closure id f env =>
    intro s sound second
    refine Lands.reading (Lands.andThen (Lands.putting ?_ (.same rfl rfl) fun up => up)
      fun u _ _ passes _ => ?_)
    · refine { sound with tables := fun table member => ?_ }
      rcases Array.mem_push.mp member with old | rfl
      · exact sound.tables table old
      · cases initial with
        | none => exact nofun
        | some method =>
          have empty : (K.scope s).CoversAll ({} : MethodTable).methods.values := nofun
          have first : (K.scope s).Covers method := (start method rfl).mono (scope_within second)
          exact coversAll_define empty first
    · have wider := scope_within (K := K) (second.trans passes.onward)
      exact (andThen (defining passes.sound.global name (covered.mono wider)) fun _ _ _ _ =>
        value fun _ _ => trivial).lands passes.sound
  | _ => exact failure rfl

theorem runHost {b : Builtin} {op : HostOp} (args : Arguments) (known : b ∈ w.builtins.functions)
    (strict : b.operation = .strict (.host op)) :
    K.Tracks w Scope.Covers fun _ => runHost op args := by
  cases op with
  | interrupt result =>
    refine andThen (updating (fun s sound _ =>
      ⟨sound.same rfl, .same rfl rfl⟩) fun _ _ => rfl) fun _ _ _ _ => ?_
    cases result with
    | some x => exact vector rfl
    | none => exact value fun _ _ => Scope.covers_null
  | twice =>
    refine reading fun s _ _ => ?_
    exact andThen (lifting (Builtins.fine_twice s.store args)) fun _ _ _ atomic => vector atomic
  | countArguments => exact vector rfl
  | fail f =>
    exact soundly fun s sound extend => permitted (sound.honest b (extend.builtins ▸ known) f strict)

theorem numeric {f : Store → Arguments → Except Failure Elements} {args : Arguments}
    (fine : ∀ s, Scope.Fine Builtins.HoldsNone (f s args)) :
    K.Tracks w Scope.Covers fun _ => numeric f args := by
  refine reading fun s _ _ => ?_
  exact andThen (lifting (fine s.store)) fun _ _ _ atomic => vector atomic

theorem defineGenericBuiltin (evaluates : K.Evaluates ev) {call : StrictCall}
    (alive : (K.scope w).frame call.env) (held : (K.scope w).CoversAll call.args.values) :
    K.Tracks w Scope.Covers fun alarm => defineGenericBuiltin (ev alarm) call := by
  refine reading fun s _ first => ?_
  refine andThen (lifting (Scope.fine_requiredString call.args s.store "name" 0)) fun t name second _ => ?_
  have wider := scope_within (K := K) (first.trans second)
  exact andThen (defineGeneric evaluates name (wider (.frame _) alive)
    ((Scope.CoversAll.mono held wider).argument "def" 1)) fun _ _ _ _ => vector rfl

theorem coversAll_tableAt (sound : K.Sound s) (id : TableId) :
    (K.scope s).CoversAll (s.tableAt id).methods.values := by
  intro v member
  obtain ⟨t, there, held⟩ := Session.mem_methods_tableAt member
  exact sound.tables t there v held

theorem sound_setTable {table : MethodTable} (id : TableId) (sound : K.Sound s)
    (ok : (K.scope s).CoversAll table.methods.values) : K.Sound (s.setTable id table) := by
  refine { sound with tables := fun t member => ?_ }
  rcases Session.mem_tables_setTable member with rfl | old
  · exact ok
  · exact sound.tables t old

theorem enterMethod (name : Name) (classes : List Name) {method : Value} (generic : Generic)
    (covered : (K.scope w).Covers method) :
    K.Tracks w Scope.Covers fun _ => enterMethod name classes method generic := by
  refine andThen (failIf rfl) fun t _ first _ => ?_
  refine andThen (updating (fun s sound second => ⟨?_, .same rfl rfl⟩) fun _ up => up) fun _ _ _ _ =>
    vector rfl
  have covered : (K.scope s).Covers method := covered.mono (scope_within (first.trans second))
  exact sound_setTable _ sound (coversAll_define (coversAll_tableAt sound _) covered)

theorem defineMethod (evaluates : K.Evaluates ev) {call : StrictCall}
    (alive : (K.scope w).frame call.env) (held : (K.scope w).CoversAll call.args.values) :
    K.Tracks w Scope.Covers fun alarm => defineMethod (ev alarm) call := by
  refine reading fun s _ first => ?_
  refine andThen (lifting (Scope.fine_requiredString call.args s.store "f" 0)) fun t name second _ => ?_
  have late := first.trans second
  refine andThen (lifting (Scope.fine_required (Scope.CoversAll.mono held (scope_within late))
    "signature" 1)) fun u signature third _ => ?_
  have late := late.trans third
  refine andThen (lifting (Scope.fine_required (Scope.CoversAll.mono held (scope_within late))
    "definition" 2)) fun x method fourth covered => andThen (failIf rfl) fun y _ fifth _ => ?_
  have late := late.trans (fourth.trans fifth)
  have covered : (K.scope y).Covers method := covered.mono (scope_within (fourth.trans fifth))
  have rest (z : Session) (generic : Generic) (sixth : y.Extends z) (_ : Any (K.scope z) generic) :
      K.Tracks z Scope.Covers fun _ => CallByNeed.enterMethod name
        ((s.store.strings? signature).getD []) method generic :=
    enterMethod name _ generic (covered.mono (scope_within sixth))
  cases known : s.generics.get? name with
  | some generic => exact andThen (value fun _ _ => trivial) rest
  | none => exact andThen (defineGeneric evaluates name (scope_within late (.frame _) alive) nofun) rest

end Tracks

/-! Strict builtins at work. A writer needs to know of the store at hand that it is not refused to store
the vector it writes to, unless refusals are allowed. -/

namespace Lands

open Builtins in
theorem runStrict (evaluates : K.Evaluates ev) {b : Builtin} {op : StrictOp} {call : StrictCall}
    (known : b ∈ s.builtins.functions) (strict : b.operation = .strict op)
    (alive : (K.scope s).frame call.env) (held : (K.scope s).CoversAll call.args.values)
    (sound : K.Sound s) (apart : K.refusing ∨ ¬Breakpoint.refusedSelfWriting.running s.store op call.args) :
    K.Lands s Scope.Covers fun alarm => runStrict (ev alarm) op call := by
  have kept {S : Scope} (wider : (K.scope s).Within S) : S.CoversAll call.args.values :=
    Scope.CoversAll.mono held wider
  have writing {m : StoreM Value} (writer : op.writer? call.args = some m)
      (ends : ∀ lax, lax ∨ ¬Breakpoint.selfWriting.running s.store op call.args →
        (m s.store).2.Within (K.scope s) ∧ Scope.Ends lax (K.scope s).Covers (m s.store).1) :
      K.Lands s Scope.Covers fun _ => onStore m := by
    by_cases self : Breakpoint.selfWriting.running s.store op call.args
    · obtain ⟨within, ends⟩ := ends True (.inl trivial)
      refine .storing sound within ?_
      rcases apart with lax | free
      · simpa only [eq_true lax] using ends
      · exact ends.tighten fun state same => free ⟨self, m, writer, state, same⟩
    · obtain ⟨within, ends⟩ := ends K.refusing (.inr self)
      exact .storing sound within ends
  cases op with
  | setElement => exact writing rfl fun _ => ends_setElement held sound.store
  | setAttribute => exact writing rfl fun _ => ends_setAttribute held sound.store
  | withAttributes => exact writing rfl fun _ => ends_withAttributes held sound.store
  | setClassOf => exact writing rfl fun _ => ends_setClassOf held sound.store
  | combine => exact Tracks.lands (.storing fun S wider => keeps_combine (kept wider)) sound
  | makeList => exact Tracks.lands (.storing fun S wider => keeps_makeList (kept wider)) sound
  | element => exact Tracks.lands (.storing fun S wider => keeps_element (kept wider)) sound
  | length => exact Tracks.lands (.storing fun S _ => keeps_length _) sound
  | identical => exact Tracks.lands (.storing fun S _ => keeps_identical _) sound
  | isNull => exact Tracks.lands (.storing fun S _ => keeps_vector rfl) sound
  | getAttribute => exact Tracks.lands (.storing fun S _ => keeps_getAttribute _) sound
  | classOf =>
    exact Tracks.lands (.reading fun s _ _ => .storing fun S _ => keeps_classOf s.implicit _) sound
  | oldClass => exact Tracks.lands (.storing fun S _ => keeps_oldClass _) sound
  | unclass => exact Tracks.lands (.storing fun S wider => keeps_unclass (kept wider)) sound
  | inherits =>
    exact Tracks.lands (.reading fun s _ _ => .storing fun S _ => keeps_inherits s.implicit _) sound
  | arithmetic op => exact Tracks.lands (.numeric fun s => fine_arithmetic op s _) sound
  | compare op => exact Tracks.lands (.numeric fun s => fine_compare op s _) sound
  | negate => exact Tracks.lands (.numeric fun s => fine_negate s _) sound
  | summary op => exact Tracks.lands (.numeric fun s => fine_summary op s _) sound
  | absolute => exact Tracks.lands (.numeric fun s => fine_absolute s _) sound
  | write => exact (Tracks.write _).lands sound
  | stop => exact (Tracks.stop _).lands sound
  | warn => exact (Tracks.warnBuiltin _).lands sound
  | identity => exact Tracks.lands (.storing fun S wider => keeps_identity (kept wider)) sound
  | registerMethod => exact (Tracks.registerMethod held).lands sound
  | defineClass => exact (Tracks.defineClass _).lands sound
  | defineGeneric => exact (Tracks.defineGenericBuiltin evaluates alive held).lands sound
  | defineMethod => exact (Tracks.defineMethod evaluates alive held).lands sound
  | newObject =>
    exact Tracks.lands (.reading fun s _ first => .storing fun S wider =>
      keeps_newObject s.classes (kept ((scope_within first).trans wider))) sound
  | host op => exact (Tracks.runHost _ known strict).lands sound

/-- Nothing is done to objects before the builtin is at work. -/
theorem runBuiltin (evaluates : K.Evaluates ev) {b : Builtin} {op : StrictOp} {call : Expr}
    {names : List (Option Name)} {values : List Value} {env : EnvId} (known : b ∈ s.builtins.functions)
    (strict : b.operation = .strict op) (alive : (K.scope s).frame env) (code : (K.scope s).Spans call)
    (held : (K.scope s).CoversAll values) (sound : K.Sound s)
    (apart : K.refusing ∨ ¬Breakpoint.refusedSelfWriting.running s.store op ⟨names, values⟩) :
    K.Lands s Scope.Covers fun alarm => runBuiltin (ev alarm) b op call names values env c := by
  have recorded : K.Tracks s Any fun _ => pushRecord (some c) (some call) (.builtin b.name) := by
    refine .recording fun _ _ => ⟨fun e same => ?_, nofun, nofun, nofun, nofun⟩
    cases same
    exact code
  refine .andThen ((Tracks.eagerOnly c).lands sound) fun t eager run _ _ => ?_
  cases run none
  refine .andThen (recorded.lands sound) fun u record run second _ => .releasing _ ?_
  cases run none
  refine .andThen ((Tracks.flagging _ _).lands second.sound) fun x _ run third _ =>
    .attributing call ?_
  cases run none
  have late := second.onward.trans third.onward
  have wider := scope_within (K := K) late
  exact runStrict evaluates (late.builtins ▸ known) strict (wider (.frame env) alive)
    (Scope.CoversAll.mono held wider) third.sound apart

end Lands

/-- A guard is tracked, together with the builtins it lets through. -/
structure Guards (K : Inquiry) (g : Guard) : Prop where
  running {ev : Option (EvalM Unit) → Evaluator} {w : Session} {b : Builtin} {op : StrictOp} {call : Expr}
    {names : List (Option Name)} {values : List Value} {env : EnvId} {c : RecordId} :
    K.Evaluates ev → b ∈ w.builtins.functions → b.operation = .strict op → (K.scope w).frame env →
      (K.scope w).Spans call → (K.scope w).CoversAll values →
        K.Tracks w Scope.Covers fun alarm => g.runBuiltin (ev alarm) b op call names values env c
  replacing {w : Session} {b : Builtin} : b ∈ w.builtins.functions →
    K.Tracks w (fun _ _ => b.isStrict = true ∨ K.settable b) fun _ => g.replacing b

/-- No guard is needed where refusals and special builtins as replacement functions are allowed. -/
theorem guards_idle (lax : K.refusing) (any : ∀ b, K.settable b) : K.Guards .idle where
  running evaluates known strict alive code held _ sound extend :=
    have wider := scope_within (K := K) extend
    Lands.runBuiltin evaluates (extend.builtins ▸ known) strict (wider (.frame _) alive)
      (code.mono wider) (Scope.CoversAll.mono held wider) sound (.inl lax)
  replacing _ := .value fun _ _ => .inr (any _)

open Classical in
/-- A breakpoint at all that is not allowed, with an alarm that may be raised. -/
theorem guards_breakpoint {p : Breakpoint} (f : Failure) (allowed : ∀ r : Registry, K.Allows r f)
    (running : K.refusing ∨ ∀ s op args, Breakpoint.refusedSelfWriting.running s op args → p.running s op args)
    (replacing : ∀ b, p.replacing b ∨ b.isStrict = true ∨ K.settable b) : K.Guards (p.guard (fail f)) where
  running {ev _ b op call names values env c} evaluates known strict alive code held s sound extend := by
    have wider := scope_within (K := K) extend
    have passed : K.Tracks s (fun _ _ => ¬p.running s.store op ⟨names, values⟩) fun _ =>
        if p.running s.store op ⟨names, values⟩ then fail f else pure () :=
      .branch (fun _ => .permitted (allowed _)) fun free => .value fun _ _ => free
    refine Lands.reading (f := fun alarm t => (if p.running t.store op ⟨names, values⟩ then fail f else pure ())
      >>= fun _ => CallByNeed.runBuiltin (ev alarm) b op call names values env c)
      (Lands.andThen (passed.lands sound) fun t _ run _ free => ?_)
    have run := run none
    rw [if_neg free] at run
    cases run
    exact Lands.runBuiltin evaluates (extend.builtins ▸ known) strict (wider (.frame _) alive)
      (code.mono wider) (Scope.CoversAll.mono held wider) sound
      (running.imp_right fun told writing => free (told _ _ _ writing))
  replacing _ := .branch (fun _ => .permitted (allowed _)) fun free =>
    .value fun _ _ => (replacing _).resolve_left free

namespace Tracks

/-- A special builtin called as a strict one is the second way to an internal failure. -/
theorem invokeStrict (guards : K.Guards g) (evaluates : K.Evaluates ev) {b : Builtin} {call : Expr}
    (names : List (Option Name)) {values : List Value} {env : EnvId} (dispatch : Bool)
    (known : b ∈ w.builtins.functions) (fits : b.isStrict = true ∨ K.settable b)
    (alive : (K.scope w).frame env) (code : (K.scope w).Spans call) (held : (K.scope w).CoversAll values) :
    K.Tracks w Scope.Covers fun alarm => g.invokeStrict (ev alarm) b call names values env c dispatch := by
  have rest (t : Session) (dispatched : Option Value) (extend : w.Extends t)
      (ok : (K.scope t).CoversAny dispatched) : K.Tracks t Scope.Covers fun alarm =>
        g.afterDispatch (ev alarm) b call names values env c dispatched := by
    have wider := scope_within (K := K) extend
    have known : b ∈ t.builtins.functions := extend.builtins ▸ known
    unfold Guard.afterDispatch
    cases dispatched with
    | some v => exact value fun S wider => (ok v rfl).mono wider
    | none =>
      cases operation : b.operation with
      | strict op =>
        exact guards.running evaluates known operation (wider (.frame env) alive) (code.mono wider)
          (Scope.CoversAll.mono held wider)
      | special op =>
        have special : b.isStrict = false := by
          unfold Builtin.isStrict
          rw [operation]
        refine permitted ⟨fun _ => nofun, fun _ message same =>
          .inr ⟨b, known, special, ?_, (Failure.internal.inj same).symm⟩⟩
        exact fits.resolve_left fun strict => Bool.false_ne_true (special.symm.trans strict)
  exact branch (fun _ => andThen (dispatchInternal evaluates b names alive code held) rest) fun _ =>
    andThen (value fun _ _ => nofun) rest

/-! Calls with evaluated arguments. -/

theorem applyValues (guards : K.Guards g) (evaluates : K.Evaluates ev) {function : Value} {call : Expr}
    (names : List (Option Name)) {values : List Value} {env : EnvId} (ok : (K.scope w).Covers function)
    (alive : (K.scope w).frame env) (code : (K.scope w).Spans call) (held : (K.scope w).CoversAll values) :
    K.Tracks w Scope.Covers fun alarm => g.applyValues (ev alarm) function call names values env c := by
  cases function with
  | closure id f definedIn => exact invokeClosure evaluates ⟨ok, code, held, nofun⟩
  | builtin name id =>
    refine andThen (findBuiltin name (Scope.covers_builtin.mp ok)) fun t b first known => ?_
    refine andThen (failIf rfl) fun u _ second strict => ?_
    have late := first.trans second
    have wider := scope_within (K := K) late
    exact invokeStrict guards evaluates names true (late.builtins ▸ known) (.inl (by simpa using strict))
      (wider (.frame env) alive) (code.mono wider) (Scope.CoversAll.mono held wider)
  | _ => exact reading fun _ _ _ => failure rfl

theorem sharedVariable (evaluates : K.Evaluates ev) (name : Name) {start : EnvId}
    (alive : (K.scope w).frame start) :
    K.Tracks w Scope.Covers fun alarm => Regime.Conducts.sharedVariable (ev alarm) name c start := by
  refine andThen (lookup alive name) fun t found _ ok => ?_
  rcases found with _ | ⟨foundIn, binding⟩
  · exact failAt rfl
  · refine andThen (resolveBinding evaluates name (ok foundIn binding rfl)) fun u v _ covered => ?_
    refine branch (fun _ => andThen (sharing v) fun x _ third _ => ?_) fun _ =>
      value fun S wider => covered.mono wider
    exact value fun S wider => covered.mono ((scope_within third).trans wider)

theorem replacedValue (evaluates : K.Evaluates ev) {e : Expr} {env : EnvId} (outer : Bool)
    (alive : (K.scope w).frame env) (code : (K.scope w).Spans e) :
    K.Tracks w Scope.Covers fun alarm => replacedValue (ev alarm) e env c outer := by
  unfold CallByNeed.replacedValue
  cases e.symbol? with
  | none => exact evaluates w e env c code alive
  | some name =>
    have rest (t : Session) (start : EnvId) (_ : w.Extends t) (alive : (K.scope t).frame start) :
        K.Tracks t Scope.Covers fun alarm =>
          Regime.Conducts.sharedVariable (ev alarm) name c start := sharedVariable evaluates name alive
    refine branch (fun _ => andThen ?_ rest) fun _ =>
      andThen (value fun _ wider => wider (.frame env) alive) rest
    refine map (Q := fun S parent => S.frame (parent.getD env)) (readingHeap fun s sound extend => ?_)
      fun _ _ ok => ok
    have there := scope_within (K := K) extend (.frame env) alive
    refine (sound.found_parent there).weaken fun parent ok => ?_
    cases parent with
    | none => exact there
    | some p => exact ok p rfl

theorem evalAll (evaluates : K.Evaluates ev) {env : EnvId} {args : List Arg}
    (alive : (K.scope w).frame env) (code : ∀ a ∈ args, (K.scope w).Spans a.value) :
    K.Tracks w Scope.CoversAll fun alarm => evalAll (ev alarm) env c args := by
  induction args generalizing w with
  | nil => exact value fun _ _ => Scope.coversAll_nil
  | cons a rest ih =>
    obtain ⟨first, others⟩ := List.forall_mem_cons.mp code
    obtain ⟨name, e⟩ := a
    refine andThen (evaluates w e env c first alive) fun t v late covered => ?_
    have wider := scope_within (K := K) late
    refine andThen (ih (wider (.frame env) alive) fun a member => (others a member).mono wider)
      fun u vs next all => value fun S further => ?_
    exact Scope.coversAll_cons.mpr ⟨covered.mono ((scope_within next).trans further), all.mono further⟩

theorem replace (guards : K.Guards g) (evaluates : K.Evaluates ev) (name : Name) {current v : Value} {extra : List Arg}
    {env : EnvId} (alive : (K.scope w).frame env) (code : ∀ a ∈ extra, (K.scope w).Spans a.value)
    (old : (K.scope w).Covers current) (new : (K.scope w).Covers v) :
    K.Tracks w Scope.Covers fun alarm => g.replace (ev alarm) name current extra v env c := by
  refine andThen (evalAll evaluates alive code) fun t values first all => ?_
  refine andThen (lookupFunction evaluates _ (scope_within first (.frame env) alive))
    fun u function second callable => ?_
  refine andThen (storing fun S _ => Scope.keeps_seq (Scope.keeps_symbolNode _) fun _ reads =>
    Scope.keeps_callNode reads (List.forall_mem_nil _)) fun x call third code => ?_
  have wider := scope_within (K := K) (first.trans (second.trans third))
  have held : (K.scope x).CoversAll (current :: values ++ [v]) := by
    refine Scope.coversAll_cons.mpr ⟨old.mono wider, Scope.coversAll_append.mpr
      ⟨all.mono (scope_within (second.trans third)), Scope.coversAll_cons.mpr
        ⟨new.mono wider, Scope.coversAll_nil⟩⟩⟩
  have covered := callable.2.mono (scope_within third)
  have alive := wider (.frame env) alive
  cases function with
  | builtin name id =>
    refine andThen (findBuiltin name (Scope.covers_builtin.mp covered)) fun y b fourth known => ?_
    have known : b ∈ y.builtins.functions := fourth.builtins ▸ known
    refine andThen (guards.replacing known) fun z _ fifth fits => ?_
    have wider := scope_within (K := K) (fourth.trans fifth)
    exact invokeStrict guards evaluates _ false (fifth.builtins ▸ known) fits (wider (.frame env) alive)
      (code.mono wider) (Scope.CoversAll.mono held wider)
  | _ => exact applyValues guards evaluates _ covered alive code held

/-- Assignment to a variable or through replacement functions, along the path of the target. -/
theorem assign (guards : K.Guards g) (evaluates : K.Evaluates ev) {target : Expr} {v : Value} {env : EnvId} (outer : Bool)
    (alive : (K.scope w).frame env) (code : (K.scope w).Spans target) (ok : (K.scope w).Covers v) :
    K.Tracks w Any fun alarm => g.assign (ev alarm) env c outer target v := by
  induction bound : sizeOf target using Nat.strong_induction_on generalizing w target v with | _ total ih
  unfold Guard.assign
  cases target with
  | symbol id name => exact assignVariable name outer alive ok
  | call id f args =>
    obtain ⟨_, parts⟩ := Scope.spans_call.mp code
    rcases args with _ | ⟨⟨name, first⟩, extra⟩
    · exact failAt rfl
    · obtain ⟨object, others⟩ := List.forall_mem_cons.mp parts
      cases symbol : f.symbol? with
      | none =>
        dsimp only
        rw [symbol]
        exact failAt rfl
      | some setter =>
        dsimp only
        rw [symbol]
        refine andThen (replacedValue evaluates outer alive object) fun t current late old => ?_
        have wider := scope_within (K := K) late
        refine andThen (replace guards evaluates setter (wider (.frame env) alive)
          (fun a member => (others a member).mono wider) old (ok.mono wider)) fun u updated onward new => ?_
        have wider := scope_within (K := K) (late.trans onward)
        refine ih (sizeOf first) ?_ (wider (.frame env) alive) (object.mono wider) new rfl
        rw [← bound]
        exact Expr.sizeOf_arg (a := ⟨name, first⟩) List.mem_cons_self
  | _ => exact failAt rfl

end Tracks
end Inquiry
end CallByNeed
