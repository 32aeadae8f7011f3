import CallByNeed.Proofs.Definitions
import CallByNeed.Proofs.NearestMethod
import CallByNeed.Proofs.Registered

/-!
Methods for all classes. A definition for nothing but the class for everything, and a generic made from a
function that is there, give the table of the generic an entry that fits all arguments and that nothing takes
away. A dispatch on arguments of any classes then finds a method, that one or a nearer one. Where the generic
dispatches on no formals the entry is kept under one class all the same; a dispatch without arguments does not
look there, and finds only what the class of the empty name has or what its call site remembers.
-/
namespace CallByNeed

/-! The search. -/

theorem ClassRegistry.exists_fits_any (r : ClassRegistry) (chain : List Name) : ∃ d, r.Fits chain anyClass d := by
  classical
  by_cases reached : ∃ n, r.Reaches chain anyClass n
  · refine ⟨Nat.find reached, .inherited ⟨Nat.find_spec reached, ?_⟩⟩
    intro n other
    exact Nat.find_min' reached other
  · exact ⟨_, .any (not_exists.mp reached) (r.furthest_isLUB chain)⟩

/-- The class for everything, taken for each argument, is one of the combinations. -/
theorem ClassRegistry.exists_combines_any (r : ClassRegistry) (chains : List (List Name)) :
    ∃ c, r.Combines chains c ∧ c.map (·.1) = List.replicate chains.length anyClass := by
  induction chains with
  | nil => exact ⟨[], .nil, rfl⟩
  | cons chain chains ih =>
    obtain ⟨d, fits⟩ := r.exists_fits_any chain
    obtain ⟨c, combines, names⟩ := ih
    exact ⟨(anyClass, d) :: c, .cons fits combines, congrArg (anyClass :: ·) names⟩

theorem mem_triedKeys {r : ClassRegistry} {chains : List (List Name)} {c : List (Name × Nat)}
    (some : chains ≠ []) (combines : r.Combines chains c) : dispatchKey (c.map (·.1)) ∈ triedKeys r chains := by
  have nonempty : chains.isEmpty = false := by simp [some]
  unfold triedKeys
  rw [nonempty]
  exact List.mem_cons_of_mem _ (List.mem_map_of_mem (ClassRegistry.mem_ordered_iff.mpr combines))

/-- With a method for all classes a search for the classes of as many arguments as the signature has finds
one, unless there are none. -/
theorem MethodTable.search_eq_none_iff {t : MethodTable} {r : ClassRegistry} {chains : List (List Name)}
    {signature : List Name} (there : (t.peek? (anyKey signature)).isSome)
    (complete : chains.length = signature.length) :
    t.search r chains = none ↔ signature = [] ∧ t.peek? "" = none := by
  by_cases empty : chains = []
  · subst empty
    have formals : signature = [] := List.eq_nil_of_length_eq_zero complete.symm
    have only : triedKeys r [] = [""] := rfl
    simp [search, only, formals]
  · have formals : signature ≠ [] := by
      rintro rfl
      exact empty (List.eq_nil_of_length_eq_zero complete)
    have positive : 1 ≤ signature.length := List.length_pos_iff.mpr formals
    obtain ⟨c, combines, names⟩ := r.exists_combines_any chains
    have key : dispatchKey (c.map (·.1)) = anyKey signature := by
      unfold anyKey
      rw [names, complete, Nat.max_eq_left positive]
    have tried := mem_triedKeys empty combines
    rw [key] at tried
    constructor
    · intro missed
      have passed := List.findSome?_eq_none_iff.mp missed _ tried
      rw [passed] at there
      cases there
    · rintro ⟨bare, -⟩
      exact absurd bare formals

/-- A dispatch finds no method if and only if its call site remembers none and the table has none. -/
theorem formalDispatch_notFound_iff {r : ClassRegistry} {generic : Name} {classes : List ClassView}
    {t : MethodTable} {cache : DispatchCache} :
    (formalDispatch .superclasses r generic classes t cache).1 = .notFound ↔
      (cache.lookup generic classes ⟨t.version, []⟩).1 = none ∧
        t.search r (DispatchCache.nameLists classes) = none := by
  rcases looked : cache.lookup generic classes ⟨t.version, []⟩ with ⟨_ | m, after⟩
  · rw [formalDispatch_miss (congrArg Prod.fst looked), TableHistory.formalDispatch_due]
    unfold due
    cases t.search r (DispatchCache.nameLists classes) with
    | none => simp [DispatchResult.ofSearch]
    | some method => simp [DispatchResult.ofSearch_some_ne]
  · have hit : (formalDispatch .superclasses r generic classes t cache).1 = .of m.method m.deferred := by
      simp only [formalDispatch, looked]
    rw [hit]
    cases m.deferred <;> simp [DispatchResult.of]

/-! The entry of a generic. -/

theorem padClasses_any {classes : List Name} {length : Nat} (any : ∀ className ∈ classes, className = anyClass)
    (fits : classes.length ≤ length) : padClasses classes length = List.replicate length anyClass := by
  unfold padClasses
  rw [List.eq_replicate_of_mem any, List.replicate_append_replicate, List.length_replicate]
  congr 1
  omega

namespace Session

variable {o p q s t u : Session} {g : Generic} {key : String}

/-- A generic that is made is entered with its first method, and neither is touched by the rest. -/
theorem defineGeneric_ok {ev : Evaluator} {name : Name} {definition : Option Value} {c : StrictCall}
    (run : defineGeneric ev name definition c s = (.ok g, t)) :
    ∃ f default v u, genericFunction ev name definition c s = (.ok (v, default), u) ∧
      g = (Law.enterGeneric name f default c.args u).1 ∧
        t.generics = (Law.enterGeneric name f default c.args u).2.generics ∧
          t.tables = (Law.enterGeneric name f default c.args u).2.tables := by
  obtain ⟨⟨v, default⟩, u, made, run⟩ := parts_of_bind run
  cases v with
  | closure id f env =>
    obtain ⟨generic, w, entered, run⟩ := parts_of_bind (m := modifyGet (Law.enterGeneric name f default c.args))
      (f := fun generic => do define Session.global name (.closure id f env); pure generic) run
    cases entered
    obtain ⟨_, x, bound, run⟩ := parts_of_bind run
    cases run
    rw [define_apply] at bound
    split at bound
    · cases bound
      exact ⟨f, default, _, u, made, rfl, rfl, rfl⟩
    · cases bound
  | _ => cases run

/-- A generic made from a function that is there has a method for all classes. -/
theorem defineGeneric_defined {ev : Evaluator} {name : Name} {c : StrictCall}
    (run : defineGeneric ev name none c s = (.ok g, t)) :
    t.generics.get? name = some g ∧ g.table.index < t.tables.size ∧
      (t.tableAt g.table).Defined (anyKey g.signature) := by
  obtain ⟨f, default, v, u, made, rfl, generics, tables⟩ := defineGeneric_ok run
  have existing : ∃ method, default = some method := by
    obtain ⟨found, _, _, made⟩ := parts_of_bind made
    cases found with
    | none => cases made
    | some method =>
      obtain ⟨_, _, _, made⟩ := parts_of_bind made
      obtain ⟨_, _, _, made⟩ := parts_of_bind made
      cases made
      exact ⟨method, rfl⟩
  obtain ⟨method, rfl⟩ := existing
  refine ⟨?_, ?_, ?_⟩
  · rw [generics]
    simp [Law.enterGeneric, Table.get?_insert]
  · rw [tables]
    simp [Law.enterGeneric]
  · have table : t.tableAt (Law.enterGeneric name f (some method) c.args u).1.table =
        ({} : MethodTable).define (anyKey (Law.enterGeneric name f (some method) c.args u).1.signature) method := by
      unfold tableAt
      rw [tables]
      simp [Law.enterGeneric]
    rw [table]
    exact MethodTable.defined_define _ _ _

theorem enterMethod_ok {name : Name} {classes : List Name} {method v : Value}
    (run : enterMethod name classes method g s = (.ok v, t)) :
    classes.length ≤ max g.signature.length 1 ∧ t.generics = s.generics ∧
      t.tables = (s.setTable g.table ((s.tableAt g.table).define
        (dispatchKey (padClasses classes (max g.signature.length 1))) method)).tables := by
  unfold enterMethod at run
  obtain ⟨_, _, passed, stored⟩ := parts_of_bind run
  obtain ⟨fits, rfl⟩ := failIf_ok passed
  cases stored
  exact ⟨Nat.le_of_not_lt (of_decide_eq_false fits), rfl, rfl⟩

/-- A definition of a method enters it for the generic that is there, or else for one that it makes. -/
theorem defineMethod_ok {ev : Evaluator} {c : StrictCall} {v given : Value} {name : Name}
    (named : c.args.requiredString s.store "f" 0 = .ok name) (signed : c.args.required "signature" 1 = .ok given)
    (run : defineMethod ev c s = (.ok v, t)) :
    ∃ generic method u, (s.generics.get? name = some generic ∧ u = s ∨
        defineGeneric ev name none c s = (.ok generic, u)) ∧
      enterMethod name ((s.store.strings? given).getD []) method generic u = (.ok v, t) := by
  rw [defineMethod_eq, get_bind, named, signed] at run
  obtain ⟨_, _, read, afterName⟩ := parts_of_bind run
  cases read
  obtain ⟨_, _, read, afterSignature⟩ := parts_of_bind afterName
  cases read
  obtain ⟨method, _, read, afterMethod⟩ := parts_of_bind afterSignature
  obtain ⟨-, rfl⟩ := liftExcept_ok read
  obtain ⟨_, _, passed, rest⟩ := parts_of_bind afterMethod
  obtain ⟨-, rfl⟩ := failIf_ok passed
  dsimp only at rest
  cases known : s.generics.get? name with
  | some generic =>
    rw [known] at rest
    exact ⟨generic, method, s, .inl ⟨rfl, rfl⟩, rest⟩
  | none =>
    rw [known] at rest
    obtain ⟨generic, u, made, stored⟩ := parts_of_bind rest
    exact ⟨generic, method, u, .inr made, stored⟩

/-- An evaluation gives a generic a method for all classes: it defines a method for no other class than the
one for everything, or makes the generic from a function that is there. -/
inductive GivesAny (p : Session) (g : Generic) : Session → Prop
  | method {q : Session} {depth : Nat} {c : StrictCall} {name : Name} {given v : Value}
    (named : c.args.requiredString p.store "f" 0 = .ok name)
    (signed : c.args.required "signature" 1 = .ok given)
    (any : ∀ className ∈ (p.store.strings? given).getD [], className = anyClass)
    (run : defineMethod (eval depth) c p = (.ok v, q)) (known : q.generics.get? name = some g) : GivesAny p g q
  | generic {q : Session} {depth : Nat} {c : StrictCall} {name : Name}
    (run : defineGeneric (eval depth) name none c p = (.ok g, q)) : GivesAny p g q

theorem GivesAny.of_ok {depth : Nat} {c : StrictCall} {name : Name} {given : Value}
    (named : c.args.requiredString p.store "f" 0 = .ok name) (signed : c.args.required "signature" 1 = .ok given)
    (any : ∀ className ∈ (p.store.strings? given).getD [], className = anyClass)
    (ok : (defineMethod (eval depth) c p).1.toOption.isSome)
    (known : (defineMethod (eval depth) c p).2.generics.get? name = some g) :
    p.GivesAny g (defineMethod (eval depth) c p).2 := by
  rcases outcome : defineMethod (eval depth) c p with ⟨_ | v, q⟩
  · rw [outcome] at ok
    cases ok
  · rw [outcome] at known
    exact .method named signed any outcome known

variable {options : Options}

theorem GivesAny.run (gives : p.GivesAny g q) (attained : Attained options p) : (start options).Run p q := by
  cases gives with
  | @method depth c name given v named signed any run known =>
    have runs : (start options).Run p (defineMethod (eval depth) c p).2 :=
      Runs.plain.holds_defineMethod (Runs.evaluating depth) c _ _ attained
    rwa [run] at runs
  | @generic depth c name run =>
    have runs : (start options).Run p (defineGeneric (eval depth) name none c p).2 :=
      Runs.plain.holds_defineGeneric (Runs.evaluating depth) name none c _ _ attained
    rwa [run] at runs

theorem GivesAny.defined (gives : p.GivesAny g q) (attained : Attained options p) :
    (q.tableAt g.table).Defined (anyKey g.signature) := by
  cases gives with
  | generic run => exact (defineGeneric_defined run).2.2
  | @method depth c name given v named signed any run known =>
    obtain ⟨generic, method, u, found, run⟩ := defineMethod_ok named signed run
    obtain ⟨fits, generics, tables⟩ := enterMethod_ok run
    have entered : u.generics.get? name = some generic ∧ generic.table.index < u.tables.size := by
      rcases found with ⟨there, rfl⟩ | made
      · exact ⟨there, attained.inside there (Run.refl (o := start options) _)⟩
      · obtain ⟨there, inside, -⟩ := defineGeneric_defined made
        exact ⟨there, inside⟩
    rw [generics, entered.1] at known
    cases known
    have key : dispatchKey (padClasses ((p.store.strings? given).getD []) (max g.signature.length 1)) =
        anyKey g.signature := by
      rw [padClasses_any any fits]
      rfl
    have table : q.tableAt g.table = (u.tableAt g.table).define (anyKey g.signature) method := by
      rw [← key]
      unfold tableAt at tables ⊢
      rw [tables]
      exact (tableAt_setTable _ _ _ _).trans (if_pos ⟨rfl, entered.2⟩)
    rw [table]
    exact MethodTable.defined_define _ _ _

/-! The entry stays. -/

theorem Change.defined {id : TableId} (change : s.Change t) (defined : (s.tableAt id).Defined key) :
    (t.tableAt id).Defined key := by
  have same (same : s.SameMemory t) : (t.tableAt id).Defined key := by
    unfold tableAt at defined ⊢
    rwa [same.tables]
  cases change with
  | enters enters =>
    cases enters with
    | nothing kept => exact same kept
    | method => exact defined
    | generic name signature table =>
      have inside : id.index < s.tables.size := by
        by_contra outside
        have absent : s.tableAt id = {} := by
          unfold tableAt
          rw [Array.getElem?_eq_none (Nat.le_of_not_lt outside)]
          rfl
        rw [absent] at defined
        cases defined.1
      unfold tableAt at defined ⊢
      rwa [Array.getElem?_push_lt inside, ← Array.getElem?_eq_getElem inside]
    | formal other k method =>
      rw [tableAt_setTable]
      split
      · rename_i here
        rw [here.1]
        exact defined.define k method
      · exact defined
  | consults => exact defined
  | binds _ _ _ _ kept | frames _ _ kept | collects kept | registers _ _ _ kept => exact same kept

theorem selectFormal_defined {id : TableId} (chains : List VectorId) (site : NodeId) (other : Generic)
    (defined : (s.tableAt id).Defined key) : ((selectFormal other chains site s).2.tableAt id).Defined key := by
  rw [selectFormal_tables, tableAt_setTable]
  split
  · rename_i here
    rw [← here.1] at defined
    exact defined.leaves (MethodTable.formalDispatch_leaves _ _ _ _ _ _)
  · exact defined

/-- Nothing in a history takes a defined entry away. -/
theorem Run.defined {id : TableId} (run : Run o s t) (defined : (s.tableAt id).Defined key) :
    (t.tableAt id).Defined key := by
  induction run with
  | refl => exact defined
  | change _ change ih => exact change.defined (ih defined)
  | remembered generic chain scope _ site _ _ _ _ ih => exact ih defined
  | dispatched chains site _ _ _ _ ih => exact selectFormal_defined chains site _ (ih defined)

/-! The call. -/

theorem signatureChains_length {ev : Evaluator} {env : EnvId} {caller : RecordId} {signature : List Name}
    {chains : List VectorId} (run : signatureChains ev env caller signature s = (.ok chains, t)) :
    chains.length = signature.length := by
  induction signature generalizing s chains with
  | nil =>
    cases run
    rfl
  | cons formal rest ih =>
    obtain ⟨v, u, _, afterFirst⟩ := parts_of_bind run
    obtain ⟨later, w, others, last⟩ := parts_of_bind
      (m := signatureChains ev env caller rest) (f := fun later => pure (u.classOf v :: later)) afterFirst
    cases last
    exact congrArg (· + 1) (ih others)

/-- What a generic does with the outcome of its dispatch. -/
def proceed (ev : Evaluator) (name : Name) (g : Generic) (chains : List VectorId) (frame : Record)
    (env : EnvId) (c : SpecialCall) (result : DispatchResult) : EvalM Value := do
  let (supplied, parent, call) := frameCall frame c.call
  match result with
  | .found (.closure id f definedIn) =>
    invokeClosure ev (.closure id f definedIn) f definedIn call supplied parent none
  | .found method | .deferred method => callDefaultMethod ev method call supplied env parent
  | .notFound =>
    let signature := signatureText (← get).store g.signature chains
    fail (.raise .dispatchNotFound
      (s!"unable to find an inherited method for function '{name}' " ++ s!"for signature '{signature}'"))

theorem standardGeneric_apply {ev : Evaluator} {name : Name} {c : SpecialCall} {frame : Record} {env : EnvId}
    {chains : List VectorId} (known : s.generics.get? name = some g)
    (called : s.records.logicalFunction c.caller = some frame) (inside : frame.env? = some env)
    (signed : signatureChains ev env c.caller g.signature s = (.ok chains, t)) :
    standardGeneric ev name c s = proceed ev name g chains frame env c
      (t.dispatchFormal g chains (t.site c.call.id).cache).1 (selectFormal g chains c.call.id t).2 := by
  unfold standardGeneric
  rw [get_bind, known]
  dsimp only
  rw [called, Option.bind_some, inside]
  dsimp only
  rw [bind_apply, signed]
  rfl

/-- Where no argument is dispatched on, there is no method to be had: the call site remembers none, and the
class of the empty name has none. -/
def Bare (s : Session) (g : Generic) (site : NodeId) : Prop :=
  ((s.site site).cache.lookup g.name [] ⟨(s.tableAt g.table).version, []⟩).1 = none ∧
    (s.tableAt g.table).peek? "" = none

/-- Once a generic was given a method for all classes, each call of it selects a method and proceeds with it,
whatever the classes of its arguments and whichever of them are missing, unless it dispatches on no formals. -/
theorem Attained.any_method_selected {depth : Nat} {name : Name} {c : SpecialCall} {frame : Record}
    {env : EnvId} {chains : List VectorId} (attained : Attained options p) (gives : p.GivesAny g q)
    (later : (start options).Run q s) (known : s.generics.get? name = some g)
    (called : s.records.logicalFunction c.caller = some frame) (inside : frame.env? = some env)
    (signed : signatureChains (eval depth) env c.caller g.signature s = (.ok chains, t))
    (superclasses : t.resolver = .superclasses) :
    ∃ result, standardGeneric (eval depth) name c s =
        proceed (eval depth) name g chains frame env c result (selectFormal g chains c.call.id t).2 ∧
      (result = .notFound ↔ g.signature = [] ∧ t.Bare g c.call.id) := by
  have begun : Attained options s := (Run.trans attained (gives.run attained)).trans later
  have arguments : (start options).Run s t := by
    have runs : (start options).Run s (signatureChains (eval depth) env c.caller g.signature s).2 :=
      Runs.plain.holds_signatureChains (Runs.evaluating depth) _ _ _ _ _ begun
    rwa [signed] at runs
  have defined : (t.tableAt g.table).Defined (anyKey g.signature) :=
    arguments.defined (later.defined (gives.defined attained))
  refine ⟨_, standardGeneric_apply known called inside signed, ?_⟩
  have complete : (DispatchCache.nameLists (chains.map t.classView)).length = g.signature.length := by
    simp [DispatchCache.nameLists, signatureChains_length signed]
  have empty (formals : g.signature = []) : chains = [] := by
    have length := signatureChains_length signed
    rw [formals] at length
    exact List.eq_nil_of_length_eq_zero length
  unfold dispatchFormal
  rw [superclasses, formalDispatch_notFound_iff, MethodTable.search_eq_none_iff defined.1 complete]
  constructor
  · rintro ⟨missed, formals, unnamed⟩
    rw [empty formals] at missed
    exact ⟨formals, missed, unnamed⟩
  · rintro ⟨formals, missed, unnamed⟩
    rw [empty formals]
    exact ⟨missed, formals, unnamed⟩

theorem defineIn_generics (env : EnvId) (name : Name) (v : Value) (s : Session) :
    (defineIn env name v s).2.generics = s.generics := by
  unfold defineIn
  split <;> rfl

/-- A generic of two formals with a method for one class, the one for everything, which stands for both. It is
called with the second argument only. -/
theorem missing_argument_selects :
    let named := Store.addVector ⟨.character ["g"], {}, .shared⟩ (start {}).store
    let any := Store.addVector ⟨.character ["ANY"], {}, .shared⟩ named.2
    let setGeneric : Expr := .call ⟨0⟩ (.symbol ⟨1⟩ "setGeneric") [⟨none, .constant ⟨2⟩ (.vector named.1)⟩,
      ⟨none, .function ⟨⟨3⟩, [⟨"x", none⟩, ⟨"y", none⟩], .constant ⟨4⟩ .null⟩⟩]
    let frame := (start {}).records.push none none (.function global .null {} none)
    let p := (evalIn setGeneric global { start {} with store := any.2, records := frame.2 }).2
    let setMethod : StrictCall :=
      ⟨⟨[none, none, none], [.vector named.1, .vector any.1, .builtin "length" 0]⟩, global, ⟨0⟩⟩
    let q := (defineMethod (eval 0) setMethod p).2
    let s := (defineIn global "y" .null q).2
    let c : SpecialCall := ⟨.constant ⟨5⟩ .null, [], global, frame.1⟩
    ∃ g record chains, p.GivesAny g q ∧ s.generics.get? "g" = some g ∧ g.signature = ["x", "y"] ∧
      s.records.logicalFunction c.caller = some record ∧ record.env? = some global ∧
        (signatureChains (eval 0) global c.caller g.signature s).1 = .ok chains ∧
          chains.map s.store.classNames = [["missing"], ["NULL"]] ∧
            ∃ result, standardGeneric (eval 0) "g" c s = proceed (eval 0) "g" g chains record global c result
                (selectFormal g chains c.call.id (signatureChains (eval 0) global c.caller g.signature s).2).2 ∧
              result ≠ .notFound := by
  intro named any setGeneric frame p setMethod q s c
  have storing (s : Session) : (start {}).Run s { s with store := any.2, records := frame.2 } := .of_same rfl rfl {}
  have attained : Attained {} p := Run.trans (storing _) (run_evalIn (storing _) setGeneric global)
  have later : (start {}).Run q s := run_defineIn global "y" .null q
  have set : (defineMethod (eval 0) setMethod p).1.toOption.isSome = true := by decide +kernel
  have made : (s.generics.get? "g").map (·.signature) = some ["x", "y"] := by decide +kernel
  have framed : (s.records.logicalFunction c.caller).map (·.env?) = some (some global) := by decide +kernel
  have classes : (signatureChains (eval 0) global c.caller ["x", "y"] s).1.toOption.map
      (·.map s.store.classNames) = some [["missing"], ["NULL"]] := by decide +kernel
  have superclasses : (signatureChains (eval 0) global c.caller ["x", "y"] s).2.resolver = .superclasses := by
    decide +kernel
  obtain ⟨g, known, signature⟩ := Option.map_eq_some_iff.mp made
  obtain ⟨record, called, inside⟩ := Option.map_eq_some_iff.mp framed
  have gives : p.GivesAny g q := by
    have named : setMethod.args.requiredString p.store "f" 0 = .ok "g" := by decide +kernel
    have signed : setMethod.args.required "signature" 1 = .ok (.vector any.1) := rfl
    have classes : p.store.strings? (.vector any.1) = some ["ANY"] := by decide +kernel
    have generics : s.generics = q.generics := defineIn_generics global "y" .null q
    rw [generics] at known
    apply GivesAny.of_ok named signed _ set known
    intro className listed
    rw [classes] at listed
    exact List.mem_singleton.mp listed
  rcases evaluated : signatureChains (eval 0) global c.caller ["x", "y"] s with ⟨answer, t⟩
  rw [evaluated] at classes superclasses
  cases answer with
  | error failure => cases classes
  | ok chains =>
    have signed : signatureChains (eval 0) global c.caller g.signature s = (.ok chains, t) := by
      rw [signature]
      exact evaluated
    obtain ⟨result, proceeds, missed⟩ :=
      attained.any_method_selected gives later known called inside signed superclasses
    refine ⟨g, record, chains, gives, known, signature, called, inside, congrArg Prod.fst signed,
      Option.some.inj classes, result, ?_, ?_⟩
    · rw [signed]
      exact proceeds
    · intro none
      have formals := (missed.mp none).1
      rw [signature] at formals
      cases formals

/-- Without formals to dispatch on, the method for all classes is not found. -/
example : (formalDispatch .superclasses .basic "g" [] (({} : MethodTable).define (anyKey []) .null) {}).1 =
    .notFound := by
  rw [formalDispatch_notFound_iff]
  decide +kernel

end Session
end CallByNeed
