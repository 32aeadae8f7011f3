import CallByNeed.Proofs.NextMethod

/-!
Going on to the next method ends. A method is at a class of the object or, after the classes, at the default;
each call for the next one searches past it. The builtin that is taken as a last resort is past the default and
runs without a record that a call for a further method could go on from. So the methods of one dispatch come
in the order of the classes, and there are at most as many more as there are classes and a builtin ahead.
-/
namespace CallByNeed

/-- The classes that methods are at, those of the default and the builtin left out, in the order of the list. -/
theorem visited_sublist (classes : List Name) {positions : List Nat} (start : Nat)
    (ahead : ∀ i ∈ positions, start ≤ i) (increasing : positions.Pairwise (· < ·)) :
    (positions.filterMap (classes[·]?)).Sublist (classes.drop start) := by
  induction positions generalizing start with
  | nil => exact List.nil_sublist _
  | cons i rest ih =>
    obtain ⟨first, increasing⟩ := List.pairwise_cons.mp increasing
    have later := ih (i + 1) first increasing
    have here : start ≤ i := ahead i List.mem_cons_self
    cases there : classes[i]? with
    | none =>
      rw [List.filterMap_cons_none there]
      exact later.trans (List.drop_sublist_drop_left classes (Nat.le_succ_of_le here))
    | some name =>
      rw [List.filterMap_cons_some there]
      obtain ⟨inside, rfl⟩ := List.getElem?_eq_some_iff.mp there
      refine List.Sublist.trans ?_ (List.drop_sublist_drop_left classes here)
      rw [List.drop_eq_getElem_cons inside]
      exact later.cons_cons _

namespace Session

variable {options : Options} {s t : Session} {d : DispatchContext} {m : CachedMethod}

/-- That a method is a closure, at a class of the object or at the default. -/
def Warrant.placed (options : Options) : Warrant options where
  Says _ f d := (∃ id g definedIn, f = .closure id g definedIn) ∧ d.position ≤ d.classes.length
  Fit := Classed
  onward placed _ := placed
  undisturbed := Classed.undisturbed
  first selected closure := by
    obtain ⟨q, v, classed, classes⟩ := selected.classes
    exact ⟨⟨_, _, _, closure⟩, (selected.within (classes ▸ classed.classNames_ne_nil v)).closure closure⟩
  next _ _ found closure := ⟨⟨_, _, _, closure⟩, (within_of_found found).closure closure⟩

/-- Every record that tells the state of a dispatch is that of a closure, at a class of the object or at the
default. -/
abbrev Placed (options : Options) (s : Session) : Prop := (Warrant.placed options).Kept s

theorem placed_start (options : Options) : Placed options (start options) :=
  ⟨classed_start options, fun r member => by rw [no_records_start] at member; cases member⟩

theorem Placed.of_dispatch {c : SpecialCall} {frame : Record} (placed : Placed options s)
    (runs : s.records.logicalFunction c.caller = some frame) (dispatched : frame.dispatch? = some d) :
    (∃ id f definedIn, frame.function? = some (.closure id f definedIn)) ∧ d.position ≤ d.classes.length := by
  obtain ⟨f, runs_f, method⟩ := method?_of_dispatch? dispatched
  obtain ⟨⟨id, g, definedIn, rfl⟩, position⟩ :=
    placed.methods frame (Records.mem_of_logicalFunction runs) f d method
  exact ⟨⟨id, g, definedIn, runs_f⟩, position⟩

/-- How a dispatch runs a method that it came to. A closure is at a class of the object or at the default, and
runs under a record of its own in the state reached. What is past the default is a builtin, and a builtin runs
without the state. -/
structure RunsAt (options : Options) (s : Session) (d : DispatchContext) (m : CachedMethod) : Prop where
  closure : ∀ id f definedIn, m.method = .closure id f definedIn → m.position ≤ d.classes.length ∧
    ∀ parent call env supplied, Placed options
      (pushRecord parent call (.function env m.method supplied (some (d.reaching m))) s).2
  past : d.classes.length < m.position → ∃ name id, m.method = .builtin name id
  builtin : ∀ name id, m.method = .builtin name id → ∀ ev call supplied parent,
    callMethod ev m.method call supplied parent (d.reaching m) =
      callDefaultMethod ev m.method call supplied d.callEnv parent

theorem runsAt_of_within (placed : Placed options s) (within : Within m d.classes.length) :
    RunsAt options s d m where
  closure id f definedIn closure := by
    have within := within.closure closure
    refine ⟨within, fun parent call env supplied => ⟨placed.fit.undisturbed (.of_same rfl rfl), ?_⟩⟩
    intro r member g e runs
    rcases List.mem_cons.mp member with rfl | old
    · cases runs
      exact ⟨⟨id, f, definedIn, closure⟩, within⟩
    · exact placed.methods r old g e runs
  past beyond := within.resolve_left (Nat.not_le_of_lt beyond)
  builtin name id builtin ev call supplied parent := by
    rw [builtin]
    rfl

/-- A method found past the one that runs. -/
theorem advances {ev : Evaluator} {caller : RecordId} {q : Session}
    (found : (findMethod ev (d.search d.group) (d.position + 1) caller q).1 = .ok (some m))
    (position : d.position ≤ d.classes.length) :
    d.position < m.position ∧ m.position ≤ d.classes.length + 1 := by
  rcases findMethod_position found with ⟨later, within⟩ | ⟨-, last⟩
  · exact ⟨later, Nat.le_succ_of_le within⟩
  · change m.position = d.classes.length + 1 at last
    omega

/-- Calls for the next method one inside the other: the first is made from a record of `f`, each comes to a
method, and the one that follows is made from a record of that method. -/
inductive Succession (options : Options) : Value → DispatchContext → List CachedMethod → Prop
  | done (f : Value) (d : DispatchContext) : Succession options f d []
  | call {s : Session} {c : SpecialCall} {frame : Record} {f : Value} {d : DispatchContext} {depth : Nat}
    {m : CachedMethod} {further : List CachedMethod} (placed : Placed options s)
    (running : s.records.logicalFunction c.caller = some frame) (function : frame.function? = some f)
    (dispatched : frame.dispatch? = some d)
    (found : (findMethod (eval depth) (d.search d.group) (d.position + 1) c.caller s).1 = .ok (some m))
    (onward : Succession options m.method (d.reaching m) further) : Succession options f d (m :: further)

/-- The positions of methods go up from that of `d`, to the builtin at most, and so there is a bound on their
number. Only the last one may be a builtin, and no class is come to twice. -/
structure Ascends (d : DispatchContext) (methods : List CachedMethod) : Prop where
  increasing : (d.position :: methods.map (·.position)).Pairwise (· < ·)
  bounded : ∀ m ∈ methods, m.position ≤ d.classes.length + 1
  count : methods.length ≤ d.classes.length + 1 - d.position
  closures : ∀ m ∈ methods.dropLast, ∃ id f definedIn, m.method = .closure id f definedIn
  visited : ((d.position :: methods.map (·.position)).filterMap (d.classes[·]?)).Sublist d.classes

theorem Succession.closure {f : Value} {further : List CachedMethod}
    (succession : Succession options f d (m :: further)) :
    (∃ id g definedIn, f = .closure id g definedIn) ∧ d.position ≤ d.classes.length := by
  cases succession with
  | call placed running function dispatched _ _ =>
    obtain ⟨⟨id, g, definedIn, known⟩, position⟩ := placed.of_dispatch running dispatched
    exact ⟨⟨id, g, definedIn, Option.some.inj (function.symm.trans known)⟩, position⟩

/-- Each call advances, so a whole succession of them does. -/
theorem Succession.ascends {f : Value} {methods : List CachedMethod}
    (succession : Succession options f d methods) : Ascends d methods := by
  suffices rest : (d.position :: methods.map (·.position)).Pairwise (· < ·) ∧
      (∀ m ∈ methods, m.position ≤ d.classes.length + 1) ∧
        methods.length ≤ d.classes.length + 1 - d.position ∧
          ∀ m ∈ methods.dropLast, ∃ id f definedIn, m.method = .closure id f definedIn by
    obtain ⟨increasing, bounded, count, closures⟩ := rest
    exact ⟨increasing, bounded, count, closures,
      visited_sublist d.classes 0 (fun _ _ => Nat.zero_le _) increasing⟩
  induction succession with
  | done f d => exact ⟨List.pairwise_singleton _ _, nofun, Nat.zero_le _, nofun⟩
  | @call s c frame f d depth m further placed running function dispatched found onward ih =>
    obtain ⟨-, position⟩ := placed.of_dispatch running dispatched
    obtain ⟨later, within⟩ := advances found position
    obtain ⟨increasing, bounded, count, closures⟩ := ih
    change further.length ≤ d.classes.length + 1 - m.position at count
    refine ⟨List.pairwise_cons.mpr ⟨fun i member => ?_, increasing⟩, List.forall_mem_cons.mpr ⟨within, bounded⟩,
      ?_, ?_⟩
    · rcases List.mem_cons.mp member with rfl | beyond
      · exact later
      · exact Nat.lt_trans later (List.rel_of_pairwise_cons increasing beyond)
    · rw [List.length_cons]
      omega
    · cases further with
      | nil => exact nofun
      | cons n further => exact List.forall_mem_cons.mpr ⟨onward.closure.1, closures⟩

open Warranting in
/-- The methods that a dispatch comes to, in whatever session, at the end of an evaluation or where a method
starts to run in the midst of one. What it begins with and what calls for the next method come to is at a class
of the object or the default, or it is a builtin that runs without a record to go on from. Each call for the
next method comes to a later one, so the calls end. -/
theorem next_method_advances (attained : Attained options s) (placed : Placed options s) :
    Placed options (start options) ∧ (∀ t, HostStep s t → Placed options t) ∧
    (∀ depth e env caller, Placed options (eval depth e env caller s).2) ∧
    (∀ parent call kind, (∀ f d, kind.method? = some (f, d) →
        (∃ id g definedIn, f = .closure id g definedIn) ∧ d.position ≤ d.classes.length) →
      Placed options (pushRecord parent call kind s).2) ∧
    (∀ depth c generic object env definedIn m t,
      let search := s.methodSearch generic (s.classOf object) [env, definedIn]
      selectMethod (eval depth) search (s.classOf object) c s = (.ok m, t) →
        RunsAt options t ⟨generic, m.group, search.classes, m.position, object, env, some definedIn⟩ m) ∧
    (∀ depth b env caller values found t,
      operandMethods (eval depth) b env caller values s = (.ok found, t) →
        ∀ x ∈ found, RunsAt options t (operandContext b env x) x.found) ∧
    (∀ c frame d, s.records.logicalFunction c.caller = some frame → frame.dispatch? = some d →
      ((∃ id f definedIn, frame.function? = some (.closure id f definedIn)) ∧
        d.position ≤ d.classes.length) ∧
      ∀ depth, nextMethod (eval depth) c s =
          (findMethod (eval depth) (d.search d.group) (d.position + 1) c.caller >>=
            goOn (eval depth) c frame d) s ∧
        ∀ m t, findMethod (eval depth) (d.search d.group) (d.position + 1) c.caller s = (.ok (some m), t) →
          d.position < m.position ∧ m.position ≤ d.classes.length + 1 ∧ RunsAt options t d m) ∧
    ∀ f d methods, Succession options f d methods → Ascends d methods := by
  have evaluates (depth : Nat) := evaluating (Warrant.placed options) attained depth
  refine ⟨placed_start options, fun t => kept_hostStep attained placed, fun depth e env caller =>
    ((evaluates depth e env caller).here placed).kept, fun parent call kind at_class => ?_, ?_, ?_, ?_,
    fun f d methods => Succession.ascends⟩
  · exact (((rules (Warrant.placed options) attained).recording parent call kind at_class).here placed).kept
  · intro depth c generic object env definedIn m t search run
    obtain ⟨selects, founds⟩ :=
      selecting attained (evaluates depth) (List.cons_ne_nil env [definedIn]) c (.refl s) placed
    obtain ⟨-, within⟩ := founds m t run ⟨generic, m.group, _, m.position, object, env, some definedIn⟩ rfl
    exact runsAt_of_within (selects.reached run).2 (within (placed.fit.classNames_ne_nil object))
  · intro depth b env caller values found t run x member
    have searches := (calls _ attained).holds_operandMethods (evaluates depth) b env caller values
    obtain ⟨-, within, q, v, classed, classes⟩ :=
      selected_operands attained (evaluates depth) (.refl s) placed run x member
    exact runsAt_of_within ((searches.here placed).reached run).2
      (within (classes ▸ classed.classNames_ne_nil v))
  · intro c frame d running dispatched
    have runs := placed.of_dispatch running dispatched
    refine ⟨runs, fun depth => ⟨nextMethod_apply running dispatched, fun m t run => ?_⟩⟩
    have found := congrArg Prod.fst run
    have searches := (calls _ attained).holds_findMethod (evaluates depth) (d.search d.group) (d.position + 1)
      c.caller
    obtain ⟨later, last⟩ := advances found runs.2
    exact ⟨later, last, runsAt_of_within ((searches.here placed).reached run).2 (within_of_found found)⟩

/-- Opening a record changes nothing that methods are found by. -/
theorem findMethod_opened {search : MethodSearch} {start : Nat} {ev : Evaluator} {caller : RecordId}
    (attained : Attained options s) (direct : s.Direct search)
    (found : (findMethod ev search start caller s).1 = .ok (some m)) (parent : Option RecordId)
    (call : Option Expr) (kind : RecordKind) (ev' : Evaluator) (caller' : RecordId) :
    let t := (pushRecord parent call kind s).2
    findMethod ev' search start caller' t = (.ok (some m), t) := by
  intro t
  have tidy := Attained.tidy attained
  have opened : (Session.start options).Run s t := .of_same rfl rfl {}
  have now : t.Direct search := direct
  have current : t.stamp search.scope = s.stamp search.scope := rfl
  exact (((opened.since tidy).1.stands tidy current).findMethod direct now start).2 _ found

/-- There are methods for both classes of an object but no default, so from the method for the first class two
calls follow one another, and the second one comes to the builtin. -/
theorem next_method_advances_to_builtin :
    ∃ (s t : Session) (f : Value) (d : DispatchContext) (m last : CachedMethod),
      Attained {} s ∧ Placed {} s ∧ Placed {} t ∧ d.classes = ["a", "b"] ∧
        [d.position, m.position, last.position] = [0, 1, 3] ∧ Succession {} f d [m, last] ∧
          RunsAt {} s d m ∧ Ascends d [m, last] := by
  let method (id : Nat) (name : Name) : Expr := .assign ⟨id⟩ (.symbol ⟨id + 1⟩ name)
    (.function ⟨⟨id + 2⟩, [], .constant ⟨id + 3⟩ .null⟩) false
  let first := (evalIn (method 0 "+.a") global (start {})).2
  let p := (evalIn (method 4 "+.b") global first).2
  let d : DispatchContext := ⟨"+", none, ["a", "b"], 0, .null, global, none⟩
  have begun : Attained {} first := run_evalIn (.refl _) _ _
  have attained : Attained {} p := begun.trans (run_evalIn begun _ _)
  have placed : Placed {} p := kept_evalIn begun (kept_evalIn (.refl _) (placed_start {}) _ _) _ _
  let entry (r : Except Unwind (Option CachedMethod)) : Option (Bool × Nat × Option Name) :=
    r.toOption.join.map fun m => (m.method.isFunction && !isBuiltin m.method, m.position, m.group)
  have for_a : entry (findMethod (eval 0) (d.search none) 0 ⟨0⟩ p).1 = some (true, 0, none) := by decide +kernel
  have for_b : entry (findMethod (eval 0) (d.search none) 1 ⟨0⟩ p).1 = some (true, 1, none) := by decide +kernel
  have resort : entry (findMethod (eval 0) (d.search none) 2 ⟨0⟩ p).1 = some (false, 3, none) := by
    decide +kernel
  have direct : p.Direct (d.search none) := direct_of_functions (by decide +kernel)
  clear_value p
  have answer {r : Except Unwind (Option CachedMethod)} {closure : Bool} {position : Nat}
      (same : entry r = some (closure, position, none)) : ∃ m, r = .ok (some m) ∧
        (closure = true → ∃ id f definedIn, m.method = .closure id f definedIn) ∧ m.position = position ∧
          m.group = none := by
    rcases r with u | _ | m
    · cases same
    · cases same
    · obtain ⟨kind, rest⟩ := Prod.mk.inj (Option.some.inj same)
      obtain ⟨at_m, own⟩ := Prod.mk.inj rest
      refine ⟨m, rfl, fun closure => ?_, at_m, own⟩
      rw [closure] at kind
      cases method : m.method with
      | closure id f definedIn => exact ⟨id, f, definedIn, rfl⟩
      | _ =>
        rw [method] at kind
        cases kind
  obtain ⟨a, found_a, closure, at_a, own_a⟩ := answer for_a
  obtain ⟨b, found_b, closure_b, at_b, own_b⟩ := answer for_b
  obtain ⟨last, found_last, -, at_last, -⟩ := answer resort
  obtain ⟨_, _, _, closure⟩ := closure rfl
  obtain ⟨_, _, _, closure_b⟩ := closure_b rfl
  have to_a : d.reaching a = d := by
    unfold DispatchContext.reaching
    rw [own_a, at_a]
  let kind (m : CachedMethod) : RecordKind := .function global m.method {} (some (d.reaching m))
  let s := (pushRecord none none (kind a) p).2
  let t := (pushRecord none none (kind b) s).2
  have opened : (Session.start {}).Run p s := .of_same rfl rfl {}
  let c : SpecialCall := ⟨.constant ⟨0⟩ .null, [], global, ⟨p.records.next⟩⟩
  have in_s := findMethod_opened attained direct found_b none none (kind a) (eval 0) c.caller
  have last_in_s := findMethod_opened attained direct found_last none none (kind a) (eval 0) c.caller
  have placed_s : Placed {} s :=
    ((runsAt_of_within placed (within_of_found found_a)).closure _ _ _ closure).2 none none global {}
  have running := logicalFunction_opened global a.method (d.reaching a) p
  obtain ⟨-, -, -, -, -, -, next, ascends⟩ := next_method_advances (attained.trans opened) placed_s
  obtain ⟨-, calls⟩ := next c _ d running (congrArg some to_a)
  obtain ⟨-, -, runs⟩ := (calls 0).2 b s in_s
  have placed_t : Placed {} t := (runs.closure _ _ _ closure_b).2 none none global {}
  have in_t := findMethod_opened (attained.trans opened) direct (congrArg Prod.fst last_in_s) none none (kind b)
    (eval 0) ⟨s.records.next⟩
  have found_t : (findMethod (eval 0) ((d.reaching b).search (d.reaching b).group)
      ((d.reaching b).position + 1) ⟨s.records.next⟩ t).1 = .ok (some last) := by
    change (findMethod (eval 0) (d.search b.group) (b.position + 1) _ t).1 = _
    rw [own_b, at_b]
    exact congrArg Prod.fst in_t
  have after : Succession {} b.method (d.reaching b) [last] :=
    .call (c := { c with caller := ⟨s.records.next⟩ }) placed_t
      (logicalFunction_opened global b.method (d.reaching b) s) rfl rfl found_t (.done _ _)
  have succession : Succession {} a.method d [b, last] :=
    .call (c := c) placed_s running rfl (congrArg some to_a) (congrArg Prod.fst in_s) after
  exact ⟨s, t, a.method, d, b, last, attained.trans opened, placed_s, placed_t, rfl,
    by rw [at_b, at_last], succession, runs, ascends _ _ _ succession⟩

end Session
end CallByNeed
