import CallByNeed.Proofs.MethodChains

/-!
The next method. A call for it goes on with the search that the dispatch began with, under the names that this
search has still to try. But it passes over the names of the group, unless the method at hand was itself found
through the group: the state of a dispatch tells how its method was found, not what was searched for.
-/
namespace CallByNeed

namespace DispatchContext

/-- Of the names that the search of a group has still to try, those that are tried for the next method. -/
def ahead (d : DispatchContext) (group : Option Name) : List Candidate :=
  ((d.search group).candidates (d.position + 1)).filter (·.within d.group)

theorem ahead_grouped (d : DispatchContext) :
    d.ahead d.group = (d.search d.group).candidates (d.position + 1) :=
  (d.search d.group).candidates_grouped (d.position + 1)

theorem ahead_eq {d : DispatchContext} {group : Option Name} (known : d.group = none ∨ d.group = group) :
    d.ahead group = (d.search d.group).candidates (d.position + 1) := by
  rcases known with own | rfl
  · unfold ahead
    rw [own]
    exact (d.search group).candidates_ungrouped (d.position + 1)
  · exact d.ahead_grouped

theorem target_of_ahead (d : DispatchContext) (group : Option Name) :
    ∀ k ∈ d.ahead group, k.target ∈ (d.search group).targets := fun _ member =>
  MethodSearch.target_mem_targets (List.mem_of_mem_filter member)

end DispatchContext

/-- What a call for the next method does when the search for it is over. -/
def goOn (ev : Evaluator) (c : SpecialCall) (frame : Record) (d : DispatchContext) :
    Option CachedMethod → EvalM Value
  | none => fail (.raise .dispatchNotFound s!"no more methods for '{d.generic}'")
  | some m => do
    let (supplied, parent, call) := frameCall frame c.call
    let supplied ← addExtraArgs c 0 supplied c.args
    callMethod ev m.method call supplied parent (d.reaching m)

theorem nextMethod_apply {ev : Evaluator} {c : SpecialCall} {s : Session} {frame : Record}
    {d : DispatchContext} (runs : s.records.logicalFunction c.caller = some frame)
    (dispatched : frame.dispatch? = some d) : nextMethod ev c s =
      (findMethod ev (d.search d.group) (d.position + 1) c.caller >>= goOn ev c frame d) s := by
  unfold nextMethod
  rw [get_bind, runs]
  dsimp only [Option.bind_some]
  rw [dispatched]
  refine congrFun (bind_congr fun found => ?_) s
  cases found <;> rfl

variable {α : Type} {options : Options}

namespace Session

variable {p s t : Session}

/-! Hosts. -/

section Hosts

variable (attained : Attained options s) (accounted : Accounted options s)
include attained accounted

theorem accounted_evalIn (e : Expr) (env : EnvId) : Accounted options (evalIn e env s).2 :=
  (kept_evalIn attained accounted.kept e env).methods

/-- Whatever a host does, every method stays accounted for. -/
theorem accounted_hostStep (step : HostStep s t) : Accounted options t :=
  (kept_hostStep attained accounted.kept step).methods

end Hosts

/-! The next method. -/

/-- The search for the next method tries the names ahead. -/
theorem nextMethod_ahead {search : MethodSearch} {f : Value} {d : DispatchContext} {c : SpecialCall}
    {frame : Record} (chosen : Chosen options p search s f d)
    (runs : s.records.logicalFunction c.caller = some frame) (dispatched : frame.dispatch? = some d)
    (ev : Evaluator) : nextMethod ev c s =
      (findFirst ev (d.search search.group) c.caller (d.ahead search.group) >>= goOn ev c frame d) s := by
  rw [nextMethod_apply runs dispatched, findMethod_eq, DispatchContext.ahead_eq chosen.group]
  rfl

/-- While nothing that methods are found by has changed, the next method is the one that the search which the
dispatch began with would have come to. -/
theorem nextMethod_unchanged {search : MethodSearch} {f : Value} {d : DispatchContext} {c : SpecialCall}
    {frame : Record} (chosen : Chosen options p search s f d)
    (runs : s.records.logicalFunction c.caller = some frame) (dispatched : frame.dispatch? = some d)
    (before : p.Direct search) (now : s.Direct search)
    (current : s.stamp search.scope = p.stamp search.scope) {ev ev' : Evaluator} {caller : RecordId}
    {found : Option CachedMethod}
    (searched : (findFirst ev search caller (d.ahead search.group) p).1 = .ok found) :
    nextMethod ev' c s = goOn ev' c frame d found s := by
  obtain ⟨begun, later, -, whole⟩ := chosen.about
  have tidy := Attained.tidy begun
  have stands := (later.since tidy).1.stands tidy current
  have tried := d.target_of_ahead search.group
  rw [whole before] at tried
  have again : Repeats p s (findFirst ev search caller (d.ahead search.group))
      (findFirst ev' search c.caller (d.ahead search.group)) := stands.findFirst before now tried
  rw [nextMethod_ahead chosen runs dispatched, whole before, bind_apply, again.2 found searched]

/-- Going on from a method that a dispatch came to, at the end of an evaluation or in the midst of one: methods
are accounted for where the method of a dispatch starts to run. The search for the next one goes on for the
classes and from the environments of the search that the dispatch began with, and passes over the group unless
the method at hand was found through it. While nothing that methods are found by has changed, it comes to what
the first search would have come to under these names. -/
theorem next_method_of_dispatch (attained : Attained options s) (accounted : Accounted options s) :
    (∀ t, HostStep s t → Accounted options t) ∧
    (∀ depth e env caller, Accounted options (eval depth e env caller s).2) ∧
    (∀ parent call kind, (∀ f d, kind.method? = some (f, d) → ∃ p search, Chosen options p search s f d) →
      Accounted options (pushRecord parent call kind s).2) ∧
    ∀ c frame d, s.records.logicalFunction c.caller = some frame → frame.dispatch? = some d →
      (∃ f p search, frame.function? = some f ∧ Chosen options p search s f d) ∧
      ∀ f p search, Chosen options p search s f d →
        (∀ ev, nextMethod ev c s = (findFirst ev (d.search search.group) c.caller (d.ahead search.group) >>=
          goOn ev c frame d) s) ∧
        (d.group = search.group →
          d.ahead search.group = (d.search search.group).candidates (d.position + 1)) ∧
        (d.group ≠ search.group → ∀ k, k ∈ d.ahead search.group ↔
          k ∈ (d.search search.group).candidates (d.position + 1) ∧ k.group = none) ∧
        (p.Direct search → d.search search.group = search ∧
          (s.Direct search → s.stamp search.scope = p.stamp search.scope → ∀ ev ev' caller found,
            (findFirst ev search caller (d.ahead search.group) p).1 = .ok found →
              nextMethod ev' c s = goOn ev' c frame d found s)) := by
  refine ⟨fun t => accounted_hostStep attained accounted,
    fun depth e env caller =>
      ((Warranting.evaluating (.accounted options) attained depth e env caller).here accounted.kept).kept.methods,
    fun parent call kind chosen => ?_, fun c frame d runs dispatched => ⟨?_, fun f p search chosen => ?_⟩⟩
  · exact (((Warranting.rules (.accounted options) attained).recording parent call kind chosen).here
      accounted.kept).kept.methods
  · obtain ⟨f, runs_f, method⟩ := method?_of_dispatch? dispatched
    obtain ⟨p, search, chosen⟩ := accounted frame (Records.mem_of_logicalFunction runs) f d method
    exact ⟨f, p, search, runs_f, chosen⟩
  · refine ⟨nextMethod_ahead chosen runs dispatched, fun same => same ▸ d.ahead_grouped, fun apart k => ?_,
      fun before => ⟨chosen.about.2.2.2 before, fun now current ev ev' caller found searched =>
        nextMethod_unchanged chosen runs dispatched before now current searched⟩⟩
    have own : d.group = none := chosen.group.resolve_right apart
    simp [DispatchContext.ahead, Candidate.within, own]

/-- A method under a record of its own is what runs there. -/
theorem logicalFunction_opened (env : EnvId) (f : Value) (d : DispatchContext) (s : Session) :
    let id : RecordId := ⟨s.records.next⟩
    let kind : RecordKind := .function env f {} (some d)
    (pushRecord none none kind s).2.records.logicalFunction id = some ⟨id, none, none, 0, kind, false⟩ := by
  intro id kind
  have live : (pushRecord none none kind s).2.records.live =
      ⟨id, none, none, 0, kind, false⟩ :: s.records.live := rfl
  simp [Records.logicalFunction, Records.functionWithin, Records.get?, live, kind, Record.isFunction,
    Record.env?]

/-- A method that a dispatch came to, under a record of its own. -/
theorem Chosen.opens {search : MethodSearch} {f : Value} {d : DispatchContext} (attained : Attained options s)
    (accounted : Accounted options s) (chosen : Chosen options p search s f d) (env : EnvId) :
    let id : RecordId := ⟨s.records.next⟩
    let kind : RecordKind := .function env f {} (some d)
    let t := (pushRecord none none kind s).2
    (start options).Run s t ∧ Accounted options t ∧ Chosen options p search t f d ∧
      t.records.logicalFunction id = some ⟨id, none, none, 0, kind, false⟩ := by
  intro id kind t
  have opened : Warrants (.accounted options) (pushRecord none none kind) s :=
    ((Warranting.rules _ attained).recording none none kind fun g e same => by
      cases same
      exact ⟨p, search, chosen⟩).here accounted.kept
  exact ⟨opened.run, opened.kept.methods, chosen.onward opened.run, logicalFunction_opened env f d s⟩

theorem direct_of_functions {s : Session} {search : MethodSearch}
    (functions : ∀ name ∈ search.targets, ∀ env ∈ search.scope, ∀ id ∈ s.heap.chain env,
      ((s.heap.frame? id).bind (·.bindings.get? name)).all Value.isFunction) : s.Direct search := by
  intro name target env inside id member f there promise bound
  have plain := functions name target env inside id member
  rw [there, Option.bind_some, bound] at plain
  cases plain

/-- The generic's method for the first class calls for the next method, and the group has a method for the
second class. The search for both comes to the group's method, the call for the next one to the builtin. -/
theorem next_method_passes_over_group :
    let method (id : Nat) (name : Name) (body : Expr) : Expr := .assign ⟨id⟩ (.symbol ⟨id + 1⟩ name)
      (.function ⟨⟨id + 2⟩, [⟨"e1", none⟩, ⟨"e2", none⟩], body⟩) false
    let call : Expr := .call ⟨3⟩ (.symbol ⟨4⟩ "NextMethod") []
    let made := Store.addVector ⟨.character ["a", "b"], {}, .shared⟩ (start {}).store
    let first := (evalIn (method 0 "+.a" call) global { start {} with store := made.2 }).2
    let p := (evalIn (method 5 "Ops.b" (.constant ⟨8⟩ .null)) global first).2
    let search : MethodSearch := ⟨"+", some "Ops", ["a", "b"], [global]⟩
    let d : DispatchContext := ⟨"+", none, ["a", "b"], 0, .null, global, none⟩
    ∃ (s : Session) (c : SpecialCall) (frame : Record) (f : Value) (group next : CachedMethod),
      Attained {} s ∧ Accounted {} s ∧ s.records.logicalFunction c.caller = some frame ∧
      frame.dispatch? = some d ∧ Chosen {} p search s f d ∧ s.stamp search.scope = p.stamp search.scope ∧
      (findMethod (eval 0) search 1 ⟨0⟩ p).1 = .ok (some group) ∧ group.target = "Ops.b" ∧
      next.target = "+" ∧ ∀ ev, nextMethod ev c s = goOn ev c frame d (some next) s := by
  intro method call made first p search d
  have classed : HostStep (start {}) { start {} with store := made.2 } := .makeVector _ _
  have begun : Attained {} { start {} with store := made.2 } := classed.run (.refl _) (tidy_start {}).base
  have begun' : Attained {} first := begun.trans (run_evalIn begun _ _)
  have attained : Attained {} p := begun'.trans (run_evalIn begun' _ _)
  have known : Accounted {} p := accounted_evalIn begun' (accounted_evalIn begun
    (accounted_hostStep (.refl _) (accounted_start {}) classed) _ _) _ _
  have entry_p : Entry p search := by
    have add := Entry.builtin (p := p) ⟨"+", .strict (.arithmetic .add), true, .ops⟩ made.1 global
    have names : p.store.classNames made.1 = ["a", "b"] := by decide +kernel
    rw [names] at add
    exact add
  let entry (r : Except Unwind (Option CachedMethod)) : Option (Name × Nat × Option Name) :=
    r.toOption.join.map fun m => (m.target, m.position, m.group)
  have specific : entry (findMethod (eval 0) search 0 ⟨0⟩ p).1 = some ("+.a", 0, none) := by decide +kernel
  have grouped : entry (findMethod (eval 0) search 1 ⟨0⟩ p).1 = some ("Ops.b", 1, some "Ops") := by
    decide +kernel
  have builtin : entry (findFirst (eval 0) search ⟨0⟩ (d.ahead search.group) p).1 = some ("+", 3, none) := by
    decide +kernel
  have direct : p.Direct search := direct_of_functions (by decide +kernel)
  clear_value p
  have answer {r : Except Unwind (Option CachedMethod)} {x : Name × Nat × Option Name}
      (same : entry r = some x) : ∃ m, r = .ok (some m) ∧ (m.target, m.position, m.group) = x := by
    rcases r with u | m
    · cases same
    · cases m with
      | none => cases same
      | some m => exact ⟨m, rfl, Option.some.inj same⟩
  obtain ⟨m, chosen, at_m⟩ := answer specific
  obtain ⟨group, original, at_group⟩ := answer grouped
  obtain ⟨next, passing, at_next⟩ := answer builtin
  have reached : d.reaching m = d := by
    unfold DispatchContext.reaching
    rw [(Prod.mk.inj (Prod.mk.inj at_m).2).1, (Prod.mk.inj (Prod.mk.inj at_m).2).2]
  have first_method : Chosen {} p search p m.method d :=
    reached ▸ .first ⟨attained, .refl p, entry_p, ⟨0, ⟨0⟩, chosen⟩, rfl, fun _ => rfl⟩
  obtain ⟨opened, accounted, running, runs⟩ := first_method.opens attained known global
  obtain ⟨-, -, -, going⟩ := next_method_of_dispatch (attained.trans opened) accounted
  obtain ⟨-, goes⟩ := going ⟨call, [], global, ⟨p.records.next⟩⟩ _ d runs rfl
  obtain ⟨-, -, -, unchanged⟩ := goes m.method p search running
  refine ⟨_, ⟨call, [], global, ⟨p.records.next⟩⟩, _, m.method, group, next, attained.trans opened, accounted,
    runs, rfl, running, rfl, original, (Prod.mk.inj at_group).1, (Prod.mk.inj at_next).1, fun ev => ?_⟩
  exact (unchanged direct).2 direct rfl (eval 0) ev ⟨0⟩ (some next) passing

end Session
end CallByNeed
