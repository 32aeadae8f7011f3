import CallByNeed.Proofs.Contents
import CallByNeed.Proofs.Holding
import CallByNeed.Proofs.Promises
import Mathlib.Data.Fintype.EquivFin

/-!
Shared containers never change. Across every evaluation and every host run a container that is shared
stays so and keeps its data and attributes, since an in-place write asks for one that is not. So the
value of an evaluated promise keeps its contents exactly if all of them are shared.
-/
namespace CallByNeed

/-- Every container shared before is shared after, with the same data and attributes. -/
def Frozen (l m : Ledger) : Prop :=
  ∀ id, (l.store.container id).sharing.isShared →
    (m.store.container id).sharing.isShared ∧ l.store.Agrees m.store id

namespace Frozen

theorem refl (l : Ledger) : Frozen l l := fun _ shared => ⟨shared, rfl, rfl⟩

theorem trans {l m n : Ledger} (first : Frozen l m) (second : Frozen m n) : Frozen l n := by
  intro id shared
  obtain ⟨between, elements, attributes⟩ := first id shared
  obtain ⟨last, elements', attributes'⟩ := second id between
  exact ⟨last, elements'.trans elements, attributes'.trans attributes⟩

theorem of_same {s t : Store} (same : t.vectors = s.vectors) (n : Nat) : Frozen ⟨s, n⟩ ⟨t, n⟩ := by
  intro id shared
  have container : t.container id = s.container id := by
    unfold Store.container
    rw [same]
  unfold Store.Agrees
  dsimp only at shared ⊢
  rw [container]
  exact ⟨shared, rfl, rfl⟩

theorem addVector (c : Container) (s : Store) (n : Nat) :
    Frozen ⟨s, n⟩ ⟨(Store.addVector c s).2, n⟩ := by
  intro id shared
  have kept : (Store.addVector c s).2.container id = s.container id := by
    rw [Store.container_addVector, if_neg (Nat.ne_of_lt (Store.shared_inside shared))]
  unfold Store.Agrees
  dsimp only at shared ⊢
  rw [kept]
  exact ⟨shared, rfl, rfl⟩

theorem raise {f : Sharing → Sharing} (up : ∀ x, x.rank ≤ (f x).rank) (v : Value) (s : Store)
    (n : Nat) : Frozen ⟨s, n⟩ ⟨s.setSharing f v, n⟩ := by
  cases v with
  | vector c =>
    intro id shared
    unfold Store.Agrees
    dsimp only [Store.setSharing] at shared ⊢
    rw [Store.container_modify]
    split
    · rename_i found
      rw [found.1] at shared ⊢
      refine ⟨?_, rfl, rfl⟩
      rw [Sharing.isShared_iff] at shared ⊢
      exact Nat.le_trans shared (up _)
    · exact ⟨shared, rfl, rfl⟩
  | _ => exact refl _

theorem write {f : Container → Container} {s : Store} {c : VectorId}
    (unshared : (s.container c).sharing.isShared = false) (n : Nat) :
    Frozen ⟨s, n⟩ ⟨s.modifyContainer c f, n⟩ := by
  intro id shared
  have apart : id ≠ c := by
    intro same
    rw [same, unshared] at shared
    cases shared
  unfold Store.Agrees
  dsimp only at shared ⊢
  rw [Store.container_modify, if_neg fun found => apart found.1]
  exact ⟨shared, rfl, rfl⟩

theorem distrust_vectors (site : NodeId) (s : Store) : (s.distrust site).vectors = s.vectors := by
  unfold Store.distrust
  split <;> rfl

instance : Indifferent Frozen where
  refl := refl
  trans := trans
  evolution := {
    refl := fun _ _ => refl _
    trans := fun first second n => (first n).trans (second n)
    addVector := addVector
    addDots := fun _ _ => of_same rfl
    freshNode := fun _ => of_same rfl
    closure := fun _ _ _ => of_same rfl
    evaluatedPromise := fun _ _ _ _ => of_same rfl
    lazyPromise := fun _ _ _ _ _ => of_same rfl
    raise := fun _ up => raise up
    write := fun _ _ _ _ unshared _ => write unshared }
  eagerPromise _ _ _ _ _ := of_same rfl
  distrust site s := of_same (distrust_vectors site s)
  life _ _ _ := of_same rfl
  uncounted _ _ _ := refl _

end Frozen

/-! What a host can do to a container that is not shared. -/

theorem force_evaluated (ev : Evaluator) {s : Session} {p : PromiseId} {v : Value}
    (evaluated : (s.store.promise p).state = .evaluated v) (caller : RecordId) :
    force ev p caller s = (.ok v, s) := by
  unfold force
  rw [get_bind, evaluated]
  rfl

theorem forcePromise_evaluated {s : Session} {p : PromiseId} {v : Value}
    (evaluated : (s.store.promise p).state = .evaluated v) :
    ∃ t, Session.forcePromise p s = (.ok v, t) ∧ t.store = s.store := by
  let under := s.records.push none none .topLevel
  let inner : Session := { s with records := under.2 }
  have run : underRecord none none .topLevel (force (eval nestingLimit) p) s =
      releasing under.1 (force (eval nestingLimit) p under.1) inner := rfl
  have still : (inner.store.promise p).state = .evaluated v := evaluated
  unfold Session.forcePromise atTopLevel
  rw [run]
  unfold releasing
  rw [force_evaluated _ still]
  exact ⟨_, rfl, rfl⟩

/-- A host's call of a builtin that works on objects only does to them what the builtin does; the call
itself takes two nodes. -/
theorem apply_storing {s : Session} {b : Builtin} {op : StrictOp} {name : Name} {id : Nat}
    {names : List (Option Name)} {values : List Value} {m : StoreM Value}
    (found : s.builtins.functions[id]? = some b) (strict : b.operation = .strict op)
    (undispatched : b.dispatch = .none)
    (storing : ∀ ev env record, runStrict ev op ⟨⟨names, values⟩, env, record⟩ = onStore m) :
    (Session.apply (.builtin name id) names values s).2.store =
      (m { s.store with nodes := s.store.nodes + 2 }).2 := by
  let under := s.records.push none none .topLevel
  let call : Expr := .call ⟨s.store.nodes + 1⟩ (.constant ⟨s.store.nodes⟩ (.builtin name id)) []
  let t : Session :=
    { s with records := under.2, store := { s.store with nodes := s.store.nodes + 2 } }
  let body (call : Expr) (top : RecordId) : EvalM Value :=
    applyValues (eval nestingLimit) (.builtin name id) call names values Session.global top
  have run : (underRecord none none .topLevel (fun top => do
      body (← Session.hostCall (.builtin name id)) top) s).2.store =
        (body call under.1 t).2.store := rfl
  have known : body call under.1 t =
      invokeStrict (eval nestingLimit) b call names values Session.global under.1 true t := by
    have isStrict : b.isStrict = true := by
      unfold Builtin.isStrict
      rw [strict]
    have here : t.builtins.functions[id]? = some b := found
    change (findBuiltin name id >>= _) t = _
    rw [bind_apply, findBuiltin_apply here]
    dsimp only
    rw [isStrict]
    rfl
  obtain ⟨⟨records, stored⟩, _⟩ :=
    invokeStrict_storing strict (fun _ => undispatched) (storing (eval nestingLimit) _) t
  unfold Session.apply
  rw [Session.atTopLevel_session, run, known, stored]

open Store in
/-- The builtin `attr<-` on a container that is not shared writes into it. -/
theorem setAttribute_unshared {s : Store} {c n : VectorId} {name : Name}
    (unshared : (s.container c).sharing.isShared = false) (apart : c ≠ n)
    (named : s.elements n = .character [name]) (fresh : s.attribute? c name = none) :
    Builtins.setAttribute ⟨[none, none, some "value"], [.vector c, .vector n, .vector n]⟩ s =
      (.ok (.vector c), (s.share (.vector n)).modifyContainer c fun k =>
        { k with attributes := k.attributes.insert name (.vector n) }) := by
  have still : ((s.share (.vector n)).container c).sharing.isShared = false := by
    change ((s.modifyContainer n _).container c).sharing.isShared = false
    rw [container_modify, if_neg fun found => apart found.1]
    exact unshared
  have which : Arguments.requiredString
      ⟨[none, none, some "value"], [.vector c, .vector n, .vector n]⟩ s "which" 1 = .ok name := by
    have string : s.string? (.vector n) = some name := by
      change ((s.elements n).strings?).bind List.head? = _
      rw [named]
      rfl
    have given : Arguments.required ⟨[none, none, some "value"], [.vector c, .vector n, .vector n]⟩
      "which" 1 = .ok (.vector n) := rfl
    unfold Arguments.requiredString
    rw [given]
    dsimp only [bind, Except.bind]
    rw [string]
  have stored : Builtins.replaceAttribute c name (some (.vector n)) s =
      (.ok (), (s.share (.vector n)).modifyContainer c fun k =>
        { k with attributes := k.attributes.insert name (.vector n) }) := by
    change (if (s.attribute? c name).any _ = true then _ else _ : StoreM Unit) s = _
    rw [fresh]
    change Store.setAttribute c name (some (.vector n)) (s.share (.vector n)) = _
    unfold Store.setAttribute
    rw [seq_apply, ensureWritable_apply, still]
    rfl
  unfold Builtins.setAttribute
  rw [seq_apply]
  change (Builtins.attributeTarget (.vector c) >>= _ : StoreM Value) s = _
  rw [seq_apply, Builtins.attributeTarget_unshared unshared]
  change ((liftM (Arguments.requiredString _ s "which" 1) : StoreM String) >>= _ : StoreM Value) s = _
  rw [which]
  change (Builtins.replaceAttribute c name (some (.vector n)) >>= _ : StoreM Value) s = _
  rw [seq_apply, stored]
  rfl

theorem exists_fresh_name (attributes : Attributes) : ∃ name, attributes.get? name = none := by
  obtain ⟨name, fresh⟩ := Infinite.exists_notMem_finset attributes.keys.toFinset
  refine ⟨name, ?_⟩
  have absent : attributes.entries.find? (·.1 = name) = none := by
    rw [List.find?_eq_none]
    intro e member same
    have key : name ∈ attributes.keys :=
      List.mem_map.mpr ⟨e, member, of_decide_eq_true same⟩
    exact fresh (List.mem_toFinset.mpr key)
  unfold Table.get?
  rw [absent]
  rfl

open Store in
/-- Giving an unshared container an attribute under a name that was made for it leaves all others that are
there as they are. -/
theorem setAttribute_made {s : Store} {c : VectorId} {name : Name} (inside : c.index < s.vectors.size)
    (unshared : (s.container c).sharing.isShared = false) (fresh : s.attribute? c name = none) (nodes : Nat) :
    let n : VectorId := ⟨s.vectors.size⟩
    let ready : Store := { (addVector ⟨.character [name], {}, .temporary⟩ s).2 with nodes }
    let t := (Builtins.setAttribute ⟨[none, none, some "value"], [.vector c, .vector n, .vector n]⟩ ready).2
    (∀ id, id ≠ c → id.index < s.vectors.size → s.Agrees t id) ∧
      (t.container c).attributes = (s.container c).attributes.insert name (.vector n) := by
  intro n ready t
  have apart (id : VectorId) (there : id.index < s.vectors.size) : id ≠ n := by
    intro same
    rw [same] at there
    exact Nat.lt_irrefl _ there
  have kept (id : VectorId) (there : id.index < s.vectors.size) : ready.container id = s.container id := by
    change (addVector _ s).2.container id = _
    rw [container_addVector, if_neg (Nat.ne_of_lt there)]
  have named : ready.elements n = .character [name] := by
    change ((addVector _ s).2.container n).elements = _
    rw [container_addVector, if_pos rfl]
  have written : t = (ready.share (.vector n)).modifyContainer c fun k =>
      { k with attributes := k.attributes.insert name (.vector n) } :=
    congrArg Prod.snd (setAttribute_unshared (by rw [kept c inside]; exact unshared) (apart c inside) named
      (by unfold attribute?; rw [kept c inside]; exact fresh))
  have stays (id : VectorId) (there : id.index < s.vectors.size) :
      (ready.share (.vector n)).container id = s.container id := by
    change (ready.modifyContainer n _).container id = _
    rw [container_modify, if_neg fun found => apart id there found.1, kept id there]
  have there : c.index < (ready.share (.vector n)).vectors.size := by
    change c.index < ((addVector _ s).2.vectors.modify n.index _).size
    rw [Array.size_modify]
    exact Nat.lt_of_lt_of_le inside (by simp [addVector])
  rw [written]
  refine ⟨fun id other inside => ?_, ?_⟩
  · unfold Agrees
    rw [container_modify, if_neg fun found => other found.1, stays id inside]
    exact ⟨rfl, rfl⟩
  · rw [container_modify, if_pos ⟨rfl, there⟩, stays c inside]

open Session in
/-- A host can add an attribute to a container that is there and not shared, and leave all others
that are there as they are. -/
theorem exists_write {s : Session} (standard : s.builtins = Registry.standard) {c : VectorId}
    (inside : c.index < s.store.vectors.size)
    (unshared : (s.store.container c).sharing.isShared = false) :
    ∃ t, HostRun s t ∧
      (∀ id, id ≠ c → id.index < s.store.vectors.size → s.store.Agrees t.store id) ∧
      (t.store.container c).attributes.entries.length ≠
        (s.store.container c).attributes.entries.length := by
  obtain ⟨name, fresh⟩ := exists_fresh_name (s.store.container c).attributes
  let n : VectorId := ⟨s.store.vectors.size⟩
  let named : Session := { s with store := (Store.addVector ⟨.character [name], {}, .temporary⟩ s.store).2 }
  let t := (apply (.builtin "attr<-" 8) [none, none, some "value"]
    [.vector c, .vector n, .vector n] named).2
  have found : named.builtins.functions[8]? = some ⟨"attr<-", .strict .setAttribute, false, .none⟩ := by
    change s.builtins.functions[8]? = _
    rw [standard]
    rfl
  -- the builtin works on the store with the name in it, after the call took its nodes
  have run : t.store = (Builtins.setAttribute ⟨[none, none, some "value"], [.vector c, .vector n, .vector n]⟩
      { named.store with nodes := named.store.nodes + 2 }).2 :=
    apply_storing found rfl rfl fun _ _ _ => rfl
  obtain ⟨others, attributes⟩ := setAttribute_made inside unshared fresh (named.store.nodes + 2)
  refine ⟨t, .tail (.single (.makeVector _ s)) (.apply _ _ _ _), ?_, ?_⟩
  · rw [run]
    exact others
  · rw [run, attributes, Table.length_insert_fresh fresh]
    exact Nat.succ_ne_self _

open Session in
/-- A host can make a container with an attribute under an id that has none yet. -/
theorem exists_made {s : Session} {c : VectorId} (outside : s.store.vectors.size ≤ c.index) :
    ∃ t, HostRun s t ∧
      (∀ id, id.index < s.store.vectors.size → s.store.Agrees t.store id) ∧
      (t.store.container c).attributes.entries.length ≠ 0 := by
  induction gap : c.index - s.store.vectors.size generalizing s with
  | zero =>
    have next : c.index = s.store.vectors.size := by omega
    let made : Container := ⟨default, ⟨[("made", .null)]⟩, .temporary⟩
    refine ⟨_, .single (.makeVector made s), ?_, ?_⟩
    · intro id there
      unfold Store.Agrees
      rw [Store.container_addVector, if_neg (Nat.ne_of_lt there)]
      exact ⟨rfl, rfl⟩
    · rw [Store.container_addVector, if_pos next]
      exact Nat.one_ne_zero
  | succ gap ih =>
    let filled : Session := { s with store := (Store.addVector default s.store).2 }
    have size : filled.store.vectors.size = s.store.vectors.size + 1 := by
      simp [filled, Store.addVector]
    obtain ⟨t, run, others, added⟩ := ih (s := filled) (by omega) (by omega)
    refine ⟨t, .head (.makeVector default s) run, ?_, added⟩
    intro id there
    have agrees := others id (by omega)
    unfold Store.Agrees at agrees ⊢
    have kept : filled.store.container id = s.store.container id := by
      change (Store.addVector default s.store).2.container id = _
      rw [Store.container_addVector, if_neg (Nat.ne_of_lt there)]
    rw [kept] at agrees
    exact agrees

namespace Session

theorem run_keeps_evaluated {s t : Session} (run : HostRun s t) {p : PromiseId} {v : Value}
    (inside : p.index < s.store.promises.size)
    (evaluated : (s.store.promise p).state = .evaluated v) :
    (t.store.promise p).state = .evaluated v :=
  (keeps_hostRun run : Disciplined s.ledger t.ledger).evaluated p v inside evaluated

/-- A promise that has its value gives it whenever it is forced again, and the contents of the value
are those of its first use after every run of the host if and only if all its containers are shared.
The host may call the setter of an attribute on any container. A program would have to take an inner one
out of its list first, which shares it if the list is. -/
theorem forced_value_stable_iff {s : Session} (standard : s.builtins = Registry.standard)
    {p : PromiseId} {v : Value} (inside : p.index < s.store.promises.size)
    (evaluated : (s.store.promise p).state = .evaluated v) :
    (∀ t, HostRun s t → ∃ w u, forcePromise p t = (.ok w, u) ∧ s.store.SameContents v u.store w) ↔
      ∀ c, s.store.Reaches v c → (s.store.container c).sharing.isShared := by
  constructor
  · intro stable c reaches
    refine Classical.byContradiction fun unshared => ?_
    obtain ⟨t, run, others, added⟩ : ∃ t, HostRun s t ∧
        (∀ id, id ≠ c → id.index < s.store.vectors.size → s.store.Agrees t.store id) ∧
        (t.store.container c).attributes.entries.length ≠
          (s.store.container c).attributes.entries.length := by
      by_cases there : c.index < s.store.vectors.size
      · exact exists_write standard there (Bool.eq_false_iff.mpr unshared)
      · obtain ⟨t, run, others, added⟩ := exists_made (Nat.le_of_not_lt there)
        refine ⟨t, run, fun id _ => others id, ?_⟩
        rw [Store.container_outside (Nat.le_of_not_lt there)]
        exact added
    obtain ⟨u, forced, same⟩ := forcePromise_evaluated (run_keeps_evaluated run inside evaluated)
    obtain ⟨w, u', again, contents⟩ := stable t run
    rw [forced] at again
    cases again
    rw [same] at contents
    exact Store.not_sameContents_of_added reaches others added contents
  · intro shared t run
    obtain ⟨u, forced, same⟩ := forcePromise_evaluated (run_keeps_evaluated run inside evaluated)
    refine ⟨v, u, forced, ?_⟩
    rw [same]
    have frozen : Frozen s.ledger t.ledger := keeps_hostRun run
    exact Store.sameContents_of_agrees fun c reaches => (frozen c (shared c reaches)).2

set_option maxRecDepth 10000 in
/-- A fresh vector that a promise was forced to has one owner only, so it may change under the promise. -/
theorem forced_fresh_vector_unstable :
    let made : Session :=
      { start {} with
        store := (Store.addVector ⟨.integer [1, 2], {}, .temporary⟩ (start {}).store).2 }
    let promised := (makePromise (.constant ⟨0⟩ (.vector ⟨10⟩)) global made).2
    let s := (forcePromise ⟨0⟩ promised).2
    s.Reachable ∧ (s.store.promise ⟨0⟩).state = .evaluated (.vector ⟨10⟩) ∧
      ¬ ∀ t, HostRun s t → ∃ w u, forcePromise ⟨0⟩ t = (.ok w, u) ∧
        s.store.SameContents (.vector ⟨10⟩) u.store w := by
  intro made promised s
  have evaluated : (s.store.promise ⟨0⟩).state = .evaluated (.vector ⟨10⟩) := rfl
  have there : (0 : Nat) < s.store.promises.size := by decide +kernel
  have unshared : (s.store.container ⟨10⟩).sharing.isShared = false := rfl
  refine ⟨⟨{}, ?_⟩, evaluated, fun stable => ?_⟩
  · exact ((Relation.ReflTransGen.single (.makeVector _ _)).tail (.makePromise _ _ _)).tail
      (.force _ _)
  · have shared := (forced_value_stable_iff rfl there evaluated).mp stable ⟨10⟩ (.self _)
    rw [unshared] at shared
    cases shared

end Session
end CallByNeed
