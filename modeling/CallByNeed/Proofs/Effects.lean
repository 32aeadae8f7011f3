import CallByNeed.Proofs.Confinement
import CallByNeed.Proofs.Permanence
import CallByNeed.Proofs.Setters

/-!
The evaluation of an argument at the call has no effects. What an expression that is simple by its names
really does is decided while it runs: names may be bound to closures or to builtins with effects, operands
may be promises or objects with methods. Each of these gives up before anything happens. What is left are
builtins that only compute, which make fresh vectors and raise sharing states, and values computed ahead
that are used or given up.
-/
namespace CallByNeed

/-! Objects. -/

/-- A promise as it was, or one whose value computed ahead was used or given up. -/
inductive Promise.Settles (p : Promise) : Promise → Prop where
  | untouched : Settles p p
  | used {env : EnvId} {eager : EagerValue} (waiting : p.state = .unevaluated env)
      (ahead : p.eager = some eager) (standing : eager.deoptimized = false) :
      Settles p { p with state := .evaluated eager.value }
  | givenUp {env : EnvId} (waiting : p.state = .unevaluated env) :
      Settles p { p with eager := p.eager.map ({ · with deoptimized := true }) }

theorem Promise.Settles.trans {p q r : Promise} (first : p.Settles q) (second : q.Settles r) :
    p.Settles r := by
  cases first with
  | untouched => exact second
  | used waiting ahead standing =>
    cases second with
    | untouched => exact .used waiting ahead standing
    | used done => cases done
    | givenUp done => cases done
  | givenUp waiting =>
    cases second with
    | untouched => exact .givenUp waiting
    | used _ ahead standing =>
      -- A value given up is not used later.
      obtain ⟨eager, _, rfl⟩ := Option.map_eq_some_iff.mp ahead
      cases standing
    | givenUp _ =>
      have twice : (p.eager.map ({ · with deoptimized := true })).map ({ · with deoptimized := true }) =
          p.eager.map ({ · with deoptimized := true }) := by
        cases p.eager <;> rfl
      dsimp only
      rw [twice]
      exact .givenUp waiting

namespace Store

/-- Every vector keeps its data and attributes and may rise in its sharing state, promises settle, and
call sites may lose trust. Only vectors and promises may be new. -/
structure Effectless (s t : Store) : Prop where
  spares (id : VectorId) : Sparing id s t
  rises (id : VectorId) : (s.container id).sharing.rank ≤ (t.container id).sharing.rank
  promises : s.promises.size ≤ t.promises.size
  settles (id : PromiseId) : id.index < s.promises.size → (s.promise id).Settles (t.promise id)
  dots : t.dots = s.dots
  closures : t.closures = s.closures
  nodes : t.nodes = s.nodes
  distrusted : s.distrusted ⊆ t.distrusted

namespace Effectless

/-- Only vectors have changed. -/
theorem of_vectors {s t : Store} (spares : ∀ id, Sparing id s t)
    (rises : ∀ id, (s.container id).sharing.rank ≤ (t.container id).sharing.rank)
    (same : t = { s with vectors := t.vectors }) : s.Effectless t where
  spares := spares
  rises := rises
  promises := by rw [same]
  settles id _ := by
    rw [same]
    exact .untouched
  dots := by rw [same]
  closures := by rw [same]
  nodes := by rw [same]
  distrusted := by
    rw [same]
    exact List.Subset.refl _

/-- Only promises and the trust in call sites have changed. -/
theorem of_promises {s t : Store} (promises : s.promises.size ≤ t.promises.size)
    (settles : ∀ id, id.index < s.promises.size → (s.promise id).Settles (t.promise id))
    (distrusted : s.distrusted ⊆ t.distrusted)
    (same : t = { s with promises := t.promises, distrusted := t.distrusted }) : s.Effectless t where
  spares id there := by
    rw [same]
    exact ⟨there, rfl, rfl⟩
  rises id := by
    rw [same]
    exact Nat.le_refl _
  promises := promises
  settles := settles
  dots := by rw [same]
  closures := by rw [same]
  nodes := by rw [same]
  distrusted := distrusted

instance : Owning Effectless where
  refl s := of_vectors (fun id => Chained.refl s) (fun _ => Nat.le_refl _) rfl
  trans first second :=
    { spares id := Chained.trans (first.spares id) (second.spares id)
      rises id := Nat.le_trans (first.rises id) (second.rises id)
      promises := Nat.le_trans first.promises second.promises
      settles id old :=
        (first.settles id old).trans (second.settles id (Nat.lt_of_lt_of_le old first.promises))
      dots := second.dots.trans first.dots
      closures := second.closures.trans first.closures
      nodes := second.nodes.trans first.nodes
      distrusted := List.Subset.trans first.distrusted second.distrusted }
  addVector c s := of_vectors (fun id => Owning.addVector c s) (Rising.addVector c s 0) rfl
  raise f up v s := by
    refine of_vectors (fun id => Owning.raise f up v s) (Rising.raise up v s 0) ?_
    cases v <;> rfl

theorem modifyPromise {s : Store} {id : PromiseId} {f : Promise → Promise}
    (settles : (s.promise id).Settles (f (s.promise id))) : s.Effectless (s.modifyPromise id f) := by
  refine of_promises ?_ (fun other _ => ?_) (List.Subset.refl _) rfl
  · simp [Store.modifyPromise]
  · rw [promise_modify]
    split
    · rename_i found
      rw [found.1]
      exact settles
    · exact .untouched

theorem addPromise (p : Promise) (s : Store) : s.Effectless (addPromise p s).2 := by
  refine of_promises ?_ (fun id old => ?_) (List.Subset.refl _) rfl
  · simp [Store.addPromise]
  · rw [Disciplined.promise_add, if_neg (Nat.ne_of_lt old)]
    exact .untouched

theorem distrust (site : NodeId) (s : Store) : s.Effectless (s.distrust site) := by
  unfold Store.distrust
  split
  · exact of_promises (Nat.le_refl _) (fun _ _ => .untouched) (List.subset_cons_self _ _) rfl
  · exact Chained.refl s

theorem use {s : Store} {id : PromiseId} {env : EnvId} {eager : EagerValue}
    (waiting : (s.promise id).state = .unevaluated env) (ahead : (s.promise id).eager = some eager)
    (standing : eager.deoptimized = false) :
    s.Effectless ((s.share eager.value).fulfil id eager.value) := by
  rw [← Disciplined.promise_share eager.value] at waiting ahead
  exact Chained.trans (share_moves eager.value s) (modifyPromise (.used waiting ahead standing))

theorem giveUp {s : Store} {id : PromiseId} {env : EnvId}
    (waiting : (s.promise id).state = .unevaluated env) (site : NodeId) :
    s.Effectless ((s.deoptimize id).distrust site) :=
  Chained.trans (modifyPromise (.givenUp waiting)) (distrust site _)

/-- A write into a vector that was not there at the start. -/
theorem write {s t : Store} (reached : s.Effectless t) {id : VectorId}
    (new : s.vectors.size ≤ id.index) (f : Container → Container) :
    s.Effectless (t.modifyContainer id f) where
  spares c there := by
    have apart : c ≠ id := fun same => Nat.not_lt_of_le new (same ▸ there)
    exact Chained.trans (reached.spares c) (sparing_modify apart.symm f t) there
  rises c := by
    rw [container_modify]
    split
    · rename_i found
      rw [found.1, container_outside new]
      exact Nat.zero_le _
    · exact reached.rises c
  promises := reached.promises
  settles := reached.settles
  dots := reached.dots
  closures := reached.closures
  nodes := reached.nodes
  distrusted := reached.distrusted

theorem moves_classless (id : VectorId) : Moves Effectless (Builtins.classless id) := by
  intro s
  have copied : s.Effectless (duplicate id s).2 := moves_duplicate id s
  have new : s.vectors.size ≤ (duplicate id s).1.index := Nat.le_of_eq (shareAll_size _ s).symm
  change s.Effectless ((do
    Store.setAttribute (duplicate id s).1 "class" none
    pure (.vector (duplicate id s).1) : StoreM Value) (duplicate id s).2).2
  unfold Store.setAttribute
  rw [bind_assoc, seq_apply, ensureWritable_apply]
  cases ((duplicate id s).2.container (duplicate id s).1).sharing.isShared with
  | true => exact copied
  | false => exact copied.write new _

end Effectless
end Store

/-! Sessions. -/

/-- No counter goes back. -/
def Stats.Advances (a b : Stats) : Prop :=
  a.promisesForced ≤ b.promisesForced ∧ a.eagerPromisesCreated ≤ b.eagerPromisesCreated ∧
    a.eagerHits ≤ b.eagerHits ∧ a.eagerDeopts ≤ b.eagerDeopts ∧ a.eagerAborts ≤ b.eagerAborts ∧
      a.classSearches ≤ b.classSearches ∧ a.formalSlowPaths ≤ b.formalSlowPaths ∧
        a.framesCollected ≤ b.framesCollected

theorem Stats.Advances.refl (a : Stats) : a.Advances a := by simp [Stats.Advances]

theorem Stats.Advances.trans {a b c : Stats} (first : a.Advances b) (second : b.Advances c) :
    a.Advances c := by
  unfold Stats.Advances at *
  omega

/-- Objects, call records, the interrupt flag and counters aside, nothing has changed: the frames and
their epoch, the output, the diagnostics, methods of both kinds, and all that is known about code are as
they were. The flag was taken down at most. -/
structure Session.Still (s t : Session) : Prop where
  rest : t = { s with
    store := t.store, records := t.records, interrupt := t.interrupt, stats := t.stats }
  store : s.store.Effectless t.store
  interrupt : t.interrupt = true → s.interrupt = true
  stats : s.stats.Advances t.stats

namespace Session.Still

theorem of_counted {s : Session} {store : Store} {stats : Stats} (moved : s.store.Effectless store)
    (counted : s.stats.Advances stats) : s.Still { s with store, stats } :=
  ⟨rfl, moved, fun raised => raised, counted⟩

theorem of_store {s : Session} {store : Store} (moved : s.store.Effectless store) :
    s.Still { s with store } := of_counted moved (Stats.Advances.refl _)

theorem refl (s : Session) : s.Still s := of_store (Store.Chained.refl _)

theorem trans {s t u : Session} (first : s.Still t) (second : t.Still u) : s.Still u where
  rest := second.rest.trans (congrArg (fun x : Session => { x with
    store := u.store, records := u.records, interrupt := u.interrupt, stats := u.stats }) first.rest)
  store := Store.Chained.trans first.store second.store
  interrupt raised := first.interrupt (second.interrupt raised)
  stats := first.stats.trans second.stats

theorem records {s t : Session} (rs rs' : Records) (still : s.Still t) :
    Still { s with records := rs } { t with records := rs' } where
  rest := congrArg (fun x : Session => { x with records := rs' }) still.rest
  store := still.store
  interrupt := still.interrupt
  stats := still.stats

theorem takes {id : PromiseId} {env : EnvId} {s : Session}
    (waiting : (s.store.promise id).state = .unevaluated env) : s.Still (takeEagerValue id s).2 := by
  rcases takeEagerValue_cases id s with ⟨_, run⟩ | ⟨eager, ahead, standing, ⟨_, run⟩ | run⟩
  · rw [run]
    exact refl s
  · rw [run]
    exact of_counted (.use waiting ahead standing) (by simp [Stats.Advances])
  · rw [run]
    exact of_counted (.giveUp waiting eager.site) (by simp [Stats.Advances])

end Session.Still

/-- Operations that only compute a value. -/
def StrictOp.computes : StrictOp → Bool
  | combine | makeList | element | length | identical | isNull | getAttribute | classOf | oldClass
  | unclass | inherits | arithmetic _ | compare _ | negate | summary _ | absolute | identity => true
  | _ => false

def Builtin.computes (b : Builtin) : Bool :=
  match b.operation with
  | .strict op => op.computes
  | .special _ => false

theorem Registry.standard_computes {id : Nat} {b : Builtin}
    (found : Registry.standard.functions[id]? = some b) (effects : b.isPure = true) :
    ∃ op, b.operation = .strict op ∧ op.computes = true := by
  have all : ∀ b ∈ Registry.standard.functions.toList, b.isPure = true → b.computes = true := by
    decide +kernel
  have computes := all b (Array.mem_toList_iff.mpr (Array.mem_of_getElem? found)) effects
  unfold Builtin.computes at computes
  split at computes
  · rename_i op operation
    exact ⟨op, operation, computes⟩
  · cases computes

/-- What the standard builtins without effects keep to. -/
def Restraint.effectless : Restraint where
  allows r := r = Registry.standard
  permits op := op.computes = true
  relates _ := Session.Still
  strict allowed found := Registry.standard_computes (allowed ▸ found)
  refl := .refl
  trans := .trans
  records := .records
  lowers _ := ⟨rfl, Store.Chained.refl _, nofun, Stats.Advances.refl _⟩
  shares values s := .of_store (Store.shareAll_moves values s.store)
  takes waiting taken := by
    have still := Session.Still.takes waiting
    rwa [taken] at still

namespace Restraint

open Builtins Confines

variable {ι : Type}

theorem effectless_storing {caller : RecordId} {m : StoreM Value}
    (moves : Store.Moves Store.Effectless m) : effectless.Confines caller fun _ : ι => onStore m :=
  storing fun _ s => .of_store (moves s.store)

theorem effectless_numeric {caller : RecordId} (f : Store → Arguments → Except Failure Elements)
    (args : Arguments) : effectless.Confines caller fun _ : ι => numeric f args :=
  reading fun _ => andThen (lifting _) fun _ => allocating fun s => .of_store (Store.moves_vector _ s.store)

theorem effectless_runs (ev : ι → Evaluator) : effectless.Runs ev := by
  intro op args env caller computes
  unfold runStrict
  cases op with
  | combine => exact effectless_storing (moves_combine _)
  | makeList => exact effectless_storing (moves_makeList _)
  | element => exact effectless_storing (moves_element _)
  | length => exact effectless_storing (moves_length _)
  | identical => exact effectless_storing (moves_identical _)
  | isNull => exact effectless_storing (moves_isNull _)
  | getAttribute => exact effectless_storing (moves_getAttribute _)
  | classOf => exact reading fun _ => effectless_storing (moves_classOf _ _)
  | oldClass => exact effectless_storing (moves_oldClass _)
  | unclass => exact effectless_storing (moves_unclass Store.Effectless.moves_classless _)
  | inherits => exact reading fun _ => effectless_storing (moves_inherits _ _)
  | identity => exact effectless_storing (moves_identity _)
  | arithmetic op | compare op | negate | summary op | absolute => exact effectless_numeric _ _
  | setElement | setAttribute | withAttributes | setClassOf | write | stop | warn | registerMethod
  | defineClass | defineGeneric | defineMethod | newObject | host op => cases computes

end Restraint

/-! Evaluation. -/

/-- Evaluation under one record, with a stranger to evaluate whatever is met under any other. Closures and
the code of promises run under records of their own. -/
def attended (caller : RecordId) (stranger : Nat → Evaluator) : Nat → Evaluator
  | 0 => fun _ _ _ => fail .exhausted
  | depth + 1 => fun e env record =>
    if record = caller then evalStep (attended caller stranger depth) e env record
    else stranger (depth + 1) e env record

theorem attended_eval (caller : RecordId) (depth : Nat) : attended caller eval depth = eval depth := by
  induction depth with
  | zero => rfl
  | succ depth ih =>
    funext e env record
    unfold attended
    rw [ih]
    split <;> rfl

theorem Arg.isSimple_of_mem {r : Registry} {args : List Arg} (simple : Arg.allSimple r args = true) :
    ∀ a ∈ args, a.value.isSimple r = true := by
  induction args with
  | nil => nofun
  | cons a rest ih =>
    obtain ⟨name, e⟩ := a
    simp only [Arg.allSimple, Bool.and_eq_true] at simple
    exact List.forall_mem_cons.mpr ⟨simple.1.2, ih simple.2⟩

theorem attended_step (caller : RecordId) (stranger : Nat → Evaluator) (depth : Nat) (e : Expr) (env : EnvId) :
    attended caller stranger (depth + 1) e env caller =
      evalStep (attended caller stranger depth) e env caller := if_pos rfl

/-- Under a flagged record, simple expressions have no effects and leave no stranger anything to do. -/
theorem effectless_of_simple (caller : RecordId) (depth : Nat) (e : Expr) (env : EnvId)
    (simple : e.isSimple Registry.standard = true) :
    Restraint.effectless.Confines caller fun stranger => attended caller stranger depth e env caller := by
  induction depth generalizing e with
  | zero => exact .failure .exhausted
  | succ depth ih =>
    simp only [attended_step]
    cases e with
    | constant id v => exact .value v
    | symbol id name => exact .readVariable _ _
    | call id f args =>
      simp only [Expr.isSimple, Bool.and_eq_true] at simple
      obtain ⟨named, simple⟩ := simple
      refine .evalCall (Restraint.effectless_runs _) _ _ ?_ fun a member =>
        ih a.value (Arg.isSimple_of_mem simple a member)
      cases symbol : f.symbol? with
      | none =>
        rw [symbol] at named
        cases named
      | some name =>
        unfold calledFunction
        rw [symbol]
        exact .lookupFunction _ _
    | _ => cases simple

/-- The same records are alive, and those made so far are as they were. -/
structure Records.Intact (rs rs' : Records) : Prop where
  alive : rs'.live.map (·.id) = rs.live.map (·.id)
  kept (id : RecordId) : id.index < rs.next → rs'.get? id = rs.get? id

/-- A flag is put back, where nothing else was done to the records made so far. -/
theorem Records.intact_of_raised {rs rs' : Records} {caller : RecordId}
    (raised : (rs.setEagerOnly caller true).Raised rs') :
    rs.Intact (rs'.setEagerOnly caller (rs.eagerOnly caller)) := by
  obtain ⟨_, p, fresh, live⟩ := raised
  let flag (r : Record) : Bool := if r.id = caller then rs.eagerOnly caller else r.eagerOnly || p r.id
  have live' : (rs'.setEagerOnly caller (rs.eagerOnly caller)).live =
      rs.live.map fun r => { r with eagerOnly := flag r } := by
    rw [setEagerOnly_live] at live
    unfold setEagerOnly
    rw [live, List.map_map, List.map_map]
    refine List.map_congr_left fun r _ => ?_
    by_cases own : r.id = caller
    · simp [flag, own]
    · simp [flag, own]
  constructor
  · rw [live', List.map_map]
    rfl
  · intro id made
    unfold get?
    rw [live', find?_flagged]
    cases found : rs.live.find? (·.id = id) with
    | none => rfl
    | some r =>
      have known : r.id = id := by simpa using List.find?_some found
      have unmarked : p r.id = false := by
        refine Bool.eq_false_iff.mpr fun marked => ?_
        exact absurd (fresh r.id marked) (Nat.not_le_of_lt (known ▸ made))
      have same : flag r = r.eagerOnly := by
        by_cases own : r.id = caller
        · have here : rs.eagerOnly caller = r.eagerOnly := by
            unfold eagerOnly get?
            rw [← own, known, found]
            rfl
          simp [flag, own, here]
        · simp [flag, own, unmarked]
      rw [Option.map_some, same]

/-- A session after which nothing has happened but that objects were made, sharing states have risen, values
computed ahead were used or given up, call sites have lost trust, an interrupt was taken and counters have
advanced. -/
structure Session.Effectless (s t : Session) : Prop extends s.Still t where
  records : s.records.Intact t.records

namespace Session.Effectless

theorem refl (s : Session) : s.Effectless s := ⟨.refl s, rfl, fun _ _ => rfl⟩

theorem onward {s t u : Session} (effectless : s.Effectless t) (still : t.Still u)
    (same : u.records = t.records) : s.Effectless u where
  toStill := effectless.toStill.trans still
  records := by
    rw [same]
    exact effectless.records

end Session.Effectless

theorem eagerArgument_effectless {ev : Evaluator} {e : Expr} {env : EnvId} {caller : RecordId} {s : Session}
    (confined : Restraint.effectless.Follows { s with records := s.records.setEagerOnly caller true }
      (ev e env caller { s with records := s.records.setEagerOnly caller true })) (site : NodeId) :
    s.Effectless (eagerArgument ev e env caller site s).2 := by
  unfold eagerArgument
  rw [bind_apply, readHeap_apply]
  cases s.heap.versionSnapshot env with
  | error f => exact .refl s
  | ok versions =>
    dsimp only
    rw [eagerOnly_bind, setEagerOnly_bind, observe_bind, setEagerOnly_bind]
    generalize ev e env caller { s with records := s.records.setEagerOnly caller true } = run
      at confined ⊢
    obtain ⟨outcome, t⟩ := run
    obtain ⟨_, _, raised, still⟩ := confined
    have returned : s.Effectless
        { t with records := t.records.setEagerOnly caller (s.records.eagerOnly caller) } :=
      ⟨still.records s.records _, Records.intact_of_raised raised⟩
    generalize { t with records := t.records.setEagerOnly caller (s.records.eagerOnly caller) } = back
      at returned ⊢
    have counted : back.stats.Advances { back.stats with eagerAborts := back.stats.eagerAborts + 1 } := by
      simp [Stats.Advances]
    rcases outcome with (f | ⟨target, v⟩) | v
    · cases f with
      | condition _ | generic _ => exact returned.onward (.of_counted (.addPromise _ _) counted) rfl
      | cannotOptimize =>
        dsimp only
        cases s.records.eagerOnly caller with
        | true => exact returned
        | false =>
          have moved := Store.Chained.trans (Store.Effectless.distrust site back.store)
            (Store.Effectless.addPromise ⟨e, .unevaluated env, .supplied, some caller, none⟩ _)
          exact returned.onward (.of_counted moved counted) rfl
      | internal _ | interrupted | exhausted => exact returned
    · exact returned
    · exact returned.onward (.of_counted (.addPromise _ _) (by simp [Stats.Advances])) rfl

theorem attended_confined {e : Expr} {caller : RecordId} {s : Session} (standard : s.builtins = Registry.standard)
    (simple : e.isSimple s.builtins = true) (alive : s.records.contains caller = true) (depth : Nat) (env : EnvId) :
    let flagged : Session := { s with records := s.records.setEagerOnly caller true }
    Restraint.effectless.Follows flagged (eval depth e env caller flagged) ∧
      ∀ stranger, attended caller stranger depth e env caller flagged = eval depth e env caller flagged := by
  intro flagged
  rw [standard] at simple
  obtain ⟨r, run, confined⟩ := effectless_of_simple caller depth e env simple flagged standard
    (Records.eagerOnly_setEagerOnly alive)
  have own : eval depth e env caller flagged = r := by
    rw [← attended_eval caller depth]
    exact run eval
  rw [own]
  exact ⟨confined, run⟩

theorem eagerArgument_congr {ev ev' : Evaluator} {e : Expr} {env : EnvId} {caller : RecordId} {s : Session}
    (same : ev e env caller { s with records := s.records.setEagerOnly caller true } =
      ev' e env caller { s with records := s.records.setEagerOnly caller true }) (site : NodeId) :
    eagerArgument ev e env caller site s = eagerArgument ev' e env caller site s := by
  unfold eagerArgument
  rw [bind_apply, bind_apply, readHeap_apply]
  cases s.heap.versionSnapshot env with
  | error f => rfl
  | ok versions =>
    dsimp only
    rw [eagerOnly_bind, eagerOnly_bind, setEagerOnly_bind, setEagerOnly_bind, observe_bind, observe_bind, same]

/-- A simple argument that is evaluated at the call has no effects, however that ends; the record of a call is
alive as long as it runs. Neither a closure nor the code of a promise is entered: the run is the same whatever a
stranger would do with these. -/
theorem eagerArgument_has_no_effects {e : Expr} {caller : RecordId} {s : Session}
    (standard : s.builtins = Registry.standard) (simple : e.isSimple s.builtins = true)
    (alive : s.records.contains caller = true) (depth : Nat) (env : EnvId) (site : NodeId) :
    s.Effectless (eagerArgument (eval depth) e env caller site s).2 ∧
      ∀ stranger, eagerArgument (attended caller stranger depth) e env caller site s =
        eagerArgument (eval depth) e env caller site s := by
  obtain ⟨confined, unattended⟩ := attended_confined standard simple alive depth env
  exact ⟨eagerArgument_effectless confined site, fun stranger => eagerArgument_congr (unattended stranger) site⟩

/-- The name of a builtin without effects is bound to a closure. The early evaluation gives up. -/
theorem eagerArgument_has_no_effects_rebound :
    let function : Value := .closure ⟨0⟩ ⟨⟨0⟩, [⟨"x", none⟩], .symbol ⟨1⟩ "x"⟩ Session.global
    let s : Session := { Session.start {} with
      heap := (Session.start {}).heap.bind Session.global "length" function
      records := (({} : Records).push none none .topLevel).2 }
    let e : Expr := .call ⟨2⟩ (.symbol ⟨3⟩ "length") [⟨none, .constant ⟨4⟩ .null⟩]
    s.builtins = Registry.standard ∧ e.isSimple s.builtins = true ∧ s.records.contains ⟨0⟩ = true ∧
      (eagerArgument (eval 3) e Session.global ⟨0⟩ ⟨2⟩ s).2.stats.eagerAborts = 1 ∧
      s.Effectless (eagerArgument (eval 3) e Session.global ⟨0⟩ ⟨2⟩ s).2 ∧
      ∀ stranger, eagerArgument (attended ⟨0⟩ stranger 3) e Session.global ⟨0⟩ ⟨2⟩ s =
        eagerArgument (eval 3) e Session.global ⟨0⟩ ⟨2⟩ s := by
  intro function s e
  have simple : e.isSimple s.builtins = true := by decide +kernel
  have alive : s.records.contains ⟨0⟩ = true := by decide +kernel
  have aborted : (eagerArgument (eval 3) e Session.global ⟨0⟩ ⟨2⟩ s).2.stats.eagerAborts = 1 := by
    decide +kernel
  exact ⟨rfl, simple, alive, aborted, eagerArgument_has_no_effects rfl simple alive 3 Session.global ⟨2⟩⟩

end CallByNeed
