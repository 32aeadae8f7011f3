import CallByNeed.Proofs.Repeating

/-!
Calls of builtins and whole expressions, evaluated again. The arguments of the second call mirror those of the
first, so it dispatches as the first did, to the builtin itself, and that makes of them what it made then.
-/
namespace CallByNeed

variable {α β : Type}

/-- What the dispatch of a builtin does with the method it chose. -/
def runChosen (ev : Evaluator) (b : Builtin) (call : Expr) (names : List (Option Name)) (values : List Value)
    (env : EnvId) (caller : RecordId) : Option OperandMethod → EvalM (Option Value)
  | some ⟨object, classes, m⟩ =>
    match m.method with
    | .closure id f definedIn => do
      modifyStore (·.shareAll values)
      some <$> invokeClosure ev (.closure id f definedIn) f definedIn call ⟨names, values⟩ caller
        (some ⟨b.name, m.group, classes, m.position, object, env, none⟩)
    | _ => pure none
  | none => pure none

theorem dispatchInternal_eq (ev : Evaluator) (b : Builtin) (call : Expr) (names : List (Option Name))
    (values : List Value) (env : EnvId) (caller : RecordId) :
    dispatchInternal ev b call names values env caller =
      (do
        let found ← operandMethods ev b env caller (values.take b.dispatch.operands)
        let chosen ← chooseMethod b call caller found
        runChosen ev b call names values env caller chosen) := rfl

/-- A record pushed, flagged or not, and released again leaves those alive that were. -/
theorem Records.live_released {rs : Records} (issued : rs.Issued) (parent : Option RecordId)
    (call : Option Expr)
    (kind : RecordKind) (flag : Bool) :
    (((rs.push parent call kind).2.setEagerOnly ⟨rs.next⟩ flag).release ⟨rs.next⟩).live = rs.live := by
  have others : (rs.live.map fun r => if r.id = ⟨rs.next⟩ then { r with eagerOnly := flag } else r) = rs.live := by
    refine (List.map_congr_left fun r member => if_neg fun same => ?_).trans (List.map_id _)
    have older := issued r member
    rw [same] at older
    exact absurd older (Nat.lt_irrefl _)
  unfold push setEagerOnly release
  simp [others]

namespace Reprise

variable {K : Reprise} {s t s' t' : Session} {caller : RecordId}

theorem again_reading {R : Store → Store → α → β → Prop} {f : Session → EvalM α} {g : Session → EvalM β}
    (again : K.Again R (f s) (g t) s t) : K.Again R (get >>= f) (get >>= g) s t := again

/-- What needs lazy evaluation has not come to a value. -/
theorem again_guarded {R : Store → Store → α → β → Prop} (flagged : s.records.eagerOnly caller = true)
    (f : Unit → EvalM α) (n : EvalM β) : K.Again R (ensureLazy caller >>= f) n s t := by
  refine again_failed fun a => ?_
  rw [bind_apply, ensureLazy_apply, flagged]
  nofun

theorem Echoes.guarded {R : Store → Store → α → β → Prop} (f : Unit → EvalM α) (n : EvalM β) :
    K.Echoes caller R (ensureLazy caller >>= f) n :=
  ⟨.guarded fun _ => f, fun _ _ _ flagged => again_guarded flagged f n⟩

theorem sameChains {u w : Store} {implicit : ImplicitClasses} (same : K.session.implicit = implicit)
    (mirrors : ∀ v, K.known v → u.Mirrors w v v) : Builtins.SameChains implicit u w := by
  intro v v' related
  have chain : implicit.ofValue u v = implicit.ofValue w v' := by
    cases v with
    | vector a =>
      obtain ⟨b, rfl⟩ := related.eq_vector
      have elements := related.elements
      change implicit.ofElements (u.elements a) = implicit.ofElements (w.elements b)
      generalize u.elements a = xs, w.elements b = ys at elements
      cases elements <;> rfl
    | _ => cases related with
      | plain plain => rfl
  subst same
  rw [chain]
  exact (mirrors _ (K.chains w v')).classNames

theorem Facing.chains (facing : K.Facing s t) : Builtins.SameChains s.implicit s.store t.store :=
  sameChains facing.implicit facing.mirrors

theorem Facing.implicit_later (facing : K.Facing s t) : t.implicit = s.implicit := by
  rw [facing.muses.rest]
  exact facing.implicit

/-! The dispatch of a builtin on classed arguments. -/

section

variable {ev ev' : Evaluator} {record : RecordId}

theorem again_operandMethods (b : Builtin) (facing : K.Facing s t) (flagged : s.records.eagerOnly caller = true)
    {vs ws : List Value} (values : s.store.AllMirror t.store vs ws) :
    K.Again (fun _ _ xs ys => xs.map (·.found) = ys.map (·.found))
      (operandMethods ev b K.env caller vs) (operandMethods ev' b K.env record ws) s t := by
  induction vs generalizing s t ws with
  | nil =>
    cases values
    exact again_pure rfl
  | cons v rest ih =>
    cases values with
    | @cons _ w _ rest' here later =>
      refine again_reading ?_
      have classes : t.store.classNames (t.classOf w) = s.store.classNames (s.classOf v) := by
        unfold Session.classOf
        rw [facing.implicit_later]
        exact (Builtins.classNamesOf facing.chains here).symm
      rw [here.isObject]
      cases t.store.isObject w with
      | false => exact ih facing flagged later
      | true =>
        dsimp only [if_true]
        rw [classes]
        refine .seq facing flagged (.findClassMethod _ _)
          ((Echoes.findClassMethod record _ _ _ _).again s t facing flagged) (fun found => ?_)
          fun found _ s₁ t₁ still muses facing₁ flagged₁ same => ?_
        · refine .andThen (.operandMethods b K.env rest) fun _ => ?_
          cases found <;> exact .value _
        · subst same
          have later := Store.AllMirror.mono later still.store.grown muses.store.1
          refine .seq facing₁ flagged₁ (.operandMethods b K.env rest) (ih facing₁ flagged₁ later)
            (fun _ => ?_) fun others others' _ _ _ _ _ _ same => ?_
          · cases found <;> exact .value _
          · cases found with
            | none => exact again_pure same
            | some m => exact again_pure (congrArg (m :: ·) same)

theorem again_chooseMethod (b : Builtin) (call : Expr) (flagged : s.records.eagerOnly caller = true)
    {xs ys : List OperandMethod} (same : xs.map (·.found) = ys.map (·.found)) :
    K.Again (fun _ _ x y => x.map (·.found) = y.map (·.found)) (chooseMethod b call caller xs)
      (chooseMethod b call record ys) s t := by
  match xs, ys, same with
  | [], [], _ => exact again_pure rfl
  | [x], [y], same => exact again_pure (congrArg some (List.cons.inj same).1)
  | x :: x' :: xs, y :: y' :: ys, same =>
    obtain ⟨first, others⟩ := List.cons.inj same
    obtain ⟨second, -⟩ := List.cons.inj others
    dsimp only at first second
    unfold chooseMethod
    dsimp only
    rw [first, second]
    split
    · exact again_pure (congrArg some first)
    · exact again_guarded flagged _ _
  | [_], _ :: _ :: _, same => simp at same
  | _ :: _ :: _, [_], same => simp at same

theorem confined_runChosen (b : Builtin) (call : Expr) (names : List (Option Name)) (values : List Value)
    (env : EnvId)
    (chosen : Option OperandMethod) :
    Restraint.effectless.Confines caller fun _ : Unit => runChosen ev b call names values env caller chosen := by
  cases chosen with
  | none => exact .value _
  | some operand =>
    obtain ⟨object, classes, ⟨method, target, position, group, deferred⟩⟩ := operand
    cases method with
    | closure id f definedIn =>
      exact .andThen (.update (fun _ => rfl) (fun _ => rfl) (Restraint.effectless.shares values)) fun _ =>
        .map some (.guarded _)
    | _ => exact .value _

/-- A closure that was chosen as method has not come to a value. -/
theorem again_runChosen (b : Builtin) (call : Expr) (names : List (Option Name)) (vs ws : List Value)
    (flagged : s.records.eagerOnly caller = true) {x y : Option OperandMethod}
    (same : x.map (·.found) = y.map (·.found)) :
    K.Again (fun _ _ a b => a = none ∧ b = none) (runChosen ev b call names vs K.env caller x)
      (runChosen ev' b call names ws K.env record y) s t := by
  match x, y, same with
  | none, none, _ => exact again_pure ⟨rfl, rfl⟩
  | some ⟨object, classes, m⟩, some ⟨object', classes', m'⟩, same =>
    obtain rfl : m = m' := Option.some.inj same
    unfold runChosen
    dsimp only
    cases m.method with
    | closure id f definedIn =>
      intro a s' run _
      obtain ⟨_, u, shared, onward⟩ := parts_of_bind run
      have flagged' : u.records.eagerOnly caller = true := by
        cases shared
        exact flagged
      rw [map_eq_pure_bind] at onward
      obtain ⟨_, _, invoked, _⟩ := parts_of_bind onward
      unfold invokeClosure at invoked
      rw [bind_apply, ensureLazy_apply, flagged'] at invoked
      cases invoked
    | _ => exact again_pure ⟨rfl, rfl⟩

/-- A dispatch that gave way to the builtin itself does so again. -/
theorem again_dispatchInternal (b : Builtin) (call : Expr) (names : List (Option Name)) (facing : K.Facing s t)
    (flagged : s.records.eagerOnly caller = true) {vs ws : List Value} (values : s.store.AllMirror t.store vs ws) :
    K.Again (fun _ _ a b => a = none ∧ b = none) (dispatchInternal ev b call names vs K.env caller)
      (dispatchInternal ev' b call names ws K.env record) s t := by
  have operands : s.store.AllMirror t.store (vs.take b.dispatch.operands) (ws.take b.dispatch.operands) :=
    List.forall₂_take _ values
  rw [dispatchInternal_eq, dispatchInternal_eq]
  refine .seq facing flagged (.operandMethods b K.env _)
    (again_operandMethods b facing flagged operands)
    (fun found => .andThen (.chooseMethod b call found) fun _ => confined_runChosen b call names vs K.env _)
    fun found found' s₁ t₁ _ _ facing₁ flagged₁ same => ?_
  exact .seq facing₁ flagged₁ (.chooseMethod b call found) (again_chooseMethod b call flagged₁ same)
    (fun _ => confined_runChosen b call names vs K.env _)
    fun chosen chosen' s₂ t₂ _ _ _ flagged₂ same => again_runChosen b call names vs ws flagged₂ same

/-! Builtins that only compute. -/

/-- What a computation makes of objects that mirror those of then. -/
def Mirrored (m n : EvalM Value) (s t : Session) : Prop :=
  ∀ a s', m s = (.ok a, s') → ∃ b store, n t = (.ok b, { t with store }) ∧ t.store.Extended store ∧
    s'.store.Mirrors store a b

omit K caller record ev ev' in
theorem mirrored_onStore {m n : StoreM Value} (pairs : Store.Pairs Store.Mirrors m n s.store t.store)
    (moves : Store.Moves Store.Extended n) : Mirrored (onStore m) (onStore n) s t := by
  intro a s' run
  rw [onStore_apply] at run
  rcases first : m s.store with ⟨f | v, store⟩
  · rw [first] at run
    cases run
  · rw [first] at run
    cases run
    obtain ⟨b, store', again, _, _, mirrors⟩ := pairs a store first
    have moved := moves t.store
    rw [again] at moved
    refine ⟨b, store', ?_, moved, mirrors⟩
    rw [onStore_apply, again]

omit K caller record ev ev' in
theorem mirrored_reading {f g : Session → EvalM Value} (mirrored : Mirrored (f s) (g t) s t) :
    Mirrored (get >>= f) (get >>= g) s t := mirrored

omit K caller record ev ev' in
theorem mirrored_numeric {f : Store → Arguments → Except Failure Elements} {args args' : Arguments}
    (same : f s.store args = f t.store args') (atomic : ∀ xs, f s.store args = .ok xs → xs.isList = false) :
    Mirrored (numeric f args) (numeric f args') s t := by
  intro a s' run
  unfold numeric at run ⊢
  rw [get_bind] at run ⊢
  rw [← same]
  cases result : f s.store args with
  | error e =>
    rw [result] at run
    cases run
  | ok xs =>
    rw [result] at run
    cases run
    exact ⟨_, _, rfl, Store.moves_vector (R := Store.Extended) xs t.store,
      .made _ _ (.atomic (atomic xs result)) ⟨.nil, List.nodup_nil⟩⟩

omit K caller record ev ev' in
theorem extended_classless (id : VectorId) : Store.Moves Store.Extended (Builtins.classless id) := by
  intro s
  rw [Builtins.classless_apply]
  exact Store.Chained.trans (Store.shareAll_moves _ s) (Store.Owning.addVector _ _)

open Builtins in
theorem mirrored_runStrict {op : StrictOp} (computes : op.computes = true) (facing : K.Facing s t)
    {args args' : Arguments} (paired : args.Paired (s.store.Mirrors t.store) args') (env env' : EnvId)
    (rs rs' : Records) (own own' : RecordId) :
    Mirrored (runStrict ev op ⟨args, env, own⟩) (runStrict ev' op ⟨args', env', own'⟩) { s with records := rs }
      { t with records := rs' } := by
  unfold runStrict
  cases op with
  | combine => exact mirrored_onStore (pairs_combine paired) (moves_combine _)
  | makeList => exact mirrored_onStore (pairs_makeList paired) (moves_makeList _)
  | element => exact mirrored_onStore (pairs_element paired) (moves_element _)
  | length => exact mirrored_onStore (pairs_length paired) (moves_length _)
  | identical => exact mirrored_onStore (pairs_identical paired) (moves_identical _)
  | isNull => exact mirrored_onStore (pairs_isNull paired) (moves_isNull _)
  | getAttribute => exact mirrored_onStore (pairs_getAttribute paired) (moves_getAttribute _)
  | oldClass => exact mirrored_onStore (pairs_oldClass paired) (moves_oldClass _)
  | unclass => exact mirrored_onStore (pairs_unclass paired) (moves_unclass extended_classless _)
  | identity => exact mirrored_onStore (pairs_identity paired) (moves_identity _)
  | classOf =>
    refine mirrored_reading ?_
    dsimp only
    rw [facing.implicit_later]
    exact mirrored_onStore (pairs_classOf facing.chains paired) (moves_classOf _ _)
  | inherits =>
    refine mirrored_reading ?_
    dsimp only
    rw [facing.implicit_later]
    refine mirrored_onStore (pairs_inherits (fun old new => ?_) paired) (moves_inherits _ _)
    exact sameChains facing.implicit fun v known => (facing.mirrors v known).mono old new
  | arithmetic op => exact mirrored_numeric (arithmetic_eq op paired) fun _ => atomic_of_arithmetic
  | compare op => exact mirrored_numeric (compare_eq op paired) fun _ => atomic_of_compare
  | negate => exact mirrored_numeric (negate_eq paired) fun _ => atomic_of_negate
  | summary op => exact mirrored_numeric (summary_eq op paired) fun _ => atomic_of_summary
  | absolute => exact mirrored_numeric (absolute_eq paired) fun _ => atomic_of_absolute
  | setElement | setAttribute | withAttributes | setClassOf | write | stop | warn | registerMethod
  | defineClass | defineGeneric | defineMethod | newObject | host op => cases computes

theorem Facing.issued (facing : K.Facing s t) : t.records.Issued := by
  intro r member
  rw [facing.muses.live] at member
  exact Nat.lt_of_lt_of_le (K.issued r member) facing.muses.next

omit K caller record ev ev' in
/-- A builtin that came to a value did so on its own, under a record that was there meanwhile. -/
theorem runBuiltin_ok_iff {ev : Evaluator} {b : Builtin} {op : StrictOp} {call : Expr}
    {names : List (Option Name)}
    {values : List Value} {env : EnvId} {caller : RecordId} {a : Value} :
    let under := (s.records.push (some caller) (some call) (.builtin b.name)).2
    let records := under.setEagerOnly ⟨s.records.next⟩ (s.records.eagerOnly caller)
    runBuiltin ev b op call names values env caller s = (.ok a, s') ↔
      ∃ u, runStrict ev op ⟨⟨names, values⟩, env, ⟨s.records.next⟩⟩ { s with records } = (.ok a, u) ∧
        s' = { u with records := u.records.release ⟨s.records.next⟩ } := by
  intro under records
  have opened : runBuiltin ev b op call names values env caller s =
      releasing ⟨s.records.next⟩ (attributeTo call (runStrict ev op ⟨⟨names, values⟩, env, ⟨s.records.next⟩⟩))
        { s with records } := rfl
  obtain ⟨kept, answers⟩ := attributeTo_session call (runStrict ev op ⟨⟨names, values⟩, env, ⟨s.records.next⟩⟩)
    { s with records }
  rw [opened]
  unfold releasing
  generalize attributeTo call (runStrict ev op ⟨⟨names, values⟩, env, ⟨s.records.next⟩⟩) { s with records } = ended
    at kept answers ⊢
  obtain ⟨r, w⟩ := ended
  constructor
  · intro run
    cases run
    exact ⟨w, Prod.ext ((answers a).mp rfl) kept.symm, rfl⟩
  · rintro ⟨u, run, rfl⟩
    rw [run] at kept answers
    obtain rfl : w = u := kept
    obtain rfl : r = .ok a := (answers a).mpr rfl
    rfl

theorem again_runBuiltin {op : StrictOp} (computes : op.computes = true) (b : Builtin) (call : Expr)
    (names : List (Option Name)) (facing : K.Facing s t) {vs ws : List Value}
    (values : s.store.AllMirror t.store vs ws) (env env' : EnvId) :
    K.Again Store.Mirrors (runBuiltin ev b op call names vs env caller)
      (runBuiltin ev' b op call names ws env' record) s t := by
  intro a s' run _
  obtain ⟨u, ran, rfl⟩ := runBuiltin_ok_iff.mp run
  have paired : Arguments.Paired (s.store.Mirrors t.store) ⟨names, vs⟩ ⟨names, ws⟩ := ⟨rfl, values⟩
  obtain ⟨c, store, again, extended, mirrors⟩ := mirrored_runStrict computes facing paired
    env env' _ ((t.records.push (some record) (some call) (.builtin b.name)).2.setEagerOnly ⟨t.records.next⟩
      (t.records.eagerOnly record)) _ ⟨t.records.next⟩ a u ran
  refine ⟨c, _, runBuiltin_ok_iff.mpr ⟨_, again, rfl⟩, ⟨rfl, extended, ?_, Nat.le_succ _⟩, mirrors⟩
  exact Records.live_released facing.issued _ _ _ _

theorem again_invokeStrict {op : StrictOp} {b : Builtin} (operation : b.operation = .strict op)
    (computes : op.computes = true) (call : Expr) (names : List (Option Name)) (facing : K.Facing s t)
    (flagged : s.records.eagerOnly caller = true) {vs ws : List Value} (values : s.store.AllMirror t.store vs ws) :
    K.Again Store.Mirrors (invokeStrict ev b call names vs K.env caller true)
      (invokeStrict ev' b call names ws K.env record true) s t := by
  have runs (s t : Session) (facing : K.Facing s t) (values : s.store.AllMirror t.store vs ws) :
      K.Again Store.Mirrors (runBuiltin ev b op call names vs K.env caller)
        (runBuiltin ev' b op call names ws K.env record) s t :=
    again_runBuiltin computes b call names facing values K.env K.env
  have confined : Restraint.effectless.Confines caller fun _ : Unit =>
      runBuiltin ev b op call names vs K.env caller :=
    .runBuiltin (Restraint.effectless_runs fun _ => ev) computes b call names vs K.env
  unfold invokeStrict
  rw [operation]
  by_cases dispatches : (true && decide (b.dispatch ≠ .none)) = true
  · rw [if_pos dispatches, if_pos dispatches]
    refine .seq facing flagged (.dispatchInternal b call names vs K.env)
      (again_dispatchInternal b call names facing flagged values) (fun dispatched => ?_)
      fun dispatched dispatched' s₁ t₁ still muses facing₁ _ none => ?_
    · cases dispatched with
      | some v => exact .value v
      | none => exact confined
    · obtain ⟨rfl, rfl⟩ := none
      exact runs s₁ t₁ facing₁ (values.mono still.store.grown muses.store.1)
  · rw [if_neg dispatches, if_neg dispatches]
    exact runs s t facing values

/-! Calls, over what is evaluated for them. -/

theorem Echoes.polling : K.Repeats caller checkInterrupt checkInterrupt where
  confined := .polling
  again s t facing _ a s' run _ := by
    have calm : t.interrupt = false := by
      rw [facing.muses.rest]
      exact K.calm
    refine ⟨a, t, ?_, .refl t, rfl⟩
    unfold checkInterrupt
    rw [get_bind, calm]
    rfl

theorem Echoes.findingBuiltin {R : Store → Store → α → β → Prop} {name : Name} {id : Nat}
    {f : Builtin → EvalM α}
    {g : Builtin → EvalM β}
    (rest : ∀ b, (b.isPure = true → ∃ op, b.operation = .strict op ∧ op.computes = true) →
      K.Echoes caller R (f b) (g b)) :
    K.Echoes caller R (findBuiltin name id >>= f) (findBuiltin name id >>= g) where
  confined := .findingBuiltin fun b strict => (rest b strict).confined
  again s t facing flagged a s' run settled := by
    have builtins : t.builtins = s.builtins := by
      rw [facing.muses.rest]
      exact facing.builtins
    cases found : s.builtins.functions[id]? with
    | none =>
      unfold findBuiltin at run
      rw [bind_assoc, get_bind, found] at run
      cases run
    | some b =>
      have strict : b.isPure = true → ∃ op, b.operation = .strict op ∧ op.computes = true :=
        Registry.standard_computes (facing.standard ▸ found)
      rw [bind_apply, findBuiltin_apply found] at run
      rw [bind_apply, findBuiltin_apply (builtins ▸ found)]
      exact (rest b strict).again s t facing flagged a s' run settled

theorem isVarargs_of_isSimple {r : Registry} {e : Expr} (simple : e.isSimple r = true) :
    e.isVarargs = false := by
  unfold Expr.isVarargs
  cases e with
  | symbol id name =>
    simp only [Expr.isSimple, Bool.and_eq_true, Bool.not_eq_true'] at simple
    exact simple.1
  | _ => rfl

theorem isEmpty_of_isSimple {r : Registry} {e : Expr} (simple : e.isSimple r = true) : e.isEmpty = false := by
  cases e <;> first | rfl | cases simple

theorem Echoes.evaluateArgs {r : Registry} {args : List Arg} (simple : ∀ a ∈ args, a.value.isSimple r = true)
    (h : ∀ a ∈ args, K.Echoes caller Store.Mirrors (ev a.value K.env caller) (ev' a.value K.env record)) :
    K.Echoes caller (fun s t xs ys => xs.1 = ys.1 ∧ s.AllMirror t xs.2 ys.2) (evaluateArgs ev K.env caller args)
      (evaluateArgs ev' K.env record args) := by
  induction args with
  | nil => exact ⟨.value _, fun _ _ _ _ => again_pure ⟨rfl, .nil⟩⟩
  | cons a rest ih =>
    obtain ⟨name, e⟩ := a
    obtain ⟨plain, others⟩ := List.forall_mem_cons.mp simple
    obtain ⟨here, later⟩ := List.forall_mem_cons.mp h
    have unfolded (ev : Evaluator) (record : RecordId) :
        CallByNeed.evaluateArgs ev K.env record (⟨name, e⟩ :: rest) =
        (do
          let v ← ev e K.env record
          let more ← CallByNeed.evaluateArgs ev K.env record rest
          pure (name :: more.1, v :: more.2)) := by
      conv_lhs => unfold CallByNeed.evaluateArgs
      rw [if_neg (Bool.eq_false_iff.mp (isVarargs_of_isSimple plain)),
        if_neg (Bool.eq_false_iff.mp (isEmpty_of_isSimple plain))]
      rfl
    rw [unfolded, unfolded]
    have ih := ih others later
    have onward (v : Value) : Restraint.effectless.Confines caller fun _ : Unit =>
        (do
          let more ← CallByNeed.evaluateArgs ev K.env caller rest
          pure (name :: more.1, v :: more.2) : EvalM (List (Option Name) × List Value)) :=
      ih.confined.andThen fun _ => .value _
    refine here.seq onward fun v w s t facing flagged mirrors => ?_
    refine .seq facing flagged ih.confined (ih.again s t facing flagged) (fun _ => .value _)
      fun more more' s' t' still muses _ _ related => again_pure ⟨?_, ?_⟩
    · rw [related.1]
    · exact .cons (mirrors.mono still.store.grown muses.store.1) related.2

theorem Echoes.callBuiltin {b : Builtin}
    (strict : b.isPure = true → ∃ op, b.operation = .strict op ∧ op.computes = true)
    (call : Expr) {r : Registry} {args : List Arg} (simple : ∀ a ∈ args, a.value.isSimple r = true)
    (h : ∀ a ∈ args, K.Echoes caller Store.Mirrors (ev a.value K.env caller) (ev' a.value K.env record)) :
    K.Echoes caller Store.Mirrors (callBuiltin ev b call args K.env caller)
      (callBuiltin ev' b call args K.env record) := by
  have confined : Restraint.effectless.Confines caller fun _ : Unit =>
      CallByNeed.callBuiltin ev b call args K.env caller :=
    .callBuiltin (Restraint.effectless_runs fun _ => ev) strict call K.env fun a member => (h a member).confined
  refine ⟨confined, fun s t facing flagged => ?_⟩
  unfold CallByNeed.callBuiltin at confined ⊢
  cases effects : b.isPure with
  | false => exact again_guarded flagged _ _
  | true =>
    obtain ⟨op, operation, computes⟩ := strict effects
    rw [operation]
    have evaluated := evaluateArgs simple h
    refine .seq facing flagged evaluated.confined (evaluated.again s t facing flagged) (fun _ => ?_)
      fun xs ys s₁ t₁ _ _ facing₁ flagged₁ related => ?_
    · refine .invokeStrict (Restraint.effectless_runs fun _ => ev) (fun op' same => ?_) call _ _ K.env true
      rw [operation] at same
      cases same
      exact computes
    · obtain ⟨names, vs⟩ := xs
      obtain ⟨names', ws⟩ := ys
      obtain ⟨same, values⟩ := related
      dsimp only at same values ⊢
      subst same
      exact again_invokeStrict operation computes call names facing₁ flagged₁ values

theorem Echoes.evalCall (call : Expr) {f : Expr} {name : Name} (named : f.symbol? = some name) {r : Registry}
    {args : List Arg} (simple : ∀ a ∈ args, a.value.isSimple r = true)
    (h : ∀ a ∈ args, K.Echoes caller Store.Mirrors (ev a.value K.env caller) (ev' a.value K.env record)) :
    K.Echoes caller Store.Mirrors (evalCall ev call f args K.env caller)
      (evalCall ev' call f args K.env record) := by
  unfold CallByNeed.evalCall calledFunction
  rw [named]
  refine polling.andThen fun _ => (lookupFunction record name).andThen fun function => ?_
  cases function with
  | closure id f definedIn => exact .guarded _ _
  | builtin name id => exact .findingBuiltin fun b strict => callBuiltin strict call simple h
  | _ => exact ⟨.failure _, fun _ _ _ _ => again_failed nofun⟩

end

end Reprise

/-- What an expression without effects is made of: itself, and what the arguments of its calls are made of. -/
inductive Expr.Comprises (e : Expr) : Expr → Prop
  | self : Comprises e e
  | arg {id : NodeId} {f : Expr} {args : List Arg} {a : Arg} (call : Comprises e (.call id f args))
      (member : a ∈ args) : Comprises e a.value

theorem Expr.Comprises.trans {e x y : Expr} (first : e.Comprises x) (second : x.Comprises y) :
    e.Comprises y := by
  induction second with
  | self => exact first
  | arg _ member ih => exact .arg ih member

mutual

/-- How many evaluations nest in that of an expression made of calls alone. -/
def Expr.nesting : Expr → Nat
  | .call _ _ args => Arg.nesting args + 1
  | _ => 1

def Arg.nesting : List Arg → Nat
  | [] => 0
  | ⟨_, e⟩ :: rest => max e.nesting (Arg.nesting rest)

end

theorem Expr.nesting_pos (e : Expr) : 0 < e.nesting := by
  cases e <;> simp [Expr.nesting]

theorem Arg.nesting_le {a : Arg} {args : List Arg} (member : a ∈ args) : a.value.nesting ≤ Arg.nesting args := by
  induction args with
  | nil => cases member
  | cons b rest ih =>
    obtain ⟨_, e⟩ := b
    rw [Arg.nesting]
    rcases List.mem_cons.mp member with rfl | later
    · exact Nat.le_max_left _ _
    · exact Nat.le_trans (ih later) (Nat.le_max_right _ _)

namespace Reprise

variable {K : Reprise} {caller record : RecordId}

/-- What a simple expression reads is in sight. -/
structure Sights (K : Reprise) (e : Expr) : Prop where
  literals : ∀ id v, e.Comprises (.constant id v) → K.known v
  bindings : ∀ id name place v a, e.Comprises (.symbol id name) →
    K.session.heap.lookup K.env name = .ok (some (place, v)) → K.Yields v a → K.known a ∨ a = .missing

theorem Sights.argument {id : NodeId} {f : Expr} {args : List Arg} {a : Arg}
    (sights : K.Sights (.call id f args))
    (member : a ∈ args) : K.Sights a.value where
  literals id v part := sights.literals id v (.trans (.arg .self member) part)
  bindings id name place v b part := sights.bindings id name place v b (.trans (.arg .self member) part)

/-- A simple expression that came to a value early comes to one that mirrors it when it is evaluated again,
however deep that is, as long as its own calls can nest there. -/
theorem echoes_eval {e : Expr} (depth : Nat) {deep : Nat} (room : e.nesting ≤ deep)
    (simple : e.isSimple Registry.standard = true) (sights : K.Sights e) :
    K.Echoes caller Store.Mirrors (eval depth e K.env caller) (eval deep e K.env record) := by
  induction depth generalizing deep e with
  | zero => exact ⟨.failure _, fun _ _ _ _ => again_failed nofun⟩
  | succ depth ih =>
    obtain ⟨deep, rfl⟩ := Nat.exists_eq_add_one_of_ne_zero
      (Nat.ne_zero_of_lt (Nat.lt_of_lt_of_le e.nesting_pos room))
    change K.Echoes caller Store.Mirrors (evalStep (eval depth) e K.env caller)
      (evalStep (eval deep) e K.env record)
    cases e with
    | constant id v =>
      refine ⟨.value v, fun s t facing _ => again_pure ?_⟩
      exact facing.mirrors v (sights.literals id v .self)
    | symbol id name =>
      simp only [Expr.isSimple, Bool.and_eq_true, Bool.not_eq_true'] at simple
      exact .readVariable simple.1 simple.2 record fun place v a => sights.bindings id name place v a .self
    | call id f args =>
      simp only [Expr.isSimple, Bool.and_eq_true] at simple
      obtain ⟨named, simple⟩ := simple
      have each := Arg.isSimple_of_mem simple
      cases symbol : f.symbol? with
      | none =>
        rw [symbol] at named
        cases named
      | some name =>
        exact .evalCall _ symbol each fun a member =>
          ih (Nat.le_trans (Arg.nesting_le member) (Nat.le_of_succ_le_succ room)) (each a member)
            (sights.argument member)
    | _ => cases simple

end Reprise
end CallByNeed
