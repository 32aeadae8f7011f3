import CallByNeed.Proofs.Promises
import CallByNeed.Proofs.Setters

/-!
Assignment through a path of accessors over a variable. Its replacements write in place into exactly
those containers of the path that are not shared; every other variable keeps its binding, and keeps its
contents unless these hold a container that was written in place.
-/
namespace CallByNeed

/-- Targets such as `attr(x[[i]], "names")`: accessors applied to a variable, one around the other. -/
inductive Path (x : Name) : Expr → Prop
  | root (id : NodeId) : Path x (.symbol id x)
  | part (id : NodeId) {f : Expr} (a : Accessor) (known : f.symbol? = some a.name)
    (name : Option Name) {first : Expr} (extra : List Arg) (inner : Path x first) :
    Path x (.call id f (⟨name, first⟩ :: extra))

namespace Session

/-- What a frame that is alive binds a name to. -/
def bound? (s : Session) (frame : EnvId) (name : Name) : Option (Option Value) :=
  (s.heap.frame? frame).map (·.bindings.get? name)

/-- What a variable reads as with nothing evaluated: the value it is bound to, or that of an evaluated
promise. -/
def reading? (s : Session) (frame : EnvId) (name : Name) : Option Value :=
  match (s.bound? frame name).join with
  | some (.promise id) => (s.store.promises[id.index]?).bind (·.state.value?)
  | v => v

/-- No binding but that of one variable changes. -/
def KeepsOthers (env : EnvId) (x : Name) (s t : Session) : Prop :=
  ∀ frame name, s.heap.contains frame → (frame, name) ≠ (env, x) →
    t.bound? frame name = s.bound? frame name

/-- Nothing that is there changes: no binding, and no container. -/
structure Quiet (s t : Session) : Prop where
  bindings : ∀ frame name, s.heap.contains frame → t.bound? frame name = s.bound? frame name
  containers : ∀ c, Store.Sparing c s.store t.store

end Session

/-- One call of a replacement function: its arguments, the session before they were evaluated, the one
it is called in, and what it gives. -/
structure Replacement where
  setter : Value
  args : Arguments
  start : Session
  ready : Session
  updated : Value

namespace Replacement

/-- The value a replacement function is to change. -/
def target? (r : Replacement) : Option Value := r.args.get? "x" 0

/-- The evaluation of the arguments changes nothing, and the function is the standard one of an
accessor. -/
def Undisturbed (r : Replacement) : Prop :=
  r.start.Quiet r.ready ∧ ∃ (a : Accessor) (name : Name) (id : Nat) (b : Builtin),
    r.setter = .builtin name id ∧ r.ready.builtins.functions[id]? = some b ∧
      b.operation = .strict a.operation

end Replacement

section Replacements
variable (ev : Evaluator) (env : EnvId) (caller : RecordId)

/-- What comes before the call of a replacement function: the current value, the further arguments, the
function and a node for the call. -/
def prepareReplacement (accessor : Name) (first : Expr) (extra : List Arg) (v : Value) :
    EvalM (Value × Expr × Arguments) := do
  let current ← replacedValue ev first env caller false
  let values ← evalAll ev env caller extra
  let setter ← lookupFunction ev (accessor ++ "<-") env caller
  let call ← onStore do callNode (← symbolNode (accessor ++ "<-")) []
  pure (setter, call,
    ⟨none :: extra.map (·.name) ++ [some "value"], current :: values ++ [v]⟩)

def callReplacement (setter : Value) (call : Expr) (args : Arguments) : EvalM Value := do
  match setter with
  | .builtin name id =>
    invokeStrict ev (← findBuiltin name id) call args.names args.values env caller false
  | f => applyValues ev f call args.names args.values env caller

/-- The calls of replacement functions that an assignment makes, as long as they succeed. -/
def replacements : Expr → Value → Session → List Replacement
  | .call _ f (⟨_, first⟩ :: extra), v, s =>
    match prepareReplacement ev env caller (f.symbol?.getD "") first extra v s with
    | (.ok (setter, call, args), ready) =>
      match callReplacement ev env caller setter call args ready with
      | (.ok updated, t) => ⟨setter, args, s, ready, updated⟩ :: replacements first updated t
      | (.error _, _) => []
    | (.error _, _) => []
  | _, _, _ => []

theorem replace_eq (accessor : Name) (current : Value) (extra : List Arg) (v : Value) :
    replace ev accessor current extra v env caller = (do
      let values ← evalAll ev env caller extra
      let setter ← lookupFunction ev (accessor ++ "<-") env caller
      let call ← onStore do callNode (← symbolNode (accessor ++ "<-")) []
      callReplacement ev env caller setter call
        ⟨none :: extra.map (·.name) ++ [some "value"], current :: values ++ [v]⟩) := rfl

/-- What comes before the call of a replacement function, in an assignment to an environment or, if `outer`,
to one further out. -/
def prepareAttempt (outer : Bool) (accessor : Name) (first : Expr) (extra : List Arg) (v : Value) :
    EvalM (Value × Expr × Arguments) := do
  let current ← replacedValue ev first env caller outer
  let values ← evalAll ev env caller extra
  let setter ← lookupFunction ev (accessor ++ "<-") env caller
  let call ← onStore do callNode (← symbolNode (accessor ++ "<-")) []
  pure (setter, call, ⟨none :: extra.map (·.name) ++ [some "value"], current :: values ++ [v]⟩)

theorem assign_attempt (outer : Bool) {id : NodeId} {f : Expr} {accessor : Name}
    (known : f.symbol? = some accessor) (name : Option Name) (first : Expr) (extra : List Arg) (v : Value) :
    assign ev env caller outer (.call id f (⟨name, first⟩ :: extra)) v = (do
      let (setter, call, args) ← prepareAttempt ev env caller outer accessor first extra v
      let updated ← callReplacement ev env caller setter call args
      assign ev env caller outer first updated) := by
  rw [assign, known]
  simp only [prepareAttempt, replace_eq, bind_assoc, pure_bind]

theorem assign_part {id : NodeId} {f : Expr} {accessor : Name} (known : f.symbol? = some accessor)
    (name : Option Name) (first : Expr) (extra : List Arg) (v : Value) :
    assign ev env caller false (.call id f (⟨name, first⟩ :: extra)) v = (do
      let (setter, call, args) ← prepareReplacement ev env caller accessor first extra v
      let updated ← callReplacement ev env caller setter call args
      assign ev env caller false first updated) :=
  assign_attempt ev env caller false known name first extra v

end Replacements

/-! What the parts of an assignment change. -/

namespace Session

variable {env : EnvId} {x : Name} {s t u : Session}

theorem contains_of_bound {frame : EnvId} {name : Name}
    (same : t.bound? frame name = s.bound? frame name) (alive : s.heap.contains frame) :
    t.heap.contains frame := by
  unfold Heap.contains at alive ⊢
  unfold bound? at same
  have mapped := congrArg Option.isSome same
  simp only [Option.isSome_map] at mapped
  rw [mapped]
  exact alive

theorem KeepsOthers.trans (first : KeepsOthers env x s t) (second : KeepsOthers env x t u) :
    KeepsOthers env x s u := by
  intro frame name alive other
  have kept := first frame name alive other
  exact (second frame name (contains_of_bound kept alive) other).trans kept

theorem Quiet.keepsOthers (quiet : s.Quiet t) : KeepsOthers env x s t :=
  fun frame name alive _ => quiet.bindings frame name alive

theorem keepsOthers_of_heap (same : t.heap = s.heap) : KeepsOthers env x s t := by
  intro frame name _ _
  unfold bound?
  rw [same]

theorem keepsOthers_bind {f : Frame} (alive : s.heap.frame? env = some f) (v : Value) :
    KeepsOthers env x s { s with heap := s.heap.bind env x v } := by
  intro frame name _ other
  unfold bound?
  rw [Heap.frame_bind alive]
  split
  · rename_i same
    subst same
    have apart : x ≠ name := fun same => other (by rw [same])
    rw [alive]
    simp only [Option.map_some]
    rw [Table.get?_insert, if_neg apart]
  · rfl

/-- Binding a variable changes no other one, and no container. -/
theorem define_effect (env : EnvId) (x : Name) (v : Value) (s : Session) :
    KeepsOthers env x s (define env x v s).2 ∧
      ∀ c, Store.Sparing c s.store (define env x v s).2.store := by
  rw [define_apply]
  cases alive : s.heap.frame? env with
  | none => exact ⟨keepsOthers_of_heap rfl, fun c => Store.Chained.refl _⟩
  | some f => exact ⟨keepsOthers_bind alive v, fun c => Store.Chained.refl _⟩

/-- An assignment fails before it changes anything, or comes to the binding of the variable to a value that may
have gained an owner. -/
theorem assignVariable_cases (x : Name) (v : Value) (env : EnvId) (outer : Bool) (s : Session) :
    (∃ f, assignVariable x v env outer s = (.error (.failure f), s)) ∨
      ∃ store, (store = s.store ∨ store = s.store.share v) ∧ assignVariable x v env outer s =
        (if outer then updateHeap fun h => (·.2) <$> h.assignOuter env x v else define env x v)
          { s with store } := by
  unfold assignVariable
  rw [bind_apply, readHeap_apply]
  cases replacedBinding s.heap x env outer with
  | error e => exact .inl ⟨e, rfl⟩
  | ok current =>
    dsimp only
    rw [get_bind]
    by_cases held : (current.any fun c => holdsObject s.store c v) = true
    · exact .inr ⟨s.store, .inl rfl, by rw [if_pos held]⟩
    · refine .inr ⟨s.store.share v, .inr rfl, ?_⟩
      rw [if_neg held]
      rfl

/-- An assignment that succeeds has bound the variable, and its value may have gained an owner. -/
theorem assignVariable_ok {env : EnvId} {x : Name} {v : Value} {s t : Session}
    (ok : assignVariable x v env false s = (.ok (), t)) :
    (t.store = s.store ∨ t.store = s.store.share v) ∧ t.bound? env x = some (some v) := by
  rcases assignVariable_cases x v env false s with ⟨f, failed⟩ | ⟨store, owned, bound⟩
  · rw [failed] at ok
    cases ok
  · rw [bound, if_neg Bool.false_ne_true, define_apply] at ok
    dsimp only at ok
    cases alive : s.heap.frame? env with
    | none =>
      rw [alive] at ok
      cases ok
    | some f =>
      rw [alive] at ok
      cases ok
      refine ⟨owned, ?_⟩
      unfold bound?
      rw [Heap.frame_bind alive, if_pos rfl, Option.map_some, Table.get?_insert, if_pos rfl]

theorem assignVariable_effect (env : EnvId) (x : Name) (v : Value) (s : Session) :
    KeepsOthers env x s (assignVariable x v env false s).2 ∧
      ∀ c, Store.Sparing c s.store (assignVariable x v env false s).2.store := by
  rcases assignVariable_cases x v env false s with ⟨f, failed⟩ | ⟨store, owned, bound⟩
  · rw [failed]
    exact ⟨keepsOthers_of_heap rfl, fun c => Store.Chained.refl _⟩
  · obtain ⟨others, spared⟩ := define_effect env x v { s with store }
    rw [bound, if_neg Bool.false_ne_true]
    refine ⟨others, fun c => Store.Chained.trans ?_ (spared c)⟩
    rcases owned with rfl | rfl
    · exact Store.Chained.refl _
    · exact Store.share_moves v s.store

end Session

section Replacements
variable {ev : Evaluator} {env : EnvId} {caller : RecordId} {x : Name}

theorem replacements_part (id : NodeId) {f : Expr} {accessor : Name}
    (known : f.symbol? = some accessor) (name : Option Name) {first : Expr} {extra : List Arg}
    {v setter updated : Value} {call : Expr} {args : Arguments} {s ready t : Session}
    (prepared : prepareReplacement ev env caller accessor first extra v s =
      (.ok (setter, call, args), ready))
    (called : callReplacement ev env caller setter call args ready = (.ok updated, t)) :
    replacements ev env caller (.call id f (⟨name, first⟩ :: extra)) v s =
      ⟨setter, args, s, ready, updated⟩ :: replacements ev env caller first updated t := by
  rw [replacements, known]
  simp only [Option.getD_some, prepared, called]

/-- The call of a standard replacement function is a replacement in the store. -/
theorem callReplacement_storing (ev : Evaluator) (env : EnvId) (caller : RecordId) {a : Accessor}
    {id : Nat} {b : Builtin} {s : Session} (found : s.builtins.functions[id]? = some b)
    (operation : b.operation = .strict a.operation)
    (name : Name) (call : Expr) (args : Arguments) :
    (∃ records, (callReplacement ev env caller (.builtin name id) call args s).2 =
      { s with store := (a.replaceIn args s.store).2, records }) ∧
    ∀ v, (callReplacement ev env caller (.builtin name id) call args s).1 = .ok v ↔
      (a.replaceIn args s.store).1 = .ok v := by
  have run : callReplacement ev env caller (.builtin name id) call args s =
      invokeStrict ev b call args.names args.values env caller false s := by
    change (findBuiltin name id >>= _) s = _
    rw [bind_apply, findBuiltin_apply found]
  rw [run]
  exact invokeStrict_storing operation (fun dispatched => by cases dispatched)
    (fun record => a.runStrict_operation ev ⟨args, env, record⟩) s

theorem callReplacement_ok {a : Accessor} {name : Name} {id : Nat} {b : Builtin} {call : Expr}
    {args : Arguments} {updated : Value} {s t : Session}
    (found : s.builtins.functions[id]? = some b) (operation : b.operation = .strict a.operation)
    (called : callReplacement ev env caller (.builtin name id) call args s = (.ok updated, t)) :
    t.heap = s.heap ∧ a.replaceIn args s.store = (.ok updated, t.store) := by
  have effect := callReplacement_storing ev env caller found operation name call args
  rw [called] at effect
  obtain ⟨⟨records, rfl⟩, answers⟩ := effect
  exact ⟨rfl, Prod.ext ((answers updated).mp rfl) rfl⟩

/-- A standard replacement function changes no binding, and of the containers that are there at most
its target; that one it changes and gives back exactly if it is not shared. -/
theorem callReplacement_effect {a : Accessor} {name : Name} {id : Nat} {b : Builtin}
    {call : Expr} {args : Arguments} {updated : Value} {s t : Session}
    (found : s.builtins.functions[id]? = some b) (operation : b.operation = .strict a.operation)
    (called : callReplacement ev env caller (.builtin name id) call args s = (.ok updated, t)) :
    t.heap = s.heap ∧
      (∀ c, (args.get? "x" 0 = some (.vector c) → (s.store.container c).sharing.isShared) →
        Store.Sparing c s.store t.store) ∧
      ∀ c, args.get? "x" 0 = some (.vector c) →
        (updated = .vector c ↔ (s.store.container c).sharing.isShared = false) := by
  obtain ⟨heap, answer⟩ := callReplacement_ok found operation called
  refine ⟨heap, ?_⟩
  cases given : args.get? "x" 0 with
  | none =>
    rw [a.replaceIn_missing given] at answer
    cases answer
  | some target =>
    have replacing := Store.replacing_replaceIn a given s.store
    rw [answer] at replacing
    refine ⟨fun c shared => ?_, fun c same => ?_⟩
    · exact replacing.spares c fun same => shared (by rw [same])
    · exact replacing.inPlace c updated (Option.some.inj same) rfl

/-- What an assignment through a path changes. -/
theorem assign_effect {target : Expr} (path : Path x target) {v : Value} {s t : Session}
    (run : assign ev env caller false target v s = (.ok (), t))
    (undisturbed : ∀ r ∈ replacements ev env caller target v s, r.Undisturbed) :
    Session.KeepsOthers env x s t ∧
      (∀ c, (∀ r ∈ replacements ev env caller target v s, r.target? = some (.vector c) →
        (r.ready.store.container c).sharing.isShared) → Store.Sparing c s.store t.store) ∧
      ∀ r ∈ replacements ev env caller target v s, ∀ c, r.target? = some (.vector c) →
        (r.updated = .vector c ↔ (r.ready.store.container c).sharing.isShared = false) := by
  induction path generalizing v s with
  | root id =>
    have effect := Session.assignVariable_effect env x v s
    have none : replacements ev env caller (.symbol id x) v s = [] := by rw [replacements]; nofun
    rw [assign] at run
    rw [run] at effect
    rw [none]
    exact ⟨effect.1, fun c _ => effect.2 c, fun r member => absurd member List.not_mem_nil⟩
  | part id a known name extra inner ih =>
    rw [assign_part ev env caller known] at run
    rw [bind_apply] at run
    rcases prepared : prepareReplacement ev env caller a.name _ extra v s with ⟨u | ⟨setter, call, args⟩, ready⟩
    · rw [prepared] at run
      cases run
    · rw [prepared] at run
      dsimp only at run
      rw [bind_apply] at run
      rcases called : callReplacement ev env caller setter call args ready with ⟨u | updated, between⟩
      · rw [called] at run
        cases run
      · rw [called] at run
        dsimp only at run
        rw [replacements_part id known name prepared called] at undisturbed ⊢
        obtain ⟨quiet, _, _, _, _, rfl, found, operation⟩ := undisturbed _ List.mem_cons_self
        obtain ⟨heap, spares, inPlace⟩ := callReplacement_effect found operation called
        obtain ⟨others, spared, further⟩ :=
          ih run fun r member => undisturbed r (List.mem_cons_of_mem _ member)
        refine ⟨?_, fun c shared => ?_, fun r member => ?_⟩
        · exact (quiet.keepsOthers.trans (Session.keepsOthers_of_heap heap)).trans others
        · have written := spares c (shared _ List.mem_cons_self)
          have later := spared c fun r member => shared r (List.mem_cons_of_mem _ member)
          exact Store.Chained.trans (quiet.containers c) (Store.Chained.trans written later)
        · rcases List.mem_cons.mp member with rfl | below
          · exact inPlace
          · exact further r below

end Replacements

namespace Session

/-- The containers of a session that an assignment leaves as they are, by the sharing its replacements
find. -/
def Spares (s : Session) (rs : List Replacement) (c : VectorId) : Prop :=
  c.index < s.store.vectors.size ∧
    ∀ r ∈ rs, r.target? = some (.vector c) → (r.ready.store.container c).sharing.isShared

theorem reading_kept {s t : Session} {frame : EnvId} {name : Name} {w : Value}
    (bound : t.bound? frame name = s.bound? frame name) (promises : Disciplined s.ledger t.ledger)
    (reads : s.reading? frame name = some w) : t.reading? frame name = some w := by
  unfold reading? at reads ⊢
  rw [bound]
  split at reads
  · rename_i id found
    obtain ⟨p, there, value⟩ := Option.bind_eq_some_iff.mp reads
    obtain ⟨inside, _⟩ := Array.getElem?_eq_some_iff.mp there
    have evaluated : (s.store.promise id).state = .evaluated w := by
      unfold Store.promise
      rw [there]
      cases state : p.state <;> simp_all [PromiseState.value?]
    have still : (t.store.promise id).state = .evaluated w := promises.evaluated id w inside evaluated
    have within : id.index < t.store.promises.size := Nat.lt_of_lt_of_le inside promises.grown
    unfold Store.promise at still
    rw [Array.getElem?_eq_getElem within] at still ⊢
    change (t.store.promises[id.index]).state.value? = some w
    rw [show (t.store.promises[id.index]).state = .evaluated w from still]
    rfl
  · exact reads

theorem eval_assign_parts {depth : Nat} {id : NodeId} {target value : Expr} {outer : Bool} {env : EnvId}
    {caller : RecordId} {v : Value} {s t : Session}
    (run : eval (depth + 1) (.assign id target value outer) env caller s = (.ok v, t)) :
    (eval depth value env caller s).1 = .ok v ∧
      assign (eval depth) env caller outer target v (eval depth value env caller s).2 =
        (.ok (), t) := by
  obtain ⟨w, between, valued, assigned⟩ := parts_of_bind (m := eval depth value env caller) run
  obtain ⟨_, after, assigned, given⟩ := parts_of_bind assigned
  cases given
  rw [valued]
  exact ⟨rfl, assigned⟩

/-- An assignment through a path that succeeds, whose expressions change nothing and whose replacement
functions are the standard ones, writes into the containers of the path that are not shared. Every
variable but the assigned one keeps its binding and reads as the same value, and the contents of that
value are the same if and only if those of the written containers they lead to are. -/
theorem replacement_spares_variables {x : Name} {target : Expr} (path : Path x target) {depth : Nat}
    {id : NodeId} {value : Expr} {env : EnvId} {caller : RecordId} {v : Value} {s t : Session}
    (run : eval (depth + 1) (.assign id target value false) env caller s = (.ok v, t))
    (quiet : s.Quiet (eval depth value env caller s).2)
    (undisturbed : ∀ r ∈ replacements (eval depth) env caller target v (eval depth value env caller s).2,
      r.Undisturbed) :
    let rs := replacements (eval depth) env caller target v (eval depth value env caller s).2
    (∀ r ∈ rs, ∀ c, r.target? = some (.vector c) →
      (r.updated = .vector c ↔ (r.ready.store.container c).sharing.isShared = false)) ∧
    ∀ frame name, s.heap.contains frame → (frame, name) ≠ (env, x) →
      t.bound? frame name = s.bound? frame name ∧
      ∀ w, s.reading? frame name = some w → t.reading? frame name = some w ∧
        (s.store.SameContents w t.store w ↔ ∀ c, s.store.Meets (s.Spares rs) w c →
          s.store.SameContents (.vector c) t.store (.vector c)) := by
  intro rs
  have promises : Disciplined s.ledger t.ledger := by
    have kept := keeps_eval (R := Disciplined) (depth + 1) (.assign id target value false) env caller s
    rw [run] at kept
    exact kept
  have assigned := (eval_assign_parts run).2
  obtain ⟨others, spared, inPlace⟩ := assign_effect path assigned undisturbed
  refine ⟨inPlace, fun frame name alive other => ?_⟩
  have bound := (quiet.keepsOthers.trans others) frame name alive other
  refine ⟨bound, fun w reads => ⟨reading_kept bound promises reads, ?_⟩⟩
  refine Store.sameContents_iff_meets (fun c spares => ?_) w
  have before := quiet.containers c
  exact (Store.Chained.trans before (spared c spares.2) spares.1).2

theorem quiet_of_same {s t : Session} (heap : t.heap = s.heap)
    (vectors : t.store.vectors = s.store.vectors) : s.Quiet t := by
  constructor
  · intro frame name _
    unfold bound?
    rw [heap]
  · intro c there
    unfold Store.Agrees Store.container
    rw [vectors]
    exact ⟨there, rfl, rfl⟩

/-- A session in which a host bound two variables to one unshared vector. -/
def aliased : Session :=
  let store := (Store.addVector ⟨.integer [1, 2], {}, .temporary⟩ (start {}).store).2
  let made := { start {} with store := (Store.addVector ⟨.character ["k"], {}, .shared⟩ store).2 }
  (defineIn global "y" (.vector ⟨10⟩) (defineIn global "x" (.vector ⟨10⟩) made).2).2

/-- `attr(x, "k")`, with the constant that `aliased` holds. -/
def attributeOfX : Expr :=
  .call ⟨2⟩ (.symbol ⟨3⟩ "attr") [⟨none, .symbol ⟨0⟩ "x"⟩, ⟨none, .constant ⟨1⟩ (.vector ⟨11⟩)⟩]

/-- What comes before the call of `attr<-` in an assignment to `attributeOfX`. -/
def aliasedReady : Except Unwind (Value × Expr × Arguments) × Session :=
  prepareReplacement (eval 3) global ⟨0⟩ "attr" (.symbol ⟨0⟩ "x")
    [⟨none, .constant ⟨1⟩ (.vector ⟨11⟩)⟩] (.vector ⟨11⟩) aliased

set_option maxRecDepth 10000 in
theorem aliased_replacements :
    replacements (eval 3) global ⟨0⟩ attributeOfX (.vector ⟨11⟩) aliased =
      [⟨.builtin "attr<-" 8, ⟨[none, none, some "value"],
        [.vector ⟨10⟩, .vector ⟨11⟩, .vector ⟨11⟩]⟩, aliased, aliasedReady.2, .vector ⟨10⟩⟩] := by
  let call : Expr := .call ⟨1⟩ (.symbol ⟨0⟩ "attr<-") []
  let args : Arguments := ⟨[none, none, some "value"], [.vector ⟨10⟩, .vector ⟨11⟩, .vector ⟨11⟩]⟩
  have prepared : aliasedReady = (.ok (.builtin "attr<-" 8, call, args), aliasedReady.2) := rfl
  rcases called : callReplacement (eval 3) global ⟨0⟩ (.builtin "attr<-" 8) call args
    aliasedReady.2 with ⟨updated, t⟩
  have result : updated = .ok (.vector ⟨10⟩) := (congrArg Prod.fst called).symm.trans rfl
  rw [result] at called
  have parts := replacements_part ⟨2⟩ (f := .symbol ⟨3⟩ "attr") rfl none prepared called
  rw [replacements] at parts
  exact parts

set_option maxRecDepth 10000 in
/-- An attribute set through one of two variables bound to an unshared vector shows in the other. -/
theorem unshared_alias_replaced :
    let t := (eval 4 (.assign ⟨4⟩ attributeOfX (.constant ⟨1⟩ (.vector ⟨11⟩)) false) global ⟨0⟩
      aliased).2
    aliased.Reachable ∧ t.reading? global "y" = some (.vector ⟨10⟩) ∧
      ¬ aliased.store.SameContents (.vector ⟨10⟩) t.store (.vector ⟨10⟩) := by
  intro t
  have succeeds : (eval 4 (.assign ⟨4⟩ attributeOfX (.constant ⟨1⟩ (.vector ⟨11⟩)) false) global ⟨0⟩
      aliased).1.isOk = true := by decide +kernel
  rcases run : eval 4 (.assign ⟨4⟩ attributeOfX (.constant ⟨1⟩ (.vector ⟨11⟩)) false) global ⟨0⟩
    aliased with ⟨u | v, after⟩
  · rw [run] at succeeds
    cases succeeds
  · have constant : v = .vector ⟨11⟩ := by
      cases (eval_assign_parts run).1
      rfl
    have undisturbed : ∀ r ∈ replacements (eval 3) global ⟨0⟩ attributeOfX v aliased,
        r.Undisturbed := by
      intro r member
      rw [constant, aliased_replacements] at member
      obtain rfl := List.mem_singleton.mp member
      exact ⟨quiet_of_same rfl rfl, .attributeOf, "attr<-", 8, _, rfl, rfl, rfl⟩
    have path : Path "x" attributeOfX := .part _ .attributeOf rfl none _ (.root _)
    have others := (replacement_spares_variables path run (quiet_of_same rfl rfl) undisturbed).2
      global "y" rfl (by decide)
    have reads : after.reading? global "y" = some (.vector ⟨10⟩) := (others.2 _ rfl).1
    have same : t = after := congrArg Prod.snd run
    refine ⟨⟨{}, ?_⟩, by rw [same]; exact reads, fun same => ?_⟩
    · exact (((Relation.ReflTransGen.single (.makeVector _ _)).tail (.makeVector _ _)).tail
        (.defineIn _ _ _ _)).tail (.defineIn _ _ _ _)
    · refine Store.not_sameContents_self ?_ same
      decide +kernel

end Session
end CallByNeed
