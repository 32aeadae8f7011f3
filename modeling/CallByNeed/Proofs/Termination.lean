import CallByNeed.Proofs.Signal
import Mathlib.Data.Set.Finite.Basic
import Mathlib.Order.Filter.AtTopBot.Basic
import Mathlib.Order.Filter.Finite

/-!
Evaluation ends. Calls are nested no deeper than the limit on depth, but promises and the parts of an
expression go deeper without calls. Where the limit is reached no call goes through, so no promise made
from there on is ever seen; those that are in sight are finitely many, and each is forced at most once on
the way down. Methods that run in the place of the function that dispatched are left out: they go no
deeper, and nothing bounds those of `UseMethod` and `standardGeneric`. Those of `NextMethod` come to an end of
their classes, but a promise may call for one from far below, and that goes back up to the depth of the method
the promise was made in.
-/
namespace CallByNeed

/-- The names of the builtins that run a method in the place of a function, or make one that does. -/
def dispatchNames : List Name := ["UseMethod", "NextMethod", "standardGeneric", "setGeneric", "setMethod"]

theorem methodName_not_mem (generic className : Name) : generic ++ "." ++ className ∉ dispatchNames := by
  intro member
  have plain : ∀ name ∈ dispatchNames, '.' ∉ name.toList := by decide
  exact plain _ member (by simp)

theorem setterName_not_mem (name : Name) : name ++ "<-" ∉ dispatchNames := by
  intro member
  have plain : ∀ name ∈ dispatchNames, '<' ∉ name.toList := by decide
  exact plain _ member (by simp)

/-- Some promises may be mentioned, and the builtins of a registry that neither dispatch from inside a
function nor give up by themselves. -/
def Ambit.undispatched (r : Registry) (promise : PromiseId → Prop) : Ambit where
  closed := False
  promise := promise
  builtin id := ∀ b, r.functions[id]? = some b → b.operation.dispatches = false ∧ ¬b.Raises .exhausted
  symbol name := name ∉ dispatchNames
  varargs := by decide
  method := methodName_not_mem
  setter := setterName_not_mem

/-! What keeps to an ambit with some promises, for promises that come one after the other to the ambits
of a family, at last keeps to those. -/

section Reaching

variable {ι α : Type} {l : Filter ι} {r : Registry} {n : Nat} {P : PromiseId → Prop}
  {Q : ι → PromiseId → Prop}

theorem eventually_forall_mem {p : ι → α → Prop} (xs : List α) (each : ∀ x ∈ xs, ∀ᶠ i in l, p i x) :
    ∀ᶠ i in l, ∀ x ∈ xs, p i x := (Filter.eventually_all_finite (List.finite_toSet xs)).mpr each

theorem eventually_forall_array {p : ι → α → Prop} (xs : Array α)
    (each : ∀ x ∈ xs, ∀ᶠ i in l, p i x) : ∀ᶠ i in l, ∀ x ∈ xs, p i x := by
  filter_upwards [eventually_forall_mem xs.toList fun x member => each x (Array.mem_toList_iff.mp member)]
    with i all x member
  exact all x (Array.mem_toList_iff.mpr member)

theorem eventually_forall_some {p : ι → α → Prop} (x : Option α)
    (each : ∀ a, x = some a → ∀ᶠ i in l, p i a) : ∀ᶠ i in l, ∀ a, x = some a → p i a := by
  cases x with
  | none => exact .of_forall fun _ => nofun
  | some a =>
    filter_upwards [each a rfl] with i ok b same
    cases same
    exact ok

variable (gained : ∀ id, P id → ∀ᶠ i in l, Q i id)

namespace Ambit

include gained

theorem Allows.reach {m : Mention} (ok : (undispatched r P).Allows n m) :
    ∀ᶠ i in l, (undispatched r (Q i)).Allows n m := by
  cases m with
  | promise id => exact gained id ok
  | vector id | builtin id | symbol name => exact .of_forall fun _ => ok

theorem Admits.reach {v : Value} (ok : (undispatched r P).Admits n v) :
    ∀ᶠ i in l, (undispatched r (Q i)).Admits n v :=
  eventually_forall_mem _ fun m mentioned => Allows.reach gained (ok m mentioned)

theorem Reads.reach {e : Expr} (ok : (undispatched r P).Reads n e) :
    ∀ᶠ i in l, (undispatched r (Q i)).Reads n e :=
  eventually_forall_mem _ fun m mentioned => Allows.reach gained (ok m mentioned)

theorem AdmitsAll.reach {vs : List Value} (ok : (undispatched r P).AdmitsAll n vs) :
    ∀ᶠ i in l, (undispatched r (Q i)).AdmitsAll n vs :=
  eventually_forall_mem vs fun v member => Admits.reach gained (ok v member)

theorem AdmitsAny.reach {v : Option Value} (ok : (undispatched r P).AdmitsAny n v) :
    ∀ᶠ i in l, (undispatched r (Q i)).AdmitsAny n v :=
  eventually_forall_some v fun w same => Admits.reach gained (ok w same)

theorem AllowsPromise.reach {p : Promise} (ok : (undispatched r P).AllowsPromise n p) :
    ∀ᶠ i in l, (undispatched r (Q i)).AllowsPromise n p := by
  filter_upwards [ok.expr.reach gained, ok.value.reach gained, ok.eager.reach gained]
    with i expr value eager
  exact ⟨expr, value, eager⟩

theorem AllowsRecord.reach {record : Record} (ok : (undispatched r P).AllowsRecord n record) :
    ∀ᶠ i in l, (undispatched r (Q i)).AllowsRecord n record := by
  filter_upwards [eventually_forall_some _ fun e same => (ok.call e same).reach gained,
    ok.function.reach gained,
    eventually_forall_some _ fun s same => (ok.supplied s same).reach gained,
    eventually_forall_some _ fun d same => (ok.object d same).reach gained]
    with i call function supplied object
  exact ⟨call, function, supplied, object⟩

theorem AllowsCache.reach {cache : DispatchCache} (ok : (undispatched r P).AllowsCache n cache) :
    ∀ᶠ i in l, (undispatched r (Q i)).AllowsCache n cache := by
  filter_upwards [eventually_forall_some _ fun e same => (ok.last e same).reach gained,
    eventually_forall_mem _ fun e member => (ok.named e member).reach gained] with i last named
  exact ⟨last, named⟩

end Ambit

include gained

theorem Store.Sound.reach {s : Store} (sound : s.Sound (.undispatched r P)) :
    ∀ᶠ i in l, s.Sound (.undispatched r (Q i)) := by
  filter_upwards [eventually_forall_array _ fun c member => (sound.vectors c member).reach gained,
    eventually_forall_array _ fun p member => (sound.promises p member).reach gained,
    eventually_forall_array _ fun d member => (sound.dots d member).reach gained]
    with i vectors promises dots
  exact ⟨vectors, promises, dots⟩

theorem Heap.Sound.reach {h : Heap} (sound : h.Sound (.undispatched r P) n) :
    ∀ᶠ i in l, h.Sound (.undispatched r (Q i)) n := by
  have bindings := eventually_forall_array h.slots fun slot member =>
    eventually_forall_some slot.frame fun f there =>
      eventually_forall_mem f.bindings.entries fun entry bound =>
        Filter.eventually_imp_distrib_left.mpr fun allowed =>
          (sound.bindings slot member f there entry bound allowed).reach gained
  filter_upwards [bindings] with i bound
  exact ⟨sound.free, bound⟩

theorem Session.Sound.reach {s : Session} (sound : s.Sound (.undispatched r P)) :
    ∀ᶠ i in l, s.Sound (.undispatched r (Q i)) := by
  filter_upwards [sound.store.reach gained, sound.heap.reach gained,
    eventually_forall_mem _ fun record member => (sound.records.within record member).reach gained,
    sound.methods.reach gained,
    eventually_forall_array _ fun t member => (sound.tables t member).reach gained,
    eventually_forall_mem _ fun site member => (sound.caches site member).reach gained]
    with i store heap within methods tables caches
  exact ⟨store, heap, { sound.records with within }, methods, tables, caches⟩

end Reaching

/-! The same the other way round: what a session keeps to or does within narrower ambits. -/

section Widening

variable {r : Registry} {P Q : PromiseId → Prop} {w s t : Session} (wider : ∀ id, P id → Q id)

include wider

theorem Ambit.Admits.widen {n : Nat} {v : Value} (ok : (undispatched r P).Admits n v) :
    (undispatched r Q).Admits n v :=
  Filter.eventually_pure.mp <| ok.reach (l := pure ()) (Q := fun _ => Q) fun id there =>
    Filter.eventually_pure.mpr (wider id there)

theorem Session.Sound.widen (sound : s.Sound (.undispatched r P)) : s.Sound (.undispatched r Q) :=
  Filter.eventually_pure.mp <| sound.reach (l := pure ()) (Q := fun _ => Q) fun id there =>
    Filter.eventually_pure.mpr (wider id there)

theorem Ambit.Change.widen {vs ws : Array Container} (change : (undispatched r P).Change vs ws) :
    (undispatched r Q).Change vs ws := by
  cases change with
  | make c held => exact .make c fun v member => (held v member).widen wider
  | raise i f up => exact .raise i f up
  | write i f keeps unshared held _ =>
    exact .write i f keeps unshared (fun c there v member => (held c there v member).widen wider) trivial

theorem Session.Follows.widen (follows : w.Follows (.undispatched r P) s) :
    w.Follows (.undispatched r Q) s :=
  ⟨{ follows with course :=
      Relation.ReflTransGen.mono (fun _ _ => Ambit.Change.widen wider) _ _ follows.course }, follows.live⟩

end Widening

/-! How deep records are. -/

namespace Session

variable {A : Ambit} {c : RecordId} {w s : Session} {r : Record}

theorem Beside.get? (beside : w.Beside A c s) (id : RecordId) :
    (s.records.get? id).map (·.depth) = (w.records.get? id).map (·.depth) := by
  have same {rs : Records} (live : s.records.live = rs.live) : s.records.get? id = rs.get? id := by
    unfold Records.get?
    rw [live]
  rcases beside.live with kept | flagged
  · rw [same kept]
  · rw [same flagged, Records.get?_setEagerOnly, Option.map_map]
    congr 1
    funext r
    dsimp only [Function.comp]
    split <;> rfl

theorem Beside.depth (beside : w.Beside A c s) (id : RecordId) :
    s.records.depth id = w.records.depth id := by
  unfold Records.depth
  rw [beside.get?]

theorem Beside.contains (beside : w.Beside A c s) {id : RecordId}
    (alive : w.records.contains id = true) : s.records.contains id = true := by
  unfold Records.contains at alive ⊢
  have found := congrArg Option.isSome (beside.get? id)
  rw [Option.isSome_map, Option.isSome_map] at found
  exact found.trans alive

/-- A record that was opened is alive, one level below its parent. -/
theorem Nests.alive (nests : w.Nests A s r) (sound : s.Sound A) : s.records.contains r.id = true := by
  unfold Records.contains
  rw [sound.records.get?_of_mem (nests.live ▸ List.mem_cons_self)]
  rfl

theorem Nests.depth_eq (nests : w.Nests A s r) (sound : s.Sound A) (parent : r.parent = some c)
    (alive : w.records.contains c = true) : s.records.depth r.id = w.records.depth c + 1 := by
  unfold Records.depth
  rw [sound.records.get?_of_mem (nests.live ▸ List.mem_cons_self)]
  exact nests.depth c parent alive

/-- Below the limit on depth, everything is. -/
theorem Nests.deep (nests : w.Nests A s r) (sound : s.Sound A) (parent : r.parent = some c)
    (deep : w.options.maxDepth ≤ w.records.depth c) : s.options.maxDepth ≤ s.records.depth r.id := by
  rw [nests.options]
  cases alive : w.records.contains c with
  | true =>
    rw [nests.depth_eq sound parent alive]
    exact Nat.le_succ_of_le deep
  | false =>
    have absent : w.records.get? c = none := by simpa [Records.contains] using alive
    have top : w.records.depth c = 0 := by simp [Records.depth, absent]
    omega

end Session

/-- Evaluations with more and more room have to come to an end. -/
def Regime.deepening (r : Registry) (promise : PromiseId → Prop) : Regime where
  ι := Nat
  late := Filter.atTop
  proper := inferInstance
  ambit := .undispatched r promise
  total := True

namespace Regime

variable {α : Type} {r : Registry} {P : PromiseId → Prop} {s w : Session} {c : RecordId}

theorem Conducts.deeper {Q : Nat → α → Prop} {m : Nat → EvalM α}
    (conducts : (deepening r P).Conducts w Q fun n : Nat => m (n + 1)) : (deepening r P).Conducts w Q m := by
  intro s sound follows
  obtain ⟨a, t, runs, rest⟩ := conducts s sound follows
  refine ⟨a, t, ?_, rest⟩
  change ∀ᶠ n in Filter.atTop, m n s = (a, t)
  rw [← Filter.map_add_atTop_eq_nat 1]
  exact Filter.eventually_map.mpr runs

theorem deepening_lenient (ev : Nat → Evaluator) : (deepening r P).Lenient ev r := by
  intro b known dispatches
  obtain ⟨id, allowed, found⟩ := known
  have not := (allowed b found).1
  rw [dispatches] at not
  cases not

/-- Where the limit is reached evaluations end: no call goes through, and each promise in sight that is
forced on the way is one fewer to wait for. -/
theorem refusing_evaluates (seen waiting : Finset PromiseId) (s : Session) (e : Expr) (env : EnvId)
    (c : RecordId) (builtins : s.builtins = r) (waits : ∀ id ∈ seen, s.store.Open id → id ∈ waiting)
    (issued : c.index < s.records.next) (childless : s.records.Childless c)
    (deep : s.options.maxDepth ≤ s.records.depth c)
    (reads : (Ambit.undispatched r (· ∈ seen)).Reads s.extent e) :
    (deepening r (· ∈ seen)).Conducts s (Ambit.undispatched r (· ∈ seen)).Admits
      fun n => eval n e env c := by
  -- Forcing a promise takes it from those that wait; all else that is nested is a part of the expression.
  induction waiting using Finset.strongInduction generalizing s e env c with
  | H waiting fewer =>
    induction size : sizeOf e using Nat.strong_induction_on generalizing s e env with
    | _ _ smaller =>
      have ready : (deepening r (· ∈ seen)).Ready eval s c := by
        refine ⟨issued, .inr deep, fun t q e env sound nests parent reads closer => ?_⟩
        obtain ⟨id, allowed, before, begun⟩ := closer.resolve_left (Nat.not_lt.mpr deep)
        refine fewer (waiting.erase id) (Finset.erase_ssubset (waits id allowed before)) t e env q.id
          (nests.builtins.trans builtins) (fun other member waits' => ?_)
          (nests.issued sound) nests.childless
          (nests.deep sound parent deep) reads
        refine Finset.mem_erase.mpr ⟨fun same => begun (same ▸ waits'), ?_⟩
        exact waits other member (nests.opens other waits')
      refine Conducts.deeper (Conducts.evalStep (fun _ _ => trivial) ready
        (builtins ▸ deepening_lenient eval) childless env reads fun t e' follows less ok => ⟨ok, fun u env' beside => ?_⟩)
      have late := follows.beside beside
      refine smaller (sizeOf e') (size ▸ less) u e' env' (late.builtins.trans builtins)
        (fun id member waits' => waits id member (late.opens id waits'))
        (Nat.lt_of_lt_of_le issued late.next) (late.childless childless) ?_ (ok.mono beside.extent_le) rfl
      rw [late.options, late.depth]
      exact deep

/-- A session mentions finitely many promises. -/
theorem sound_seen {e : Expr} (sound : s.Sound (.undispatched r fun _ => True))
    (reads : (Ambit.undispatched r fun _ => True).Reads s.extent e) :
    ∃ seen : Finset PromiseId, s.Sound (.undispatched r (· ∈ seen)) ∧
      (Ambit.undispatched r (· ∈ seen)).Reads s.extent e := by
  have gained (id : PromiseId) (_ : True) : ∀ᶠ seen : Finset PromiseId in Filter.atTop, id ∈ seen := by
    filter_upwards [Filter.eventually_ge_atTop {id}] with seen le
    exact le (Finset.mem_singleton_self id)
  exact ((sound.reach gained).and (reads.reach gained)).exists

/-- Where the limit is reached evaluations end, whatever promises there are. -/
theorem deep_evaluates (e : Expr) (env : EnvId) (builtins : s.builtins = r)
    (issued : c.index < s.records.next) (childless : s.records.Childless c)
    (deep : s.options.maxDepth ≤ s.records.depth c)
    (reads : (Ambit.undispatched r fun _ => True).Reads s.extent e) :
    (deepening r fun _ => True).Conducts s (Ambit.undispatched r fun _ => True).Admits
      fun n => eval n e env c := by
  intro t sound follows
  have beside : s.Beside (.undispatched r fun _ => True) c t := ⟨follows.toEvolves, .inl follows.live⟩
  obtain ⟨seen, within, reads⟩ := sound_seen sound (reads.mono follows.extent_le)
  obtain ⟨a, u, runs, sound', follows', ends⟩ := refusing_evaluates seen seen t e env c
    (follows.builtins.trans builtins) (fun _ member _ => member)
    (Nat.lt_of_lt_of_le issued follows.next) (follows.childless childless)
    (by rwa [follows.options, beside.depth]) reads t within (.refl t)
  refine ⟨a, u, runs, sound'.widen fun _ _ => trivial, follows'.widen fun _ _ => trivial, ?_⟩
  have all : ∀ id, id ∈ seen → True := fun _ _ => trivial
  have permits {f : Failure} (ok : (deepening r (· ∈ seen)).Permits t f) :
      (deepening r fun _ => True).Permits t f := ⟨ok.lazily, ok.wholly⟩
  rcases a with (f | ⟨target, v⟩) | v
  · exact Permits.back (permits ends) follows
  · exact Ambit.Admits.widen all ends
  · exact Ambit.Admits.widen all ends

/-- Evaluations end, by induction on the calls that may still be nested. -/
theorem deepening_evaluates (s : Session) (e : Expr) (env : EnvId) (c : RecordId)
    (builtins : s.builtins = r) (alive : s.records.contains c = true)
    (issued : c.index < s.records.next) (childless : s.records.Childless c)
    (reads : (Ambit.undispatched r fun _ => True).Reads s.extent e) :
    (deepening r fun _ => True).Conducts s (Ambit.undispatched r fun _ => True).Admits
      fun n => eval n e env c := by
  induction room : s.options.maxDepth - s.records.depth c using Nat.strong_induction_on
    generalizing s e env c with
  | _ _ deeper =>
    by_cases deep : s.options.maxDepth ≤ s.records.depth c
    · exact deep_evaluates e env builtins issued childless deep reads
    -- Calls and promises both open a record one level deeper, so only parts of the expression stay here.
    induction size : sizeOf e using Nat.strong_induction_on generalizing s e env with
    | _ _ smaller =>
      have ready : (deepening r fun _ => True).Ready eval s c := by
        refine ⟨issued, .inl fun _ => trivial, fun t q e env sound nests parent reads _ => ?_⟩
        refine deeper _ ?_ t e env q.id (nests.builtins.trans builtins) (nests.alive sound)
          (nests.issued sound) nests.childless reads rfl
        rw [nests.options, nests.depth_eq sound parent alive]
        omega
      refine Conducts.deeper (Conducts.evalStep (fun _ _ => trivial) ready
        (builtins ▸ deepening_lenient eval) childless env reads fun t e' follows less ok => ⟨ok, fun u env' beside => ?_⟩)
      have late := follows.beside beside
      refine smaller (sizeOf e') (size ▸ less) u e' env' (late.builtins.trans builtins)
        (late.contains alive) (Nat.lt_of_lt_of_le issued late.next) (late.childless childless)
        (ok.mono beside.extent_le) ?_ ?_ rfl
      · rw [late.options, late.depth]
        exact room
      · rwa [late.options, late.depth]

end Regime

namespace Session

variable {s t : Session}

/-- Code and values that keep clear of dispatch from inside functions, and of builtins that give up. -/
abbrev range (s : Session) : Ambit := .undispatched s.builtins fun _ => True

/-- All a session holds does. -/
def Undispatched (s : Session) : Prop := s.Sound s.range

theorem reportFailure_kept (s : Session) (f : Failure) :
    (s.reportFailure f).options = s.options ∧ (s.reportFailure f).builtins = s.builtins := by
  cases f <;> exact ⟨rfl, rfl⟩

theorem undispatched_start (options : Options) : (start options).Undispatched := by
  refine sound_start options fun b id found allowed c same => ?_
  have clear : ∀ b ∈ Registry.standard.functions, b.name ∉ dispatchNames →
      b.operation.dispatches = false ∧ ¬b.Raises .exhausted := by decide
  cases found.symm.trans same
  exact clear b (Array.mem_of_getElem? found) allowed

/-- However deep calls may be nested: in a session clear of dispatch from inside functions, an expression
that is clear of it too ends with a value or an error, the same for all the room there is for evaluation
if it is enough, and leaves the session clear of it. And where calls are nested as deep as they may be, a
call of a closure ends in the condition that says so. -/
theorem evaluation_ends (undispatched : s.Undispatched) {e : Expr} (reads : s.range.Reads s.extent e)
    (env : EnvId) :
    (∃ r t, (∃ enough, ∀ n ≥ enough, evalWith (eval n) e env s = (r, t)) ∧ r ≠ .error .exhausted ∧
      t.options = s.options ∧ t.builtins = s.builtins ∧ t.Undispatched) ∧
    ∀ (ev : Evaluator) (closure : Value) (f : Function) (definedIn : EnvId) (call : Expr)
      (supplied : Supplied) (slots : List FormalSlot) (c : RecordId) (dispatch : Option DispatchContext)
      (u : Session),
      u.options.maxDepth ≤ u.records.depth c →
        applyClosure ev closure f definedIn call supplied slots c dispatch u =
          (.error (.failure (recursionLimit.withCall (some (u.store.exprText call)))), u) := by
  refine ⟨?_, fun ev closure f definedIn call supplied slots c dispatch u deep => ?_⟩
  · obtain ⟨a, t, runs, sound, follows, ends⟩ := Regime.topLevel
      (K := .deepening s.builtins fun _ => True) (m := fun n => eval n e env) undispatched
        fun u r sound nests _ => Regime.deepening_evaluates u e env r.id nests.builtins
          (nests.alive sound) (nests.issued sound) nests.childless
          (reads.mono nests.extent_le)
    change ∀ᶠ n in Filter.atTop (α := Nat), _ at runs
    obtain ⟨enough, runs⟩ := Filter.eventually_atTop.mp runs
    have clear (u : Session) (builtins : u.builtins = s.builtins) (sound : u.Sound s.range) :
        u.Undispatched := by
      unfold Undispatched range
      rwa [builtins]
    rcases a with u | v
    · have still := reportFailure_kept t u.toFailure
      refine ⟨.error u.toFailure, t.reportFailure u.toFailure, ⟨enough, fun n le => ?_⟩, fun same => ?_,
        still.1.trans follows.options, still.2.trans follows.builtins, ?_⟩
      · unfold evalWith atTopLevel
        rw [runs n le]
      · rcases u with f | ⟨target, v⟩
        · cases same
          obtain ⟨b, ⟨id, allowed, found⟩, raises⟩ := Regime.Permits.wholly ends rfl trivial
          exact (allowed b found).2 raises
        · cases same
      · exact clear _ (still.2.trans follows.builtins) (sound.reportFailure u.toFailure)
    · refine ⟨.ok v, t, ⟨enough, fun n le => ?_⟩, nofun, follows.options, follows.builtins,
        clear t follows.builtins sound⟩
      unfold evalWith atTopLevel
      rw [runs n le]
  · unfold applyClosure
    rw [bind_apply, Regime.Conducts.enterFrame_refused deep]

/-- A function that does nothing but call itself. -/
theorem endless_recursion_ends :
    let f : Function := ⟨⟨3⟩, [⟨"x", none⟩], .call ⟨4⟩ (.symbol ⟨5⟩ "f") [⟨none, .symbol ⟨6⟩ "x"⟩]⟩
    let e : Expr := .block ⟨0⟩ [.assign ⟨1⟩ (.symbol ⟨2⟩ "f") (.function f) false,
      .call ⟨7⟩ (.symbol ⟨8⟩ "f") [⟨none, .symbol ⟨9⟩ "f"⟩]]
    let s := start { maxDepth := 5 }
    (evalIn e global s).2.diagnostics.map (·.code) = [some "lzr::recursion_limit"] ∧
      ∃ r t, (∃ enough, ∀ n ≥ enough, evalWith (eval n) e global s = (r, t)) ∧ r ≠ .error .exhausted ∧
        t.options = s.options ∧ t.builtins = s.builtins ∧ t.Undispatched := by
  intro f e s
  have reads : s.range.Reads s.extent e := by
    have names : ∀ m ∈ e.mentions, m = .symbol "f" ∨ m = .symbol "x" := by
      simp [e, f, Expr.mentions, Expr.allMentions, Function.mentions, Formal.allMentions,
        Expr.optionMentions, Arg.allMentions]
    intro m mentioned
    rcases names m mentioned with rfl | rfl
    · exact (by decide : "f" ∉ dispatchNames)
    · exact (by decide : "x" ∉ dispatchNames)
  exact ⟨by decide +kernel, (evaluation_ends (undispatched_start _) reads global).1⟩

end Session

end CallByNeed
