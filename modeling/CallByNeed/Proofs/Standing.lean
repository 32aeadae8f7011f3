import CallByNeed.Proofs.CacheTiers
import CallByNeed.Proofs.Recall

/-!
Methods remembered by class. A call site that answers from its cache gives the method that a search would
find now, as long as the names tried are not bound to promises: neither now nor where the method was found.
What a search sees of the frames above a scope are then the functions bound there, and these stay as they
are while the stamp of the entry is current. A promise is different. It may hold a function, yet binding the
name anew does not move the function epoch.
-/
namespace CallByNeed

theorem ok_of_toOption {α β ε : Type} {r : Except ε α} {f : α → β} {b : β} (found : r.toOption.map f = some b) :
    ∃ a, r = .ok a ∧ f a = b := by
  cases r with
  | error e => cases found
  | ok a => exact ⟨a, rfl, Option.some.inj found⟩

namespace Heap

variable {h k : Heap} {id e q : EnvId} {name : Name} {v : Value} {n m : Nat}

/-! Lookup chains. -/

def parent? (h : Heap) (id : EnvId) : Option EnvId := (h.frame? id).bind (·.parent)

/-- The environment some steps above another one. -/
def ancestor (h : Heap) (id : EnvId) (steps : Nat) : Option EnvId :=
  (fun e : Option EnvId => e.bind h.parent?)^[steps] (some id)

theorem ancestor_succ (steps : Nat) : h.ancestor id (steps + 1) = (h.ancestor id steps).bind h.parent? :=
  Function.iterate_succ_apply' _ _ _

theorem ancestor_above (above : h.parent? id = some q) (steps : Nat) :
    h.ancestor id (steps + 1) = h.ancestor q steps := by
  unfold ancestor
  rw [Function.iterate_succ_apply]
  exact congrArg _ above

theorem ancestor_outermost (outermost : h.parent? id = none) (steps : Nat) :
    h.ancestor id (steps + 1) = none := by
  induction steps with
  | zero => exact outermost
  | succ steps ih => rw [ancestor_succ, ih]; rfl

theorem ancestor_add (steps : Nat) {d : Nat} (same : h.ancestor id n = h.ancestor id d) :
    h.ancestor id (n + steps) = h.ancestor id (d + steps) := by
  induction steps with
  | zero => exact same
  | succ steps ih =>
    change h.ancestor id (n + steps + 1) = h.ancestor id (d + steps + 1)
    rw [ancestor_succ, ancestor_succ, ih]

theorem chainUpTo_succ (n : Nat) (id : EnvId) :
    h.chainUpTo (n + 1) id = id :: ((h.parent? id).map (h.chainUpTo n)).getD [] := rfl

theorem mem_chainUpTo_iff : e ∈ h.chainUpTo n id ↔ ∃ steps < n, h.ancestor id steps = some e := by
  induction n generalizing id with
  | zero => simp [chainUpTo]
  | succ n ih =>
    rw [chainUpTo_succ, List.mem_cons]
    constructor
    · rintro (rfl | above)
      · exact ⟨0, Nat.succ_pos _, rfl⟩
      · cases parent : h.parent? id with
        | none => rw [parent] at above; cases above
        | some q =>
          rw [parent] at above
          obtain ⟨steps, lt, found⟩ := ih.mp above
          exact ⟨steps + 1, Nat.succ_lt_succ lt, (ancestor_above parent steps).trans found⟩
    · rintro ⟨steps, lt, found⟩
      cases steps with
      | zero => exact .inl (Option.some.inj found).symm
      | succ steps =>
        right
        cases parent : h.parent? id with
        | none => rw [ancestor_outermost parent] at found; cases found
        | some q =>
          rw [ancestor_above parent] at found
          exact ih.mpr ⟨steps, Nat.lt_of_succ_lt_succ lt, found⟩

theorem self_mem_chain : id ∈ h.chain id := mem_chainUpTo_iff.mpr ⟨0, Nat.succ_pos _, rfl⟩

theorem exists_ancestor (found : h.ancestor id (n + 1) = some q) :
    ∀ i ≤ n, ∃ e, h.ancestor id i = some e ∧ h.contains e := by
  induction n generalizing q with
  | zero =>
    intro i le
    obtain ⟨e, below, above⟩ := Option.bind_eq_some_iff.mp (ancestor_succ 0 ▸ found)
    obtain ⟨f, there, -⟩ := Option.bind_eq_some_iff.mp above
    exact ⟨e, Nat.le_zero.mp le ▸ below, contains_iff_exists.mpr ⟨f, there⟩⟩
  | succ n ih =>
    obtain ⟨e, below, above⟩ := Option.bind_eq_some_iff.mp (ancestor_succ (n + 1) ▸ found)
    obtain ⟨f, there, -⟩ := Option.bind_eq_some_iff.mp above
    intro i le
    rcases Nat.le_succ_iff.mp le with lower | rfl
    · exact ih below i lower
    · exact ⟨e, below, contains_iff_exists.mpr ⟨f, there⟩⟩

/-- With more ancestors alive than there are slots some environment comes up twice. -/
theorem exists_ancestor_again (found : h.ancestor id (h.slots.size + 1) = some q) :
    ∃ i j, i < j ∧ j ≤ h.slots.size ∧ h.ancestor id i = h.ancestor id j := by
  have alive := exists_ancestor found
  let place (i : Nat) : Nat := ((h.ancestor id i).getD id).index
  have inside : Set.MapsTo place (Finset.range (h.slots.size + 1)) (Finset.range h.slots.size) := by
    intro i member
    obtain ⟨e, there, contains⟩ := alive i (Nat.lt_succ_iff.mp (Finset.mem_range.mp member))
    refine Finset.mem_coe.mpr (Finset.mem_range.mpr ?_)
    simpa [place, there] using index_lt contains
  have twice {i j : Nat} (hi : i ≤ h.slots.size) (hj : j ≤ h.slots.size) (same : place i = place j) :
      h.ancestor id i = h.ancestor id j := by
    obtain ⟨e, there, contains⟩ := alive i hi
    obtain ⟨e', there', contains'⟩ := alive j hj
    rw [there, there']
    exact congrArg some (eq_of_index_eq contains contains' (by simpa [place, there, there'] using same))
  obtain ⟨i, mi, j, mj, ne, same⟩ :=
    Finset.exists_ne_map_eq_of_card_lt_of_maps_to (by simp) inside
  have hi := Nat.lt_succ_iff.mp (Finset.mem_range.mp mi)
  have hj := Nat.lt_succ_iff.mp (Finset.mem_range.mp mj)
  rcases Nat.lt_or_gt_of_ne ne with lt | gt
  · exact ⟨i, j, lt, hj, twice hi hj same⟩
  · exact ⟨j, i, gt, hi, twice hj hi same.symm⟩

/-- A lookup chain holds the parent of each of its environments: one that is cut short goes round in a
circle. -/
theorem parent?_mem_chain (member : e ∈ h.chain id) (above : h.parent? e = some q) : q ∈ h.chain id := by
  obtain ⟨steps, lt, found⟩ := mem_chainUpTo_iff.mp member
  have next : h.ancestor id (steps + 1) = some q := by rw [ancestor_succ, found]; exact above
  by_cases room : steps + 1 < h.slots.size + 1
  · exact mem_chainUpTo_iff.mpr ⟨steps + 1, room, next⟩
  · -- The chain is cut short here. It came by some environment twice, and goes on from the first time.
    have last : steps = h.slots.size := by omega
    obtain ⟨i, j, lt, le, again⟩ := exists_ancestor_again (last ▸ next)
    have earlier := ancestor_add (steps + 1 - j) again
    rw [Nat.add_sub_cancel' (by omega), next] at earlier
    exact mem_chainUpTo_iff.mpr ⟨i + (steps + 1 - j), by omega, earlier⟩

/-! What a search sees of a chain. -/

/-- The first function bound to a name along a chain. -/
def visible (h : Heap) (name : Name) : List EnvId → Except Failure (Option Value)
  | [] => .ok none
  | id :: rest =>
    match h.frame? id with
    | none => .error (collected id)
    | some f =>
      match f.function? name with
      | some v => .ok (some v)
      | none => h.visible name rest

theorem visible_none_iff {ids : List EnvId} : h.visible name ids = .ok none ↔
    ∀ id ∈ ids, ∃ f, h.frame? id = some f ∧ f.function? name = none := by
  induction ids with
  | nil => simp [visible]
  | cons id rest ih =>
    rw [visible]
    cases found : h.frame? id with
    | none => simp [found]
    | some f =>
      cases bound : f.function? name with
      | some v => simp [found, bound]
      | none => simp [found, bound, ih]

theorem visible_some (stands : h.Stands k) (le : n ≤ m)
    (found : h.visible name (h.chainUpTo n id) = .ok (some v)) :
    k.visible name (k.chainUpTo m id) = .ok (some v) := by
  induction n generalizing id m with
  | zero => cases found
  | succ n ih =>
    obtain ⟨m, rfl⟩ := Nat.exists_eq_add_one_of_ne_zero (Nat.ne_zero_of_lt le)
    rw [chainUpTo_succ, visible] at found ⊢
    cases there : h.frame? id with
    | none => rw [there] at found; cases found
    | some f =>
      obtain ⟨g, there', parent, functions⟩ := stands id f there
      simp only [there, there', functions] at found ⊢
      cases bound : f.function? name with
      | some w => simpa [bound] using found
      | none =>
        have above : h.parent? id = f.parent := by rw [parent?, there]; rfl
        have above' : k.parent? id = f.parent := by rw [parent?, there']; exact parent
        simp only [bound, above, above'] at found ⊢
        generalize f.parent = parent at found
        cases parent with
        | none => cases found
        | some q => exact ih (Nat.le_of_succ_le_succ le) found

theorem chainUpTo_subset_chain (m : Nat) :
    ∀ e ∈ h.chain id, ∀ a ∈ h.chainUpTo m e, a ∈ h.chain id := by
  induction m with
  | zero => exact fun _ _ _ member => absurd member List.not_mem_nil
  | succ m ih =>
    intro e member a later
    rw [chainUpTo_succ, List.mem_cons] at later
    rcases later with rfl | later
    · exact member
    · cases above : h.parent? e with
      | none => rw [above] at later; cases later
      | some q =>
        rw [above] at later
        exact ih q (parent?_mem_chain member above) a later

/-- A lookup chain stays as it is while each of its environments keeps its parent. -/
theorem chainUpTo_kept (kept : ∀ e ∈ h.chain id, k.parent? e = h.parent? e) (m : Nat) :
    ∀ e ∈ h.chain id, k.chainUpTo m e = h.chainUpTo m e := by
  induction m with
  | zero => exact fun _ _ => rfl
  | succ m ih =>
    intro e member
    rw [chainUpTo_succ, chainUpTo_succ, kept e member]
    cases above : h.parent? e with
    | none => rfl
    | some q =>
      exact congrArg (e :: ·) (ih q (parent?_mem_chain member above))

/-- What is visible from an environment stays visible, and what is not does not come into sight. -/
theorem visible_chain (stands : h.Stands k) (size : h.slots.size ≤ k.slots.size) {found : Option Value}
    (seen : h.visible name (h.chain id) = .ok found) : k.visible name (k.chain id) = .ok found := by
  cases found with
  | some v => exact visible_some stands (Nat.succ_le_succ size) seen
  | none =>
    have plain := visible_none_iff.mp seen
    have alive : ∀ e ∈ h.chain id, h.contains e := fun e member =>
      contains_iff_exists.mpr ((plain e member).imp fun _ => And.left)
    have kept (e : EnvId) (member : e ∈ h.chain id) : k.parent? e = h.parent? e := by
      obtain ⟨f, there⟩ := contains_iff_exists.mp (alive e member)
      obtain ⟨g, there', parent, -⟩ := stands e f there
      rw [parent?, parent?, there, there']
      exact parent
    refine visible_none_iff.mpr fun e later => ?_
    rw [chain, chainUpTo_kept kept _ id self_mem_chain] at later
    obtain ⟨f, there, unbound⟩ := plain e (chainUpTo_subset_chain _ id self_mem_chain e later)
    obtain ⟨g, there', -, functions⟩ := stands e f there
    exact ⟨g, there', (functions name).trans unbound⟩

end Heap

/-- The names under which a search looks for functions. -/
def MethodSearch.targets (search : MethodSearch) : List Name :=
  (search.generic ++ ".default") :: search.classes.flatMap fun className =>
    (search.generic ++ "." ++ className) :: search.group.toList.map (· ++ "." ++ className)

namespace Session

variable {p s : Session} {search : MethodSearch} {name : Name} {ev ev' : Evaluator} {caller caller' : RecordId}

/-- The builtin a search falls back to, as a method. -/
def fallback (search : MethodSearch) : Value → Option CachedMethod
  | .builtin name id => some ⟨.builtin name id, search.generic, search.classes.length + 1, none, true⟩
  | _ => none

theorem builtinMethod_apply {f : Frame} (there : s.heap.frame? base = some f) :
    builtinMethod search s = (.ok ((f.function? search.generic).bind (fallback search)), s) := by
  have read : readHeap (·.getLocal base search.generic) s = (.ok (f.bindings.get? search.generic), s) := by
    rw [readHeap_apply, Heap.getLocal, Heap.frame, there]
    rfl
  unfold builtinMethod
  rw [bind_apply, read, Frame.function?]
  cases f.bindings.get? search.generic with
  | none => rfl
  | some v => cases v <;> rfl

/-- No frame on the way up from an environment binds a name to a promise. -/
def Unpromised (s : Session) (name : Name) (env : EnvId) : Prop :=
  ∀ id ∈ s.heap.chain env, ∀ f, s.heap.frame? id = some f → ∀ promise,
    f.bindings.get? name ≠ some (.promise promise)

theorem unpromised_iff {env : EnvId} : s.Unpromised name env ↔ ∀ id ∈ s.heap.chain env,
    (((s.heap.frame? id).bind (·.bindings.get? name)).bind Value.promise?).isNone := by
  refine forall₂_congr fun id _ => ?_
  cases s.heap.frame? id with
  | none => simp
  | some f =>
    cases bound : f.bindings.get? name with
    | none => simp [bound]
    | some v => cases v <;> simp [bound, Value.promise?]

instance (s : Session) (name : Name) (env : EnvId) : Decidable (s.Unpromised name env) :=
  decidable_of_iff _ unpromised_iff.symm

/-- A search comes across no promise. -/
def Direct (s : Session) (search : MethodSearch) : Prop :=
  ∀ name ∈ search.targets, ∀ env ∈ search.scope, s.Unpromised name env

instance (s : Session) (search : MethodSearch) : Decidable (s.Direct search) :=
  inferInstanceAs (Decidable (∀ name ∈ search.targets, ∀ env ∈ search.scope, s.Unpromised name env))

theorem findFunctionAlong_direct {ids : List EnvId} (plain : ∀ id ∈ ids, ∀ f, s.heap.frame? id = some f →
    ∀ promise, f.bindings.get? name ≠ some (.promise promise)) :
    findFunctionAlong ev name caller ids s = liftExcept (s.heap.visible name ids) s := by
  induction ids with
  | nil => rfl
  | cons id tail ih =>
    have rest := ih fun e member => plain e (List.mem_cons_of_mem _ member)
    rw [findFunctionAlong, Heap.visible, bind_apply, readHeap_apply, Heap.getLocal, Heap.frame]
    cases there : s.heap.frame? id with
    | none => rfl
    | some f =>
      have direct := plain id List.mem_cons_self f there
      have read : ((·.bindings.get? name) <$> (Except.ok f : Except Failure Frame)) =
        .ok (f.bindings.get? name) := rfl
      simp only [read, Frame.function?]
      cases bound : f.bindings.get? name with
      | none => exact rest
      | some v =>
        have forced : forceValue ev v caller = pure v := by
          cases v with
          | promise id => exact absurd bound (direct id)
          | _ => rfl
        simp only [forced, Option.filter]
        cases function : v.isFunction with
        | true =>
          change (if v.isFunction then pure (some v) else _ : EvalM _) s = _
          rw [if_pos function]
          rfl
        | false =>
          change (if v.isFunction then _ else findFunctionAlong ev name caller tail : EvalM _) s = _
          rw [if_neg (by simp [function])]
          exact rest

theorem findFunction_direct {env : EnvId} (direct : s.Unpromised name env) :
    findFunction ev name env caller s = liftExcept (s.heap.visible name (s.heap.chain env)) s :=
  findFunctionAlong_direct direct

end Session

/-- A computation leaves a session as it is, and the value it has there is that of another computation in a
later session, which that one leaves as it is. -/
def Repeats {α : Type} (p s : Session) (x y : EvalM α) : Prop :=
  (x p).2 = p ∧ ∀ a, (x p).1 = .ok a → y s = (.ok a, s)

namespace Repeats

variable {α β : Type} {p s : Session}

theorem value (a : α) : Repeats p s (pure a : EvalM α) (pure a) := by
  refine ⟨rfl, fun b same => ?_⟩
  cases same
  rfl

theorem andThen {x y : EvalM α} {f g : α → EvalM β} (first : Repeats p s x y)
    (rest : ∀ a, Repeats p s (f a) (g a)) : Repeats p s (x >>= f) (y >>= g) := by
  obtain ⟨left, again⟩ := first
  unfold Repeats
  rw [bind_apply, bind_apply]
  rcases run : x p with ⟨u | a, t⟩
  · rw [run] at left
    exact ⟨left, nofun⟩
  · rw [run] at left again
    obtain rfl : t = p := left
    rw [again a rfl]
    exact rest a

end Repeats

namespace Session

/-- Everything functions are found by stands in the later session as in the earlier one. -/
structure Stands (p s : Session) : Prop where
  heap : p.heap.Stands s.heap
  size : p.heap.slots.size ≤ s.heap.slots.size
  methods : s.methods = p.methods
  builtins : s.builtins = p.builtins
  base : p.heap.contains base

/-- What a stamp stands for stands as long as the stamp is current. -/
theorem Since.stands {p s : Session} (since : p.Since s) (tidy : p.heap.Tidy) {scope : List EnvId}
    (current : s.stamp scope = p.stamp scope) : p.Stands s := by
  have le := since.heap.epoch
  have le' := since.version
  have sum : s.heap.functionEpoch + s.methodsVersion = p.heap.functionEpoch + p.methodsVersion :=
    congrArg Stamp.version current
  have epoch : s.heap.functionEpoch = p.heap.functionEpoch := by omega
  exact ⟨since.heap.frames epoch, since.heap.size, since.methods (by omega), since.builtins epoch, tidy.base⟩

namespace Stands

variable {p s : Session} (stands : p.Stands s) {ev ev' : Evaluator} {caller caller' : RecordId}
include stands

theorem findFunction {name : Name} {env : EnvId} (before : p.Unpromised name env)
    (now : s.Unpromised name env) :
    Repeats p s (findFunction ev name env caller) (findFunction ev' name env caller') := by
  unfold Repeats
  rw [findFunction_direct before, findFunction_direct now]
  cases seen : p.heap.visible name (p.heap.chain env) with
  | error f => exact ⟨rfl, nofun⟩
  | ok found =>
    rw [Heap.visible_chain stands.heap stands.size seen]
    exact Repeats.value found

theorem findMethodFunction {name : Name} {scope : List EnvId} (before : ∀ env ∈ scope, p.Unpromised name env)
    (now : ∀ env ∈ scope, s.Unpromised name env) :
    Repeats p s (findMethodFunction ev name caller scope) (findMethodFunction ev' name caller' scope) := by
  induction scope with
  | nil =>
    have found : Repeats p s (pure (p.methods.get? name)) (pure (s.methods.get? name) : EvalM _) :=
      stands.methods ▸ Repeats.value _
    exact found
  | cons env rest ih =>
    refine Repeats.andThen (stands.findFunction (before env List.mem_cons_self) (now env List.mem_cons_self))
      fun found => ?_
    cases found with
    | some f => exact Repeats.value _
    | none =>
      exact ih (fun e member => before e (List.mem_cons_of_mem _ member))
        fun e member => now e (List.mem_cons_of_mem _ member)

variable {search : MethodSearch} (before : p.Direct search) (now : s.Direct search)
include before now

theorem findTarget {name : Name} (target : name ∈ search.targets) :
    Repeats p s (CallByNeed.findMethodFunction ev name caller search.scope)
      (CallByNeed.findMethodFunction ev' name caller' search.scope) :=
  stands.findMethodFunction (before name target) (now name target)

theorem findForClass {className : Name} (member : className ∈ search.classes) (position : Nat) :
    Repeats p s (findForClass ev search caller position className)
      (findForClass ev' search caller' position className) := by
  have own : search.generic ++ "." ++ className ∈ search.targets :=
    List.mem_cons_of_mem _ (List.mem_flatMap.mpr ⟨className, member, List.mem_cons_self⟩)
  refine Repeats.andThen (stands.findTarget before now own) fun found => ?_
  cases found with
  | some f => exact Repeats.value _
  | none =>
    cases grouped : search.group with
    | none => exact Repeats.value _
    | some group =>
      have target : group ++ "." ++ className ∈ search.targets :=
        List.mem_cons_of_mem _ (List.mem_flatMap.mpr ⟨className, member,
          List.mem_cons_of_mem _ (by simp [grouped])⟩)
      refine Repeats.andThen (stands.findTarget before now target) fun found => ?_
      cases found with
      | some f => exact Repeats.value _
      | none => exact Repeats.value _

theorem findAmong {classes : List (Name × Nat)} (known : ∀ entry ∈ classes, entry.1 ∈ search.classes) :
    Repeats p s (findAmong ev search caller classes) (findAmong ev' search caller' classes) := by
  induction classes with
  | nil => exact Repeats.value _
  | cons entry rest ih =>
    refine Repeats.andThen (stands.findForClass before now (known entry List.mem_cons_self) entry.2)
      fun found => ?_
    cases found with
    | some m => exact Repeats.value _
    | none => exact ih fun other member => known other (List.mem_cons_of_mem _ member)

theorem findClassMethod (start : Nat) :
    Repeats p s (findClassMethod ev search start caller) (findClassMethod ev' search start caller') :=
  stands.findAmong before now fun _ member => List.fst_mem_of_mem_zipIdx (List.mem_of_mem_drop member)

theorem defaultMethod (start : Nat) :
    Repeats p s (defaultMethod ev search start caller) (defaultMethod ev' search start caller') := by
  unfold CallByNeed.defaultMethod
  dsimp only
  split
  · refine Repeats.andThen (stands.findTarget before now List.mem_cons_self) fun found => ?_
    cases found with
    | some f => exact Repeats.value _
    | none => exact Repeats.value _
  · exact Repeats.value _

omit before now in
theorem builtinMethod : Repeats p s (builtinMethod search) (builtinMethod search) := by
  obtain ⟨f, there⟩ := Heap.contains_iff_exists.mp stands.base
  obtain ⟨g, there', -, functions⟩ := stands.heap _ f there
  unfold Repeats
  rw [builtinMethod_apply there, builtinMethod_apply there', functions]
  exact Repeats.value _

theorem findMethod (start : Nat) :
    Repeats p s (findMethod ev search start caller) (findMethod ev' search start caller') := by
  refine Repeats.andThen (stands.findClassMethod before now start) fun found => ?_
  cases found with
  | some m => exact Repeats.value _
  | none =>
    refine Repeats.andThen (stands.defaultMethod before now start) fun found => ?_
    cases found with
    | some m => exact Repeats.value _
    | none => exact stands.builtinMethod

end Stands

theorem Direct.unchanged {p : Session} {search : MethodSearch} (direct : p.Direct search)
    (base : p.heap.contains base) (ev : Evaluator) (start : Nat) (caller : RecordId) :
    (findMethod ev search start caller p).2 = p := by
  have still : p.Stands p := ⟨(Heap.Since.refl _).frames rfl, Nat.le_refl _, rfl, rfl, base⟩
  have again : Repeats p p (findMethod ev search start caller) (findMethod ev search start caller) :=
    still.findMethod direct direct start
  exact again.1

theorem selectMethod_hit {s : Session} {ev : Evaluator} {search : MethodSearch} {chain : VectorId}
    {c : SpecialCall} {m : CachedMethod}
    (hit : ((s.site c.call.id).cache.lookup search.generic [s.classView chain] (s.stamp search.scope)).1 =
      some m) : (selectMethod ev search chain c s).1 = .ok m := by
  rw [selectMethod_eq]
  change (selectAnew ev search chain c (s.stamp search.scope)
    ((s.site c.call.id).cache.lookup search.generic [s.classView chain] (s.stamp search.scope)).1 _).1 = _
  rw [hit]
  rfl

theorem methodSearch_eq {p s : Session} (builtins : s.builtins = p.builtins) (generic : Name)
    {origin chain : VectorId} (scope : List EnvId)
    (names : DispatchCache.nameLists [s.classView chain] = DispatchCache.nameLists [p.classView origin]) :
    s.methodSearch generic chain scope = p.methodSearch generic origin scope := by
  have classes : s.store.classNames chain = p.store.classNames origin := (List.cons.inj names).1
  unfold methodSearch
  rw [builtins, classes]

/-- The search that a method is from came across no promise. -/
def Finding.Direct {generic : Name} {scope : List EnvId} {m : CachedMethod} (f : Finding generic scope m) :
    Prop :=
  f.before.Direct (f.before.methodSearch generic f.chain scope)

/-- What a dispatch does when no entry of its call site answers: a search that is as direct as one from here
finds the method, which is stored at the call site. -/
theorem selectMethod_kept {o s t : Session} {depth : Nat} {generic : Name} {chain : VectorId}
    {scope : List EnvId} {c : SpecialCall} {m : CachedMethod} (begun : Run o o s)
    (missed : ((s.site c.call.id).cache.lookup generic [s.classView chain] (s.stamp scope)).1 = none)
    (run : selectMethod (eval depth) (s.methodSearch generic chain scope) chain c s = (.ok m, t)) :
    ∃ f : Finding generic scope m, f.chain = chain ∧ t = f.stored c.call.id ∧ f.Kept o c.call.id t ∧
      f.before.stamp scope = s.stamp scope ∧
      (f.Direct ↔ s.Direct (s.methodSearch generic chain scope)) := by
  let search := s.methodSearch generic chain scope
  let consulted := (consultCache search chain c.call.id s).2
  let counted := { consulted with
    stats := { consulted.stats with classSearches := consulted.stats.classSearches + 1 } }
  have reached : Run o s counted :=
    (Change.run (.consults c.call.id generic [s.classView chain] (s.stamp scope))).trans (.of_same rfl rfl {})
  have searching : Run o counted (findMethod (eval depth) search 0 c.caller counted).2 :=
    Runs.plain.holds_findMethod (Runs.evaluating depth) search 0 c.caller o counted (begun.trans reached)
  have anew : selectAnew (eval depth) search chain c (s.stamp scope) none consulted = (.ok m, t) := by
    rw [← missed]
    exact run
  obtain ⟨_, _, counts, next⟩ := parts_of_bind anew
  cases counts
  obtain ⟨found, q, searched, last⟩ := parts_of_bind next
  rw [searched] at searching
  cases found with
  | none => cases last
  | some method =>
    cases last
    let f : Finding generic scope m := ⟨depth, c.caller, chain, counted, q, searched⟩
    exact ⟨f, rfl, rfl, ⟨begun.trans reached, searching, .refl _⟩, rfl, Iff.rfl⟩

/-- Where a method was stored last, it is the answer for the class names it was stored for. -/
theorem Finding.answer_stored {generic : Name} {scope : List EnvId} {m : CachedMethod}
    (f : Finding generic scope m) (site : NodeId) {classes : List ClassView}
    (names : DispatchCache.nameLists classes = f.names) :
    (((f.stored site).site site).cache.lookup generic classes (f.before.stamp scope)).1 = some m := by
  have key : DispatchCache.key generic classes = DispatchCache.key generic [f.after.classView f.chain] :=
    congrArg (Prod.mk generic) names
  rw [Finding.stored, site_setSite, if_pos rfl, (DispatchCache.backed_insert _ _ _ _ _).answer,
    DispatchCache.named?_eq_some_iff, key]
  exact (Table.get?_insert _ _ _ _).trans (if_pos rfl)

/-- A search whose method a call site can answer with: it was stored there, for the class names of a class
chain, and what it was stored with is current. -/
structure Finding.Answers {generic : Name} {scope : List EnvId} {m : CachedMethod} (f : Finding generic scope m)
    (o : Session) (site : NodeId) (chain : VectorId) (s : Session) : Prop extends f.Kept o site s where
  current : s.stamp scope = f.before.stamp scope
  names : DispatchCache.nameLists [s.classView chain] = f.names

/-- The method that a search came to without coming across a promise is found by any search that comes across
none, as long as the call site can answer with it. -/
theorem Finding.Answers.stands {o s : Session} {site : NodeId} {generic : Name} {chain : VectorId}
    {scope : List EnvId} {m : CachedMethod} {f : Finding generic scope m} (answers : f.Answers o site chain s)
    (somewhere : scope ≠ []) (tidy : f.before.heap.Tidy) (before : f.Direct)
    (now : s.Direct (s.methodSearch generic chain scope)) (ev : Evaluator) (caller : RecordId) :
    findMethod ev (s.methodSearch generic chain scope) 0 caller s = (.ok (some m), s) := by
  have stands := ((answers.later somewhere).since tidy).1.stands tidy answers.current
  -- The class names stored are those after the search, and without promises it left the session as it was.
  have left : f.after = f.before := by
    have unchanged := before.unchanged tidy.base (eval f.depth) 0 f.caller
    rwa [f.found] at unchanged
  have same : s.methodSearch generic chain scope = f.before.methodSearch generic f.chain scope :=
    methodSearch_eq stands.builtins generic scope (answers.names.trans (by rw [Finding.names, left]))
  rw [same] at now ⊢
  exact (stands.findMethod before now 0).2 (some m) (by rw [f.found])

/-- After a dispatch that searched, its call site answers with the method found, as long as its cache, the class
names and the stamp stay as they are. -/
theorem selectMethod_answers {o p q s : Session} {depth : Nat} {generic : Name} {chain origin : VectorId}
    {scope : List EnvId} {c : SpecialCall} {m : CachedMethod} (begun : Run o o p)
    (missed : ((p.site c.call.id).cache.lookup generic [p.classView origin] (p.stamp scope)).1.isNone)
    (selected : (selectMethod (eval depth) (p.methodSearch generic origin scope) origin c p).1 = .ok m)
    (left : (selectMethod (eval depth) (p.methodSearch generic origin scope) origin c p).2 = q)
    (later : Run o q s) (cache : (s.site c.call.id).cache = (q.site c.call.id).cache)
    (current : s.stamp scope = p.stamp scope)
    (names : DispatchCache.nameLists [s.classView chain] = DispatchCache.nameLists [q.classView origin]) :
    ((s.site c.call.id).cache.lookup generic [s.classView chain] (s.stamp scope)).1 = some m ∧
      ∃ f : Finding generic scope m, f.Answers o c.call.id chain s ∧
        (f.Direct ↔ p.Direct (p.methodSearch generic origin scope)) := by
  obtain ⟨f, rfl, rfl, kept, stamp, direct⟩ :=
    selectMethod_kept begun (Option.isNone_iff_eq_none.mp missed) (Prod.ext selected left)
  have answers : f.Answers o c.call.id chain s :=
    { kept.mono later with
      current := current.trans stamp.symm
      names }
  refine ⟨?_, f, answers, direct⟩
  rw [cache, answers.current]
  exact f.answer_stored c.call.id answers.names

/-- When a call site answers from its cache, the method is from a search for the same class names from the same
environments that was stored there. Unless that search came across a promise or one would now, a search finds
this very method now, at the same position and through the same group. -/
theorem Attained.hit_stands {options : Options} {s : Session} (attained : Attained options s) {generic : Name}
    {chain : VectorId} {scope : List EnvId} {c : SpecialCall} {m : CachedMethod} (somewhere : scope ≠ [])
    (hit : ((s.site c.call.id).cache.lookup generic [s.classView chain] (s.stamp scope)).1 = some m) :
    let search := s.methodSearch generic chain scope
    (∀ ev, (selectMethod ev search chain c s).1 = .ok m) ∧
      (∃ f : Finding generic scope m, f.Answers (start options) c.call.id chain s) ∧
      ∀ f : Finding generic scope m, f.Answers (start options) c.call.id chain s → f.Direct → s.Direct search →
        ∀ ev caller, findMethod ev search 0 caller s = (.ok (some m), s) := by
  refine ⟨fun ev => selectMethod_hit hit, ?_, ?_⟩
  · have held := (DispatchCache.lookup_recalls rfl).1 m hit
    rcases attained.recalls held with searched | dispatched
    · obtain ⟨scope', -, f, kept, stamp, names⟩ := searched
      obtain rfl : scope = scope' := congrArg Stamp.scope stamp
      exact ⟨f, { kept with current := stamp, names }⟩
    · -- Dispatches on formal classes store with no scope.
      obtain ⟨q, p, name, g, chains, site, -, -, -, -, -, -, stamp, -⟩ := dispatched
      exact absurd (congrArg Stamp.scope stamp) somewhere
  · intro f answers before now ev caller
    exact answers.stands somewhere (Attained.tidy answers.begun) before now ev caller

theorem site_collectGarbage (s : Session) (site : NodeId) : s.collectGarbage.2.site site = s.site site := rfl

/-- A session with a default method for a generic. -/
def withDefaultMethod : Session :=
  (evalIn (.assign ⟨0⟩ (.symbol ⟨1⟩ "gen.default") (.function ⟨⟨2⟩, [⟨"x", none⟩], .constant ⟨3⟩ .null⟩) false)
    global (start {})).2

/-- The session after a dispatch of the generic on nothing at a call site, and after a collection. -/
def withDefaultStored (c : SpecialCall) : Session :=
  let p := withDefaultMethod
  let q := (selectMethod (eval 1) (p.methodSearch "gen" (p.classOf .null) [global, global]) (p.classOf .null) c p).2
  q.collectGarbage.2

/-- The first dispatch stores the default method, and after a collection the call site still answers with what
a search finds. -/
theorem default_method_hit_stands :
    let c : SpecialCall := ⟨.call ⟨4⟩ (.symbol ⟨5⟩ "UseMethod") [], [], global, ⟨0⟩⟩
    let s := withDefaultStored c
    let chain := s.classOf .null
    let search := s.methodSearch "gen" chain [global, global]
    ∃ m : CachedMethod, m.target = "gen.default" ∧ (∀ ev, (selectMethod ev search chain c s).1 = .ok m) ∧
      ∃ f : Finding "gen" [global, global] m, f.Answers (start {}) ⟨4⟩ chain s ∧ f.Direct ∧ s.Direct search ∧
        ∀ ev caller, findMethod ev search 0 caller s = (.ok (some m), s) := by
  intro c s chain search
  let p := withDefaultMethod
  let sought := p.methodSearch "gen" (p.classOf .null) [global, global]
  let q := (selectMethod (eval 1) sought (p.classOf .null) c p).2
  have first : Attained {} p := run_evalIn (.refl _) _ global
  have second : Attained {} q := first.trans (Runs.selecting (Runs.evaluating 1) "gen" _ (by decide) c first)
  have collected : Run (start {}) q s := HostStep.run second (.collectGarbage q) second.tidy.base
  have third : Attained {} s := second.trans collected
  have selected : (selectMethod (eval 1) sought (p.classOf .null) c p).1.toOption.map (·.target) =
      some "gen.default" := by decide +kernel
  have missed : ((p.site c.call.id).cache.lookup "gen" [p.classView (p.classOf .null)]
      (p.stamp [global, global])).1.isNone := by decide +kernel
  have before : p.Direct sought := by decide +kernel
  have now : s.Direct search := by decide +kernel
  have current : s.stamp [global, global] = p.stamp [global, global] := by decide +kernel
  have names : DispatchCache.nameLists [s.classView chain] =
      DispatchCache.nameLists [q.classView (p.classOf .null)] := by decide +kernel
  obtain ⟨m, found, target⟩ := ok_of_toOption selected
  have cache : (s.site c.call.id).cache = (q.site c.call.id).cache := congrArg _ (site_collectGarbage q _)
  obtain ⟨hit, f, answers, direct⟩ := selectMethod_answers first missed found rfl collected cache current names
  obtain ⟨repeats, -, stands⟩ := third.hit_stands (c := c) (by decide) hit
  exact ⟨m, target, repeats, f, answers, direct.mpr before, now, stands f answers (direct.mpr before) now⟩

end Session
end CallByNeed
