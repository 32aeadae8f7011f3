import CallByNeed.Proofs.AlwaysForced
import CallByNeed.Proofs.EarlyArguments
import CallByNeed.Proofs.NextMethod

/-!
Arguments that are handed on. A list of arguments that comes to a function with `...` as its only formal is
packed as it is, and a call `f(...)` in the function's frame unpacks it again, through any number of such
functions. A method is called with the list that the record of the generic, or of the current method, was
opened with. Neither is ever changed: evaluations only add lists that are bound to `...`, and a record stays
what it was opened as for as long as it is alive.
-/
namespace CallByNeed

variable {α β : Type}

/-! What evaluations leave as it is. -/

/-- A relation between stores that holds as long as lists bound to `...` are only added. -/
def Store.Adds (s t : Store) : Prop := s.dots.toList <+: t.dots.toList

theorem Store.Adds.size {s t : Store} (adds : s.Adds t) : s.dots.size ≤ t.dots.size := by
  have le := List.IsPrefix.length_le adds
  rwa [Array.length_toList, Array.length_toList] at le

theorem Store.Adds.dotsAt {s t : Store} (adds : s.Adds t) {d : DotsId} (inside : d.index < s.dots.size) :
    t.dotsAt d = s.dotsAt d := by
  obtain ⟨more, added⟩ := adds
  unfold Store.dotsAt
  rw [← Array.getElem?_toList, ← added, List.getElem?_append_left inside, Array.getElem?_toList]

instance : Store.Evolution Store.Adds where
  refl s := List.prefix_refl _
  trans first second := first.trans second
  addVector _ _ := List.prefix_refl _
  raise f up v s := by cases v <;> exact List.prefix_refl _
  addDots d s := ⟨[d], Array.toList_push.symm⟩
  freshNode _ := List.prefix_refl _
  closure _ _ _ := List.prefix_refl _
  evaluatedPromise _ _ _ _ := List.prefix_refl _
  lazyPromise _ _ _ _ _ := List.prefix_refl _
  write _ _ _ _ _ _ := List.prefix_refl _

/-- All records that are alive were numbered in their turn. -/
def Records.Issued (rs : Records) : Prop := ∀ r ∈ rs.live, r.id.index < rs.next

namespace Session

/-- What a later session still has of an earlier one: the lists bound to `...`, and what those of its records
that are alive were opened as. -/
structure Retained (s t : Session) : Prop where
  dots : s.store.Adds t.store
  next : s.records.next ≤ t.records.next
  issued : s.records.Issued → t.records.Issued
  records : ∀ r ∈ t.records.live, r.id.index < s.records.next →
    ∃ q ∈ s.records.live, q.id = r.id ∧ q.kind = r.kind

theorem Retained.refl (s : Session) : s.Retained s :=
  ⟨List.prefix_refl _, Nat.le_refl _, id, fun r member _ => ⟨r, member, rfl, rfl⟩⟩

theorem Retained.trans {s t u : Session} (first : s.Retained t) (second : t.Retained u) : s.Retained u where
  dots := first.dots.trans second.dots
  next := Nat.le_trans first.next second.next
  issued start := second.issued (first.issued start)
  records r member issued := by
    obtain ⟨q, there, id, kind⟩ := second.records r member (Nat.lt_of_lt_of_le issued first.next)
    obtain ⟨p, here, id', kind'⟩ := first.records q there (id ▸ issued)
    exact ⟨p, here, id'.trans id, kind'.trans kind⟩

theorem Retained.of_adds {s t : Session} (dots : s.store.Adds t.store) (records : t.records = s.records) :
    s.Retained t where
  dots := dots
  next := Nat.le_of_eq (by rw [records])
  issued start := by rwa [records]
  records r member _ := ⟨r, records ▸ member, rfl, rfl⟩

theorem Retained.of_same {s t : Session} (store : t.store = s.store) (records : t.records = s.records) :
    s.Retained t :=
  .of_adds (by rw [store]; exact List.prefix_refl _) records

theorem Retained.of_twin {s t : Session} (twin : s.Twin t) : s.Retained t := by
  obtain ⟨_, _, _, rfl, _⟩ := twin
  exact .of_same rfl rfl

/-- Records that are dropped, and flags of records that are set. -/
theorem Retained.of_records {s t : Session} (store : t.store = s.store) (next : t.records.next = s.records.next)
    (records : ∀ r ∈ t.records.live, ∃ q ∈ s.records.live, q.id = r.id ∧ q.kind = r.kind) : s.Retained t where
  dots := by rw [store]; exact List.prefix_refl _
  next := Nat.le_of_eq next.symm
  issued start r member := by
    obtain ⟨q, there, same, -⟩ := records r member
    rw [next, ← same]
    exact start q there
  records r member _ := records r member

end Session

open Session

/-- However a computation ends, what a session has to retain is retained. -/
def Conserving (m : EvalM α) : Prop := ∀ s : Session, s.Retained (m s).2

namespace Conserving

theorem of_same {m : EvalM α} (store : ∀ s, (m s).2.store = s.store)
    (records : ∀ s, (m s).2.records = s.records) : Conserving m := fun s => .of_same (store s) (records s)

theorem reading {f : Session → EvalM α} (each : ∀ s, Conserving (f s)) : Conserving (get >>= f) :=
  fun s => each s s

theorem andThen {m : EvalM α} {f : α → EvalM β} (first : Conserving m) (rest : ∀ a, Conserving (f a)) :
    Conserving (m >>= f) := by
  intro s
  exact after_bind (P := s.Retained) (first s) fun a t _ retained => retained.trans (rest a t)

theorem updatingHeap (f : Heap → Except Failure Heap) : Conserving (updateHeap f) := by
  refine of_same (fun s => ?_) fun s => ?_
  all_goals
    rw [updateHeap_apply]
    cases f s.heap <;> rfl

theorem defining (env : EnvId) (name : Name) (v : Value) : Conserving (define env name v) := by
  refine of_same (fun s => ?_) fun s => ?_
  all_goals
    rw [define_apply]
    cases s.heap.frame? env <;> rfl

theorem administering {g : Session → α × Session} (administrative : Administrative g) :
    Conserving (modifyGet g : EvalM α) := of_same administrative.store administrative.records

theorem recording (parent : Option RecordId) (call : Option Expr) (kind : RecordKind) :
    Conserving (pushRecord parent call kind) := by
  refine fun s => ⟨List.prefix_refl _, Nat.le_succ _, fun issued r member => ?_, fun r member issued => ?_⟩
  · rcases List.mem_cons.mp member with rfl | old
    · exact Nat.lt_succ_self _
    · exact Nat.lt_succ_of_lt (issued r old)
  · rcases List.mem_cons.mp member with rfl | old
    · exact absurd issued (Nat.lt_irrefl _)
    · exact ⟨r, old, rfl, rfl⟩

def rules : Rules where
  Holds := Conserving
  Grounded _ _ := True
  Grows := Store.Adds
  evolution := inferInstance
  value _ := of_same (fun _ => rfl) fun _ => rfl
  andThen := andThen
  failure _ := of_same (fun _ => rfl) fun _ => rfl
  leaving _ _ := of_same (fun _ => rfl) fun _ => rfl
  reading _ := reading
  observing first rest _ := fun s => (first s).trans (rest _ _)
  storing {_ m} moves := fun s => by
    rw [(onStore_session m s).1]
    exact .of_adds (moves s.store) rfl
  administering clerical := administering clerical.toAdministrative
  interrupting := of_same (fun _ => rfl) fun _ => rfl
  polling := by
    refine reading fun s => ?_
    split
    · exact of_same (fun _ => rfl) fun _ => rfl
    · exact of_same (fun _ => rfl) fun _ => rfl
  framing _ := of_same (fun _ => rfl) fun _ => rfl
  binding := defining
  outerBinding _ _ _ := updatingHeap _
  recording parent call kind _ := recording parent call kind
  closing {_} id {m} conserving := fun s =>
    (conserving s).trans <| .of_records rfl rfl fun r member => ⟨r, List.mem_of_mem_eraseP member, rfl, rfl⟩
  flagging caller flag := fun s => by
    refine .of_records rfl rfl fun r member => ?_
    obtain ⟨q, there, rfl⟩ := List.mem_map.mp member
    exact ⟨q, there, by split <;> rfl, by split <;> rfl⟩

theorem holds_simpleArgs (site : NodeId) (args : List Arg) : Conserving (simpleArgs site args) := by
  intro s
  obtain ⟨_, t, run, twin, -⟩ := simpleArgs_plan site args s
  rw [run]
  exact .of_twin twin

theorem holds_forcedFormals (f : Function) : Conserving (forcedFormals f) := by
  intro s
  obtain ⟨_, t, run, twin, -⟩ := forcedFormals_plan f s
  rw [run]
  exact .of_twin twin

theorem planning : rules.Planning where
  promising _ _ _ _ _ := List.prefix_refl _
  distrusting site s := by
    unfold Store.distrust
    split <;> exact List.prefix_refl _
  created := of_same (fun _ => rfl) fun _ => rfl
  aborted := of_same (fun _ => rfl) fun _ => rfl
  looking := reading
  simple := holds_simpleArgs
  forced := holds_forcedFormals

theorem forcing : rules.Forcing where
  life _ _ _ := List.prefix_refl _
  distrusting := planning.distrusting
  hit := of_same (fun _ => rfl) fun _ => rfl
  fulfilled := of_same (fun _ => rfl) fun _ => rfl
  givenUp := of_same (fun _ => rfl) fun _ => rfl

def plain : Law := SearchLaw.law
  { toRules := rules
    force := forcing.holds_force
    missingProbe := forcing.holds_isMissingArgument } fun _ _ => trivial

def law : CallLaw where
  toLaw := plain
  arguments h := planning.holds_arguments h
  useMethod h := plain.holds_useMethod h administering fun _ _ => trivial
  nextMethod h := plain.holds_nextMethod h fun _ _ => trivial
  standardGeneric h := plain.holds_standardGeneric h administering

end Conserving

/-! The list bound to `...`. -/

/-- Where `...` is the only formal, it takes all arguments, whatever they are named. -/
theorem matchArguments_varargs (names : List (Option Name)) (allowPartial : Bool) :
    matchArguments (.ofFormals [Name.varargs]) (.supplied names) allowPartial =
      .ok [.varargs (List.range names.length)] := by
  let formals := Signature.ofFormals [Name.varargs]
  have exact (args : Named) : bindExact formals args [] = .ok [] := by
    induction args with
    | nil => rfl
    | cons arg rest ih =>
      obtain ⟨i, _ | name⟩ := arg
      · exact ih
      · have passed : (formals.indexOf? name).filter (fun f => some f ≠ formals.varargs) = none := by
          by_cases same : Name.varargs = name
          all_goals simp [formals, Signature.indexOf?, Signature.ofFormals, same, Name.isVarargs]
        rw [bindExact, passed]
        exact ih
  have byPrefix (args : Named) : bindPartial formals 0 [] args [] = .ok [] := by
    induction args with
    | nil => rfl
    | cons arg rest ih =>
      obtain ⟨i, _ | name⟩ := arg <;> exact ih
  have positions : (numbered (.supplied names)).map (·.1) = List.range names.length := by
    have indices := List.zipIdx_map_snd 0 (names.map written)
    rw [List.length_map, ← List.range_eq_range'] at indices
    unfold numbered
    rw [List.map_map]
    exact indices
  have all : (numbered (.supplied names)).filter (fun a => !Bound.isUsed [] a.1) =
      numbered (.supplied names) := List.filter_eq_self.mpr fun _ _ => rfl
  have before : formals.varargs = some 0 := rfl
  unfold matchArguments
  rw [show Signature.ofFormals [Name.varargs] = formals from rfl, before]
  dsimp only [Option.getD_some]
  rw [exact]
  have bound : bindPositional 0 (numbered (.supplied names)) [] = [] := rfl
  cases allowPartial <;>
    simp only [Bool.false_eq_true, if_false, if_true, byPrefix, Except.bind, bind, bound, all, positions]
  all_goals rfl

theorem map_range_join {α : Type} (xs : List (Option α)) :
    (List.range xs.length).map (fun i => xs[i]?.join) = xs := by
  refine List.ext_getElem (by simp) fun i first second => ?_
  simp [second]

theorem map_range_getD {α : Type} (xs : List α) (default : α) :
    (List.range xs.length).map (fun i => xs[i]?.getD default) = xs := by
  refine List.ext_getElem (by simp) fun i first second => ?_
  simp [second]

section Entering

variable {closure : Value} {f : Function} {definedIn env : EnvId} {call : Expr} {L : Supplied}
  {slots : List FormalSlot} {caller record : RecordId} {dispatch : Option DispatchContext} {s t : Session}

/-- A call opens a frame and a record, binds the formals, and then the names of the dispatch. -/
theorem enterFrame_parts
    (entered : enterFrame closure f definedIn call L slots caller dispatch s = (.ok (env, record), t)) :
    ∃ u v w, allocFrame definedIn s = (.ok env, u) ∧
      pushRecord (some caller) (some call) (.function env closure L dispatch) u = (.ok record, v) ∧
      bindFormals L env record f.formals slots v = (.ok (), w) ∧
      (match dispatch with
        | some context => bindDispatch env context
        | none => pure ()) w = (.ok (), t) := by
  unfold enterFrame at entered
  rw [get_bind] at entered
  split at entered
  · obtain ⟨_, _, refused, _⟩ := parts_of_bind entered
    cases refused
  · obtain ⟨env', u, framed, entered⟩ := parts_of_bind entered
    obtain ⟨record', v, recorded, entered⟩ := parts_of_bind entered
    obtain ⟨⟨⟩, w, bound, entered⟩ := parts_of_bind entered
    cases dispatch with
    | none =>
      cases entered
      exact ⟨u, v, _, framed, recorded, bound, rfl⟩
    | some context =>
      obtain ⟨⟨⟩, x, dispatched, entered⟩ := parts_of_bind entered
      cases entered
      exact ⟨u, v, w, framed, recorded, bound, dispatched⟩

theorem Conserving.reached {m : EvalM α} (conserving : Conserving m) {r : Except Unwind α} (run : m s = (r, t)) :
    s.Retained t := by
  have retained := conserving s
  rwa [run] at retained

/-- The record of a call is opened with its arguments. -/
theorem enterFrame_record (issued : s.records.Issued)
    (entered : enterFrame closure f definedIn call L slots caller dispatch s = (.ok (env, record), t)) :
    record.index < t.records.next ∧
      ∀ r ∈ t.records.live, r.id = record → r.kind = .function env closure L dispatch := by
  obtain ⟨u, v, w, framed, recorded, bound, dispatched⟩ := enterFrame_parts entered
  have binds : v.Retained w := (Conserving.rules.holds_bindFormals L env record f.formals slots).reached bound
  have names : w.Retained t := by
    cases dispatch with
    | none => exact Conserving.reached (Conserving.rules.value ()) dispatched
    | some context => exact (Conserving.rules.holds_bindDispatch env context).reached dispatched
  have retained := binds.trans names
  have issued' : u.records.Issued := by cases framed; exact issued
  cases recorded
  refine ⟨Nat.lt_of_lt_of_le (Nat.lt_succ_self _) retained.next, fun r member here => ?_⟩
  obtain ⟨q, there, id, kind⟩ := retained.records r member (by rw [here]; exact Nat.lt_succ_self _)
  rcases List.mem_cons.mp there with rfl | old
  · exact kind.symm
  · exact absurd (issued' q old) (by rw [id, here]; exact Nat.lt_irrefl _)

/-- While it is alive, it is the record of the function that runs under it. -/
theorem enterFrame_runs (issued : s.records.Issued)
    (entered : enterFrame closure f definedIn call L slots caller dispatch s = (.ok (env, record), t))
    (alive : (t.records.get? record).isSome) : ∃ r, t.records.logicalFunction record = some r ∧
      r.id = record ∧ r.kind = .function env closure L dispatch := by
  obtain ⟨r, there⟩ := Option.isSome_iff_exists.mp alive
  have same : r.id = record := by simpa using List.find?_some there
  have kind := (enterFrame_record issued entered).2 r (List.mem_of_find?_eq_some there) same
  have isFunction : r.isFunction = true := by
    unfold Record.isFunction Record.env?
    rw [kind]
    rfl
  refine ⟨r, ?_, same, kind⟩
  unfold Records.logicalFunction Records.functionWithin
  rw [there, Option.bind_some, if_pos isFunction]

theorem getLocal_define {name q : Name} {v : Value} {u : Unit} (run : define env name v s = (.ok u, t)) :
    t.heap.getLocal env q = if name = q then .ok (some v) else s.heap.getLocal env q := by
  rw [define_apply] at run
  cases alive : s.heap.frame? env with
  | none =>
    rw [alive] at run
    cases run
  | some frame =>
    rw [alive] at run
    cases run
    have bound := Heap.frame_bind alive name v env
    rw [if_pos rfl] at bound
    unfold Heap.getLocal Heap.frame
    rw [bound, alive]
    change Except.ok ((frame.bindings.insert name v).get? q) = _
    rw [Table.get?_insert]
    split <;> rfl

/-- In a frame `...` stands for a list of arguments. -/
def Session.Packs (s : Session) (env : EnvId) (L : Supplied) : Prop :=
  ∃ d, s.heap.getLocal env Name.varargs = .ok (some (.dots d)) ∧ d.index < s.store.dots.size ∧
    s.store.dotsAt d = ⟨L.names, L.values⟩

/-- A list that `...` stands for is there as long as `...` is not bound to anything else. -/
theorem Session.Packs.later (packs : s.Packs env L) (retained : s.Retained t)
    (bound : t.heap.getLocal env Name.varargs = s.heap.getLocal env Name.varargs) : t.Packs env L := by
  obtain ⟨d, there, inside, holds⟩ := packs
  exact ⟨d, bound.trans there, Nat.lt_of_lt_of_le inside retained.dots.size,
    (retained.dots.dotsAt inside).trans holds⟩

theorem bindDispatch_getLocal {context : DispatchContext} (run : bindDispatch env context s = (.ok (), t)) :
    t.heap.getLocal env Name.varargs = s.heap.getLocal env Name.varargs := by
  obtain ⟨v, u₁, made, run⟩ := parts_of_bind run
  obtain ⟨⟨⟩, u₂, generic, run⟩ := parts_of_bind run
  obtain ⟨w, u₃, made', classes⟩ := parts_of_bind run
  cases made
  cases made'
  rw [getLocal_define classes, if_neg (by decide)]
  exact (getLocal_define generic).trans (if_neg (by decide))

/-- All arguments are packed into a new list. -/
theorem formalValue_varargs (paired : L.names.length = L.values.length) {formal : Formal} {v : Value}
    (made : formalValue L env record formal (.varargs (List.range L.names.length)) s = (.ok v, t)) :
    ∃ d, v = .dots d ∧ d.index < t.store.dots.size ∧ t.store.dotsAt d = ⟨L.names, L.values⟩ := by
  let packed : Dots := ⟨(List.range L.names.length).map fun i => L.names[i]?.join,
    (List.range L.names.length).map fun i => L.values[i]?.getD .missing⟩
  have all : packed = ⟨L.names, L.values⟩ := by
    refine Dots.mk.injEq .. |>.mpr ⟨map_range_join L.names, ?_⟩
    rw [paired]
    exact map_range_getD L.values .missing
  have run : (.ok (.dots ⟨s.store.dots.size⟩),
      { s with store := { s.store with dots := s.store.dots.push packed } }) =
        ((.ok v, t) : Except Unwind Value × Session) := made
  obtain ⟨value, after⟩ := Prod.mk.inj run
  subst after
  cases value
  refine ⟨_, rfl, Nat.lt_of_lt_of_eq (Nat.lt_succ_self _) (Array.size_push _).symm, ?_⟩
  unfold Store.dotsAt
  rw [Array.getElem?_push_size, all]
  rfl

/-- Entering a function with `...` as its only formal packs the arguments as they are. -/
theorem enterFrame_packs (paired : L.names.length = L.values.length) (only : f.names = [Name.varargs])
    {allowPartial : Bool}
    (matched : matchArguments (.ofFormals f.names) (.supplied L.names) allowPartial = .ok slots)
    (entered : enterFrame closure f definedIn call L slots caller dispatch s = (.ok (env, record), t)) :
    t.Packs env L := by
  obtain ⟨formal, formals, name⟩ := List.map_eq_singleton_iff.mp only
  rw [only, matchArguments_varargs] at matched
  cases matched
  obtain ⟨u, v, w, -, -, bound, dispatched⟩ := enterFrame_parts entered
  rw [formals] at bound
  obtain ⟨value, x, packed, rest⟩ := parts_of_bind bound
  obtain ⟨⟨⟩, y, defined, done⟩ := parts_of_bind rest
  have packs : y.Packs env L := by
    obtain ⟨d, rfl, inside, holds⟩ := formalValue_varargs paired packed
    have kept := (Conserving.defining env formal.name (.dots d)).reached defined
    have there := getLocal_define (q := Name.varargs) defined
    rw [if_pos name] at there
    exact ⟨d, there, Nat.lt_of_lt_of_le inside kept.dots.size, (kept.dots.dotsAt inside).trans holds⟩
  cases done
  cases dispatch with
  | none => cases dispatched; exact packs
  | some context =>
    exact packs.later ((Conserving.rules.holds_bindDispatch env context).reached dispatched)
      (bindDispatch_getLocal dispatched)

end Entering

/-! Calls `f(...)`. -/

section Forwarding

variable {ev : Evaluator} {env : EnvId} {L : Supplied} {s t : Session} {caller : RecordId} {g : Function}
  {call : Expr} {args : List Arg}

/-- Arguments of a call that are those bound to `...`, and no others. -/
def Forwards (args : List Arg) : Prop := ∃ name node, args = [⟨name, .symbol node Name.varargs⟩]

/-- A session in which a plan for early evaluation may have been worked out, the same otherwise. -/
structure Session.Replanned (s t : Session) : Prop where
  twin : s.Twin t
  options : t.options = s.options

theorem expandArgs_forwards (packs : s.Packs env L) (forwards : Forwards args) :
    expandArgs env caller 0 args s = (.ok (L.names, L.values.map .value), s) := by
  obtain ⟨name, node, rfl⟩ := forwards
  obtain ⟨d, there, -, holds⟩ := packs
  have visible : visibleDots env caller s = (.ok ⟨L.names, L.values⟩, s) := by
    unfold visibleDots
    rw [bind_apply, readHeap_apply, lookup_local there]
    dsimp only
    rw [get_bind, holds]
    rfl
  rw [expandArgs, if_pos (show (Expr.symbol node Name.varargs).isVarargs = true from rfl), bind_apply, visible]
  change (Except.ok (L.names ++ [], L.values.map Pending.value ++ []), s) = _
  rw [List.append_nil, List.append_nil]

/-- Values that are there already stay the same, and in order. -/
theorem argumentValues_values (site : NodeId) (early : Nat → Nat → Bool) (index : Nat) (values : List Value)
    (s : Session) : argumentValues ev env caller site early index (values.map .value) s = (.ok values, s) := by
  induction values generalizing index with
  | nil => rfl
  | cons v rest ih =>
    have first : argumentValue ev env caller site early index (.value v) s = (.ok v, s) := rfl
    rw [List.map_cons, argumentValues, bind_apply, first]
    dsimp only
    rw [bind_apply, ih]
    rfl

theorem suppliedValues_values (site : NodeId) (slots : List FormalSlot) (values : List Value) (s : Session) :
    ∃ t, suppliedValues ev env caller site g args slots (values.map .value) s = (.ok values, t) ∧
      s.Replanned t := by
  rcases suppliedValues_cases g args slots (values.map .value) s with ⟨-, -, -, planned⟩ | plain
  · obtain ⟨early, t, twin, options, run⟩ := plannedValues_run g args slots (values.map .value) s
    exact ⟨t, planned.trans (run.trans (argumentValues_values site early 0 values t)), ⟨twin, options⟩⟩
  · exact ⟨s, plain.trans (argumentValues_values site never 0 values s), ⟨.refl s, rfl⟩⟩

theorem matchSupplied_replanned (replanned : s.Replanned t) :
    matchSupplied g L call t = ((matchSupplied g L call s).1, t) := by
  obtain ⟨⟨early, sites, forced, rfl, -⟩, options⟩ := replanned
  rw [matchSupplied_eq, matchSupplied_eq, matchCall_apply, matchCall_apply, options]
  rfl

/-- A call `f(...)` supplies the list bound to `...`, matched as that list is. -/
theorem closureArgs_forwards (packs : s.Packs env L) (forwards : Forwards args) :
    match matchSupplied g L call s with
    | (.error u, _) => closureArgs ev g call args env caller s = (.error u, s)
    | (.ok slots, _) => ∃ t, closureArgs ev g call args env caller s = (.ok (L, slots), t) ∧
        s.Replanned t := by
  have labels : (L.values.map Pending.value).map (Pending.label s.store) = L.values.map (valueLabel s.store) :=
    List.map_map
  have unchanged : (matchSupplied g L call s).2 = s := by rw [matchSupplied_eq, matchCall_apply]
  have run : closureArgs ev g call args env caller s = (matchSupplied g L call >>= fun slots => do
      let values ← suppliedValues ev env caller call.id g args slots (L.values.map .value)
      pure (⟨L.names, values⟩, slots)) s := by
    unfold closureArgs
    rw [bind_apply, expandArgs_forwards packs forwards]
    dsimp only
    rw [get_bind, labels, bind_apply, ← matchSupplied_eq, bind_apply]
  rw [run, bind_apply]
  rcases outcome : matchSupplied g L call s with ⟨u | slots, s'⟩
  · rw [outcome] at unchanged
    exact congrArg (Prod.mk _) unchanged
  · rw [outcome] at unchanged
    obtain rfl : s' = s := unchanged
    obtain ⟨t, values, replanned⟩ := suppliedValues_values call.id slots L.values s'
    refine ⟨t, ?_, replanned⟩
    dsimp only
    rw [bind_apply, values]
    rfl

/-- A call `f(...)` of a closure is its call with the list itself. -/
theorem evalCall_forwards {f : Expr} {id : ClosureId} {definedIn : EnvId} {r : Session} (packs : s.Packs env L)
    (forwards : Forwards args)
    (called : (checkInterrupt >>= fun _ => calledFunction ev f env caller) r =
      (.ok (.closure id g definedIn), s)) :
    ∃ t, s.Replanned t ∧ evalCall ev call f args env caller r =
      invokeClosure ev (.closure id g definedIn) g definedIn call L caller none t := by
  rw [evalCall_closure called, bind_apply, ensureLazy_apply]
  unfold invokeClosure
  cases flagged : s.records.eagerOnly caller with
  | true =>
    refine ⟨s, ⟨.refl s, rfl⟩, ?_⟩
    rw [bind_apply, ensureLazy_apply, flagged]
    rfl
  | false =>
    have matched := @closureArgs_forwards ev env L s caller g call args packs forwards
    have proceeds {t : Session} (replanned : s.Replanned t) {m : Unit → EvalM Value} :
        (ensureLazy caller >>= m) t = m () t := by
      obtain ⟨⟨early, sites, forced, rfl, -⟩, -⟩ := replanned
      rw [bind_apply, ensureLazy_apply, show (s.replan early sites forced).records.eagerOnly caller = false
        from flagged]
      rfl
    have itself : s.Replanned s := ⟨.refl s, rfl⟩
    rw [if_neg Bool.false_ne_true]
    dsimp only
    rcases outcome : matchSupplied g L call s with ⟨u | slots, s'⟩
    · rw [outcome] at matched
      refine ⟨s, itself, ?_⟩
      rw [proceeds itself, bind_apply, matched, bind_apply, matchSupplied_replanned itself, outcome]
    · rw [outcome] at matched
      obtain ⟨t, supplied, replanned⟩ := matched
      refine ⟨t, replanned, ?_⟩
      rw [proceeds replanned, bind_apply, supplied, bind_apply, matchSupplied_replanned replanned, outcome]

end Forwarding

/-- A frame that a list came to: it was entered with the list, or by a call `f(...)` in a frame that the list
had come to, and is one of functions with `...` as their only formal. Nothing else was bound to `...`. -/
inductive Receives (L : Supplied) : Session → EnvId → Prop
  | entered {closure : Value} {f : Function} {definedIn env : EnvId} {call : Expr} {slots : List FormalSlot}
    {caller record : RecordId} {dispatch : Option DispatchContext} {s t : Session} {allowPartial : Bool}
    (only : f.names = [Name.varargs])
    (matched : matchArguments (.ofFormals f.names) (.supplied L.names) allowPartial = .ok slots)
    (entered : enterFrame closure f definedIn call L slots caller dispatch s = (.ok (env, record), t)) :
    Receives L t env
  | later {s t : Session} {env : EnvId} (receives : Receives L s env) (retained : s.Retained t)
    (bound : t.heap.getLocal env Name.varargs = s.heap.getLocal env Name.varargs) : Receives L t env
  | forwarded {ev : Evaluator} {closure : Value} {g : Function} {definedIn env env' : EnvId} {call : Expr}
    {args : List Arg} {supplied : Supplied} {slots : List FormalSlot} {caller record : RecordId}
    {dispatch : Option DispatchContext} {s t u : Session} (receives : Receives L s env) (forwards : Forwards args)
    (only : g.names = [Name.varargs])
    (supplies : closureArgs ev g call args env caller s = (.ok (supplied, slots), t))
    (entered : enterFrame closure g definedIn call supplied slots caller dispatch t = (.ok (env', record), u)) :
    Receives L u env'

theorem slots_of_matchSupplied {L : Supplied} {g : Function} {call : Expr} {slots : List FormalSlot}
    {s t : Session} (matched : matchSupplied g L call s = (.ok slots, t)) :
    matchArguments (.ofFormals g.names) (.supplied L.names) s.options.partialMatching = .ok slots := by
  rw [matchSupplied_eq, matchCall_apply] at matched
  cases outcome : matchArguments (.ofFormals g.names) (.supplied L.names) s.options.partialMatching with
  | ok slots' =>
    rw [outcome] at matched
    cases matched
    rfl
  | error e =>
    rw [outcome] at matched
    cases matched

/-- Through any number of functions `...` stands for the list that the first of them was entered with. -/
theorem Receives.packs {L : Supplied} {s : Session} {env : EnvId} (paired : L.names.length = L.values.length)
    (receives : Receives L s env) : s.Packs env L := by
  induction receives with
  | entered only matched entered => exact enterFrame_packs paired only matched entered
  | later _ retained bound ih => exact ih.later retained bound
  | @forwarded ev _ g _ _ _ call args supplied slots caller _ _ s t _ _ forwards only supplies entered ih =>
    have matched := @closureArgs_forwards ev _ L s caller g call args ih forwards
    rcases outcome : matchSupplied g L call s with ⟨u | slots', s'⟩
    · rw [outcome] at matched
      cases supplies.symm.trans matched
    · rw [outcome] at matched
      obtain ⟨t', supplied', -⟩ := matched
      cases supplies.symm.trans supplied'
      exact enterFrame_packs paired only (slots_of_matchSupplied outcome) entered

/-! Methods. -/

/-- The record of a call with a list of arguments, in the session in which it was opened or a later one. -/
inductive CalledWith (L : Supplied) (s : Session) (record : RecordId) : Prop
  | intro {closure : Value} {f : Function} {definedIn env : EnvId} {call : Expr} {slots : List FormalSlot}
    {caller : RecordId} {dispatch : Option DispatchContext} {p q : Session} (issued : p.records.Issued)
    (entered : enterFrame closure f definedIn call L slots caller dispatch p = (.ok (env, record), q))
    (retained : q.Retained s) : CalledWith L s record

theorem CalledWith.supplied {L : Supplied} {s : Session} {r : Record} (called : CalledWith L s r.id)
    (alive : r ∈ s.records.live) : r.supplied? = some L := by
  obtain ⟨issued, entered, retained⟩ := called
  obtain ⟨numbered, opened⟩ := enterFrame_record issued entered
  obtain ⟨q, there, same, kind⟩ := retained.records r alive numbered
  have kind' := kind.symm.trans (opened q there same)
  unfold Record.supplied?
  rw [kind']

/-- The arguments of a call for the next method add none to those of the current one: they stand for the
generic and the object, are left out or are `...`. -/
structure SpecialCall.Plain (c : SpecialCall) : Prop where
  named : ∀ a ∈ c.args, ∀ name, a.name = some name →
    isDispatchName name = true ∨ a.value.isVarargs = true ∨ a.value.isEmpty = true
  unnamed : ∀ a ∈ (c.args.filter (·.name.isNone)).drop 2, a.value.isVarargs = true ∨ a.value.isEmpty = true

theorem addExtraArgs_plain {c : SpecialCall} {L : Supplied} {args : List Arg} {s : Session} (skipped : Nat)
    (named : ∀ a ∈ args, ∀ name, a.name = some name →
      isDispatchName name = true ∨ a.value.isVarargs = true ∨ a.value.isEmpty = true)
    (unnamed : ∀ a ∈ (args.filter (·.name.isNone)).drop (2 - skipped),
      a.value.isVarargs = true ∨ a.value.isEmpty = true) :
    addExtraArgs c skipped L args s = (.ok L, s) := by
  induction args generalizing skipped with
  | nil => rfl
  | cons a rest ih =>
    obtain ⟨name, e⟩ := a
    obtain ⟨first, named⟩ := List.forall_mem_cons.mp named
    have next := fun skipped => ih skipped named
    have passed (adds : e.isVarargs = true ∨ e.isEmpty = true) : (e.isVarargs || e.isEmpty) = true :=
      (Bool.or_eq_true _ _).mpr adds
    rw [addExtraArgs]
    cases name with
    | some name =>
      have rest : ∀ a ∈ (rest.filter (·.name.isNone)).drop (2 - skipped),
          a.value.isVarargs = true ∨ a.value.isEmpty = true := unnamed
      rcases first name rfl with dispatch | adds
      · rw [if_pos (show (some name).any isDispatchName = true from dispatch)]
        exact next skipped rest
      · split
        · exact next skipped rest
        · rw [if_neg (by simp), if_pos (passed adds)]
          exact next skipped rest
    | none =>
      rw [if_neg (by simp)]
      by_cases stands : skipped < 2
      · have fewer : 2 - skipped = (2 - (skipped + 1)) + 1 := by omega
        rw [if_pos (by simp [stands])]
        rw [fewer] at unnamed
        exact next (skipped + 1) unnamed
      · have none : 2 - skipped = 0 := by omega
        rw [none] at unnamed
        obtain ⟨adds, others⟩ := List.forall_mem_cons.mp unnamed
        rw [if_neg (by simp [stands]), if_pos (passed adds)]
        exact next skipped (none ▸ others)

/-- A call in the function that a record was opened for comes to a method in one of three ways. What is left is
to call the method, in the context of a dispatch or in none, and to end the call with its value. -/
inductive Dispatches (ev : Evaluator) (c : SpecialCall) (frame : Record) (s : Session) :
    EvalM Value → Value → Option DispatchContext → (Value → EvalM Value) → Session → Prop
  | onClass {generic : Name} {object : Option Value} {env definedIn callEnv : EnvId} {f : Function}
    {v : Value} {m : CachedMethod} {t u : Session}
    (runs : genericFrame s c.caller = some (frame, env, f, definedIn))
    (dispatched : (match object with
      | some v => pure v
      | none => dispatchObject ev f env frame.id) s = (.ok v, t))
    (called : ((t.records.logicalParent frame.id).bind (·.env?)).getD Session.global = callEnv)
    (selected : selectMethod ev (t.methodSearch generic (t.classOf v) [callEnv, definedIn]) (t.classOf v) c t =
      (.ok m, u)) :
    Dispatches ev c frame s (useMethod ev generic object c) m.method
      (some ⟨generic, m.group, t.store.classNames (t.classOf v), m.position, v, callEnv, some definedIn⟩)
      (fun v => throw (.leave env v)) u
  | onFormals {name : Name} {generic : Generic} {env : EnvId} {chains : List VectorId} {method : Value}
    {t u : Session} (known : s.generics.get? name = some generic)
    (runs : s.records.logicalFunction c.caller = some frame) (opened : frame.env? = some env)
    (read : signatureChains ev env c.caller generic.signature s = (.ok chains, t))
    (selected : selectFormal generic chains c.call.id t = (.ok (.found method), u)) :
    Dispatches ev c frame s (standardGeneric ev name c) method none pure u
  | onward {d : DispatchContext} {m : CachedMethod} {t : Session} (plain : c.Plain)
    (runs : s.records.logicalFunction c.caller = some frame) (dispatched : frame.dispatch? = some d)
    (found : findMethod ev (d.search d.group) (d.position + 1) c.caller s = (.ok (some m), t)) :
    Dispatches ev c frame s (nextMethod ev c) m.method (some (d.reaching m)) pure t

section Methods

variable {ev : Evaluator} {c : SpecialCall} {frame : Record} {s u : Session} {run : EvalM Value} {method : Value}
  {context : Option DispatchContext} {finish : Value → EvalM Value} {L : Supplied}

theorem Dispatches.runs (dispatches : Dispatches ev c frame s run method context finish u) :
    s.records.logicalFunction c.caller = some frame := by
  cases dispatches with
  | onClass runs =>
    unfold genericFrame at runs
    split at runs
    · cases runs
    · split at runs
      · cases runs
        assumption
      · cases runs
  | onFormals _ runs | onward _ runs => exact runs

/-- A dispatch from inside a generic begins with its object. -/
theorem useMethod_apply {generic : Name} {object : Option Value} {env home : EnvId} {f : Function} {v : Value}
    {t : Session} (runs : genericFrame s c.caller = some (frame, env, f, home))
    (dispatched : (match object with
      | some v => pure v
      | none => dispatchObject ev f env frame.id) s = (.ok v, t)) :
    useMethod ev generic object c s = dispatchOn ev generic frame env home c v t := by
  unfold useMethod
  rw [get_bind, runs]
  cases object with
  | some v' =>
    cases dispatched
    dsimp only
    rw [pure_bind]
    unfold dispatchOn
    rfl
  | none =>
    dsimp only at dispatched ⊢
    rw [bind_apply, dispatched]
    unfold dispatchOn
    rfl

theorem callMethod_closure (id : ClosureId) (g : Function) (definedIn : EnvId) (call : Expr) (L : Supplied)
    (parent : RecordId) (context : DispatchContext) :
    callMethod ev (.closure id g definedIn) call L parent context =
      invokeClosure ev (.closure id g definedIn) g definedIn call L parent (some context) := rfl

/-- A method that is a closure is called with the arguments of the record. -/
theorem Dispatches.supplies {id : ClosureId} {g : Function} {definedIn : EnvId}
    (dispatches : Dispatches ev c frame s run (.closure id g definedIn) context finish u)
    (supplied : frame.supplied? = some L) :
    run s = (invokeClosure ev (.closure id g definedIn) g definedIn (frame.call.getD c.call) L
      (frame.parent.getD frame.id) context >>= finish) u := by
  generalize closed : Value.closure id g definedIn = method at dispatches
  have list : frameCall frame c.call = (L, frame.parent.getD frame.id, frame.call.getD c.call) := by
    unfold frameCall
    rw [supplied]
    rfl
  cases dispatches with
  | @onClass generic object env home callEnv f v m t _ runs dispatched called selected =>
    have start : useMethod ev generic object c s = dispatchOn ev generic frame env home c v t :=
      useMethod_apply runs dispatched
    rw [start]
    unfold dispatchOn
    rw [get_bind, called]
    change (selectMethod ev (t.methodSearch generic (t.classOf v) [callEnv, home]) (t.classOf v) c >>= _) t = _
    rw [bind_apply, selected]
    dsimp only
    rw [list, ← closed, callMethod_closure]
  | @onFormals name generic env chains _ t _ known runs opened read selected =>
    unfold standardGeneric
    rw [get_bind, known]
    dsimp only
    rw [runs, Option.bind_some, opened]
    dsimp only
    rw [bind_apply, read]
    dsimp only
    rw [bind_apply, selected, list, ← closed, bind_pure]
  | @onward d m t plain runs dispatched found =>
    rw [nextMethod_apply runs dispatched, bind_apply, found]
    unfold goOn
    rw [list]
    dsimp only
    rw [bind_apply, addExtraArgs_plain 0 plain.named plain.unnamed, ← closed, bind_pure]
    dsimp only
    rw [callMethod_closure]

end Methods

/-- Arguments are handed on as they are. In a frame that a list of arguments came to, a call `f(...)` is the
call of `f` with that list, and so is matched as the list is. A method that is a closure is called with the
list that the function was called with from inside of which it was dispatched to. -/
theorem arguments_handed_on {L : Supplied} (paired : L.names.length = L.values.length) :
    (∀ depth e env caller (s : Session), s.Retained (eval depth e env caller s).2) ∧
    (∀ {s : Session} {env : EnvId} {args : List Arg}, Receives L s env → Forwards args → ∀ ev g call caller,
      (match matchSupplied g L call s with
        | (.error u, _) => closureArgs ev g call args env caller s = (.error u, s)
        | (.ok slots, _) => ∃ t, closureArgs ev g call args env caller s = (.ok (L, slots), t) ∧
            s.Replanned t) ∧
      ∀ f id definedIn r, (checkInterrupt >>= fun _ => calledFunction ev f env caller) r =
          (.ok (.closure id g definedIn), s) →
        ∃ t, s.Replanned t ∧ evalCall ev call f args env caller r =
          invokeClosure ev (.closure id g definedIn) g definedIn call L caller none t) ∧
    ∀ {s u ev c frame run id g definedIn context finish}, CalledWith L s frame.id →
      Dispatches ev c frame s run (.closure id g definedIn) context finish u →
        run s = (invokeClosure ev (.closure id g definedIn) g definedIn (frame.call.getD c.call) L
          (frame.parent.getD frame.id) context >>= finish) u := by
  refine ⟨fun depth e env caller => Conserving.law.evaluates_eval depth e env caller,
    fun receives forwards ev g call caller => ?_, fun called dispatches => ?_⟩
  · have packs := receives.packs paired
    exact ⟨closureArgs_forwards packs forwards, fun f id definedIn r => evalCall_forwards packs forwards⟩
  · exact dispatches.supplies (called.supplied (Records.mem_of_logicalFunction dispatches.runs))

/-- A method with `...` as its only formal has a named argument, one left out and one with an empty name, a
promise. It hands them on to a function with a formal before `...`, and to the next method. -/
theorem method_hands_on_three :
    let made := Store.evaluatedPromise (.empty ⟨0⟩) .null .supplied (start {}).store
    let method : Expr := .assign ⟨1⟩ (.symbol ⟨2⟩ "m.a")
      (.function ⟨⟨3⟩, [⟨"...", none⟩], .constant ⟨4⟩ .null⟩) false
    let p := (evalIn method global { start {} with store := made.2 }).2
    let L : Supplied := ⟨[some "y", none, some ""], [.null, .missing, made.1]⟩
    let f : Function := ⟨⟨5⟩, [⟨"...", none⟩], .constant ⟨6⟩ .null⟩
    let g : Function := ⟨⟨7⟩, [⟨"x", none⟩, ⟨"...", none⟩], .constant ⟨8⟩ .null⟩
    let call : Expr := .call ⟨9⟩ (.symbol ⟨10⟩ "NextMethod") []
    let d : DispatchContext := ⟨"m", none, ["z", "a"], 0, .null, global, none⟩
    L.names.length = L.values.length ∧ ∃ env record t,
      enterFrame (.closure ⟨0⟩ f global) f global call L [.varargs [0, 1, 2]] ⟨0⟩ (some d) p =
        (.ok (env, record), t) ∧
      (∃ u, closureArgs (eval 0) g call [⟨none, .symbol ⟨11⟩ "..."⟩] env record t =
        (.ok (L, [.supplied 1, .varargs [0, 2]]), u)) ∧
      ∃ (frame : Record) (id : ClosureId) (h : Function) (definedIn : EnvId) (u : Session), frame.id = record ∧
        nextMethod (eval 0) ⟨call, [], env, record⟩ t =
          (invokeClosure (eval 0) (.closure id h definedIn) h definedIn (frame.call.getD call) L
            (frame.parent.getD frame.id) (some { d with position := 1 }) >>= pure) u := by
  intro made method p L f g call d
  have paired : L.names.length = L.values.length := rfl
  refine ⟨paired, ?_⟩
  let opening := enterFrame (.closure ⟨0⟩ f global) f global call L [.varargs [0, 1, 2]] ⟨0⟩ (some d) p
  let shown (m : CachedMethod) : (String × Option EnvId) × Nat × Option Name :=
    ((made.2.typeName m.method, made.2.ownEnvironment m.method), m.position, m.group)
  have opens : opening.1.toOption = some (⟨2, 0⟩, ⟨1⟩) := by decide +kernel
  have empty : p.records.live.length = 0 := by decide +kernel
  have alive : (opening.2.records.get? ⟨1⟩).isSome := by decide +kernel
  have next : (findMethod (eval 0) (d.search d.group) (d.position + 1) ⟨1⟩ opening.2).1.toOption.join.map
      shown = some (("closure", some global), 1, none) := by decide +kernel
  clear_value p
  rcases entered : opening with ⟨_ | ⟨env, record⟩, t⟩
  · rw [entered] at opens
    cases opens
  rw [entered] at opens alive next
  cases opens
  dsimp only at alive next
  have issued : p.records.Issued := by
    rw [Records.Issued, List.length_eq_zero_iff.mp empty]
    exact fun r member => absurd member List.not_mem_nil
  obtain ⟨-, forwards, dispatches⟩ := arguments_handed_on paired
  have all : matchArguments (.ofFormals f.names) (.supplied L.names) true = .ok [.varargs [0, 1, 2]] := by decide
  have receives : Receives L t ⟨2, 0⟩ := .entered rfl all entered
  refine ⟨⟨2, 0⟩, ⟨1⟩, t, entered, ?_, ?_⟩
  · obtain ⟨matched, -⟩ := forwards receives ⟨none, ⟨11⟩, rfl⟩ (eval 0) g call ⟨1⟩
    have slots (allowPartial : Bool) : matchArguments (.ofFormals g.names) (.supplied L.names) allowPartial =
        .ok [.supplied 1, .varargs [0, 2]] := by cases allowPartial <;> decide
    rw [matchSupplied_eq, matchCall_apply, slots] at matched
    obtain ⟨u, supplied, -⟩ := matched
    exact ⟨u, supplied⟩
  · obtain ⟨frame, runs, same, kind⟩ := enterFrame_runs issued entered alive
    have called : CalledWith L t frame.id := by
      rw [same]
      exact .intro issued entered (.refl t)
    have dispatched : frame.dispatch? = some d := by
      unfold Record.dispatch?
      rw [kind]
    rcases found : findMethod (eval 0) (d.search d.group) (d.position + 1) ⟨1⟩ t with ⟨_ | _ | m, u⟩
    · rw [found] at next
      cases next
    · rw [found] at next
      cases next
    rw [found] at next
    obtain ⟨kind', rest⟩ := Prod.mk.inj (Option.some.inj next)
    obtain ⟨closure, home⟩ := Prod.mk.inj kind'
    obtain ⟨position, group⟩ := Prod.mk.inj rest
    cases method : m.method with
    | closure id h definedIn =>
      have onward : Dispatches (eval 0) ⟨call, [], ⟨2, 0⟩, ⟨1⟩⟩ frame t _ m.method (some (d.reaching m)) pure u :=
        .onward ⟨fun a member => absurd member List.not_mem_nil, fun a member => absurd member List.not_mem_nil⟩
          runs dispatched found
      have reached : d.reaching m = { d with position := 1 } := by
        unfold DispatchContext.reaching
        rw [position, group]
      rw [method, reached] at onward
      have run := dispatches called onward
      exact ⟨frame, id, h, definedIn, u, same, run⟩
    | vector =>
      rw [method] at home
      cases home
    | _ =>
      rw [method, Store.typeName] at closure
      exact absurd closure (by decide)

end CallByNeed
