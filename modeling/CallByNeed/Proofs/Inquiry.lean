import CallByNeed.Proofs.Conduct
import CallByNeed.Proofs.KeepingBuiltins

/-!
What is asked about evaluations: whether everything a session refers to is there, and what becomes of one
fatal failure. Where it is asked, the frames and builtins that a sound session refers to are alive. What
the heap answers then, and what the single changes of a session keep.
-/
namespace CallByNeed

namespace Scope

variable (S : Scope)

structure AllowsContext (d : DispatchContext) : Prop where
  object : S.Covers d.object
  callEnv : S.frame d.callEnv
  defEnv : ∀ env, d.defEnv = some env → S.frame env

structure AllowsRecord (r : Record) : Prop where
  call : ∀ e, r.call = some e → S.Spans e
  env : ∀ env, r.env? = some env → S.frame env
  function : S.CoversAny r.function?
  supplied : ∀ s, r.supplied? = some s → S.CoversAll s.values
  dispatch : ∀ d, r.dispatch? = some d → S.AllowsContext d

variable {S} {T : Scope}

theorem AllowsContext.mono {d : DispatchContext} (ok : S.AllowsContext d) (wider : S.Within T) :
    T.AllowsContext d where
  object := ok.object.mono wider
  callEnv := wider (.frame _) ok.callEnv
  defEnv env same := wider (.frame env) (ok.defEnv env same)

theorem AllowsRecord.mono {r : Record} (ok : S.AllowsRecord r) (wider : S.Within T) :
    T.AllowsRecord r where
  call e same := (ok.call e same).mono wider
  env env same := wider (.frame env) (ok.env env same)
  function := ok.function.mono wider
  supplied s same := (ok.supplied s same).mono wider
  dispatch d same := (ok.dispatch d same).mono wider

end Scope

/-- The frames of a heap refer only to what is in a scope. -/
def Heap.Within (S : Scope) (h : Heap) : Prop :=
  ∀ slot ∈ h.slots, ∀ f, slot.frame = some f →
    (∀ parent, f.parent = some parent → S.frame parent) ∧ S.CoversAll f.bindings.values

theorem Heap.Within.mono {S T : Scope} {h : Heap} (within : h.Within S) (wider : S.Within T) :
    h.Within T := fun slot member f there =>
  ⟨fun parent same => wider (.frame parent) ((within slot member f there).1 parent same),
    Scope.CoversAll.mono (within slot member f there).2 wider⟩

theorem Heap.Within.frame {S : Scope} {h : Heap} (within : h.Within S) {env : EnvId} {f : Frame}
    (found : h.frame? env = some f) :
    (∀ parent, f.parent = some parent → S.frame parent) ∧ S.CoversAll f.bindings.values := by
  unfold Heap.frame? at found
  split at found
  · rename_i slot held
    split at found
    · exact within slot (Array.mem_of_getElem? held) f found
    · cases found
  · cases found

theorem Heap.Within.bind {S : Scope} {h : Heap} (within : h.Within S) (env : EnvId) (name : Name) {v : Value}
    (ok : S.Covers v) : (h.bind env name v).Within S := by
  intro slot member f there
  obtain ⟨i, found⟩ := Array.mem_iff_getElem?.mp member
  rw [Heap.slots_bind, Array.getElem?_modify] at found
  split at found
  · obtain ⟨old, held, rfl⟩ := Option.map_eq_some_iff.mp found
    obtain ⟨before, kept, rfl⟩ := Option.map_eq_some_iff.mp there
    obtain ⟨parents, bindings⟩ := within old (Array.mem_of_getElem? held) before kept
    refine ⟨parents, fun w bound => ?_⟩
    rcases Table.mem_values_insert bound with rfl | earlier
    · exact ok
    · exact bindings w earlier
  · exact within slot (Array.mem_of_getElem? found) f there

theorem Heap.Within.alloc {S : Scope} {h : Heap} (within : h.Within S) {parent : Option EnvId}
    (outwards : ∀ p, parent = some p → S.frame p) (label : Option Name) :
    (h.alloc parent label).2.Within S := by
  intro slot member f there
  rcases Heap.slot_alloc member with old | new
  · exact within slot old f there
  · rw [new] at there
    cases there
    exact ⟨outwards, nofun⟩

/-- A session in which everything that was there is. -/
structure Session.Extends (w s : Session) : Prop where
  builtins : s.builtins = w.builtins
  frames : ∀ env, w.heap.contains env = true → s.heap.contains env = true

namespace Session.Extends

variable {w s t : Session}

theorem refl (s : Session) : s.Extends s := ⟨rfl, fun _ alive => alive⟩

theorem trans (first : w.Extends s) (second : s.Extends t) : w.Extends t :=
  ⟨second.builtins.trans first.builtins, fun env alive => second.frames env (first.frames env alive)⟩

theorem same (heap : t.heap = s.heap) (builtins : t.builtins = s.builtins) : s.Extends t :=
  ⟨builtins, fun env alive => by rwa [heap]⟩

end Session.Extends

/-- What is asked. -/
structure Inquiry where
  /-- Whether what is referred to has to be there. -/
  live : Prop
  /-- Whether an evaluation is interrupted through the flag alone. -/
  steady : Prop
  /-- The failure that is followed on its way out. -/
  followed : Failure
  fatal : followed.isFatal = true
  /-- Whether a write in place may be refused. -/
  refusing : Prop := True
  /-- The special builtins that may be called as replacement functions. -/
  settable : Builtin → Prop := fun _ => True

namespace Inquiry

variable (K : Inquiry)

/-- What a session may refer to. -/
def scope (s : Session) : Scope where
  frame env := K.live → s.heap.contains env = true
  builtin id := K.live → id < s.builtins.functions.size

/-- What an internal failure may say: a write in place into a shared vector was refused, or a special
builtin was called as a strict one. -/
def Excuses (r : Registry) (message : String) : Prop :=
  (K.refusing ∧ ∃ state : Sharing, state.isShared = true ∧
      message = s!"in-place write to a {state.name} container") ∨
    ∃ b ∈ r.functions, b.isStrict = false ∧ K.settable b ∧ message = s!"'{b.name}' is not a strict builtin"

/-- A failure that may come about without the flag. -/
structure Allows (r : Registry) (f : Failure) : Prop where
  calm : K.steady → f ≠ .interrupted
  excused : K.live → ∀ message, f = .internal message → K.Excuses r message

/-- Everything a session holds is within its scope, and its builtins fail only as they may. -/
structure Sound (s : Session) : Prop where
  store : s.store.Within (K.scope s)
  heap : s.heap.Within (K.scope s)
  free : K.live → ∀ i ∈ s.heap.free, i < s.heap.slots.size
  base : (K.scope s).frame Session.base
  global : (K.scope s).frame Session.global
  records : ∀ r ∈ s.records.live, (K.scope s).AllowsRecord r
  methods : (K.scope s).CoversAll s.methods.values
  tables : ∀ t ∈ s.tables, (K.scope s).CoversAll t.methods.values
  caches : ∀ site ∈ s.sites.values, site.cache.All (K.scope s).Covers
  honest : ∀ b ∈ s.builtins.functions, ∀ f, b.Raises f → K.Allows s.builtins f

/-- A result as stated, or a frame that is not there and need not be. -/
def Found {α : Type} (Q : α → Prop) : Except Failure α → Prop
  | .ok a => Q a
  | .error f => ¬K.live ∧ ∃ env, f = Heap.collected env

variable {K} {α β : Type} {w s t : Session} {Q : α → Prop} {R : β → Prop} {r : Registry} {f : Failure}

theorem allows_of_tame (tame : f.Tame K.refusing) : K.Allows r f := by
  rcases tame with mild | ⟨lax, state, held, rfl⟩
  · refine ⟨?_, fun _ message same => ?_⟩
    · rintro _ rfl
      cases mild
    · cases same
      cases mild
  · exact ⟨fun _ => nofun, fun _ message same =>
      .inl ⟨lax, state, held, (Failure.internal.inj same).symm⟩⟩

theorem allows_of_mild (mild : f.isFatal = false) : K.Allows r f := allows_of_tame (.inl mild)

theorem allows_exhausted : K.Allows r .exhausted := ⟨fun _ => nofun, fun _ _ => nofun⟩

theorem scope_within (extend : w.Extends s) : (K.scope w).Within (K.scope s) := by
  intro r has
  cases r with
  | frame env => exact fun live => extend.frames env (has live)
  | builtin id =>
    intro live
    rw [extend.builtins]
    exact has live

/-- Where nothing has to be there, anything may be referred to. -/
theorem has_anything (dead : ¬K.live) (s : Session) (r : Reference) : (K.scope s).Has r := by
  cases r with
  | frame env => exact fun live => absurd live dead
  | builtin id => exact fun live => absurd live dead

theorem covers_anything (dead : ¬K.live) (s : Session) (v : Value) : (K.scope s).Covers v :=
  fun r _ => has_anything dead s r

theorem spans_anything (dead : ¬K.live) (s : Session) (e : Expr) : (K.scope s).Spans e :=
  fun r _ => has_anything dead s r

/-- Where nothing has to be there, a session is sound as soon as its builtins are. -/
theorem sound_of_honest (dead : ¬K.live)
    (honest : ∀ b ∈ s.builtins.functions, ∀ f, b.Raises f → K.Allows s.builtins f) : K.Sound s := by
  have frame (env : EnvId) : (K.scope s).frame env := fun live => absurd live dead
  have covers := covers_anything dead s
  have spans := spans_anything dead s
  exact
    { store := ⟨fun _ _ v _ => covers v, fun p _ => ⟨spans _, fun env _ => frame env, fun v _ => covers v,
        fun v _ => covers v⟩, fun _ _ v _ => covers v⟩
      heap := fun _ _ _ _ => ⟨fun env _ => frame env, fun v _ => covers v⟩
      free := fun live => absurd live dead
      base := frame _
      global := frame _
      records := fun _ _ => ⟨fun e _ => spans e, fun env _ => frame env, fun v _ => covers v,
        fun _ _ v _ => covers v, fun _ _ => ⟨covers _, frame _, fun env _ => frame env⟩⟩
      methods := fun v _ => covers v
      tables := fun _ _ v _ => covers v
      caches := fun _ _ => ⟨fun _ _ => covers _, fun _ _ => covers _⟩
      honest }

/-! Reading the heap. -/

theorem found_bind {r : Except Failure α} {f : α → Except Failure β} (first : K.Found Q r)
    (rest : ∀ a, Q a → K.Found R (f a)) : K.Found R (r >>= f) := by
  cases r with
  | ok a => exact rest a first
  | error f => exact first

theorem Found.weaken {P : α → Prop} {r : Except Failure α} (found : K.Found P r)
    (weaker : ∀ a, P a → Q a) : K.Found Q r := by
  cases r with
  | ok a => exact weaker a found
  | error f => exact found

theorem found_frame {env : EnvId} (alive : (K.scope s).frame env) :
    K.Found (fun f => s.heap.frame? env = some f) (s.heap.frame env) := by
  unfold Heap.frame
  split
  · rename_i f found
    exact found
  · rename_i gone
    refine ⟨fun live => ?_, env, rfl⟩
    have there := alive live
    unfold Heap.contains at there
    rw [gone] at there
    cases there

namespace Sound

variable {env : EnvId} (sound : K.Sound s)
include sound

theorem found_parent (alive : (K.scope s).frame env) :
    K.Found (fun parent => ∀ p, parent = some p → (K.scope s).frame p) (s.heap.parent env) :=
  found_bind (found_frame alive) fun _ found => (sound.heap.frame found).1

theorem found_getLocal (alive : (K.scope s).frame env) (name : Name) :
    K.Found (K.scope s).CoversAny (s.heap.getLocal env name) :=
  found_bind (found_frame alive) fun _ found v there =>
    (sound.heap.frame found).2 v (Table.mem_values_of_get? there)

/-- All frames on the way outwards are there. -/
theorem chain (alive : (K.scope s).frame env) : ∀ e ∈ s.heap.chain env, (K.scope s).frame e := by
  unfold Heap.chain
  generalize s.heap.slots.size + 1 = steps
  induction steps generalizing env with
  | zero => exact nofun
  | succ steps ih =>
    intro e member
    rcases List.mem_cons.mp member with rfl | above
    · exact alive
    cases found : s.heap.frame? env with
    | none =>
      rw [found] at above
      cases above
    | some f =>
      rw [found, Option.bind_some] at above
      cases outwards : f.parent with
      | none =>
        rw [outwards] at above
        cases above
      | some parent =>
        rw [outwards] at above
        exact ih ((sound.heap.frame found).1 parent outwards) e above

theorem found_lookup (alive : (K.scope s).frame env) (name : Name) :
    K.Found (fun found => ∀ e v, found = some (e, v) → (K.scope s).Covers v) (s.heap.lookup env name) := by
  have all := sound.chain alive
  unfold Heap.lookup
  revert all
  generalize s.heap.chain env = chain
  intro all
  induction chain with
  | nil => exact nofun
  | cons e rest ih =>
    obtain ⟨first, others⟩ := List.forall_mem_cons.mp all
    refine found_bind (sound.found_getLocal first name) fun found ok => ?_
    cases found with
    | none => exact ih others
    | some v =>
      intro _ w same
      cases same
      exact ok v rfl

theorem found_replacedBinding (alive : (K.scope s).frame env) (name : Name) (outer : Bool) :
    K.Found Scope.Any (replacedBinding s.heap name env outer) := by
  cases outer with
  | false =>
    exact (sound.found_getLocal alive name).weaken fun _ _ => trivial
  | true =>
    refine found_bind (sound.found_parent alive) fun parent ok => ?_
    cases parent with
    | none => trivial
    | some parent => exact found_bind (sound.found_lookup (ok parent rfl) name) fun _ _ => trivial

theorem found_versionSnapshot (alive : (K.scope s).frame env) :
    K.Found Scope.Any (s.heap.versionSnapshot env) := by
  have all := sound.chain alive
  unfold Heap.versionSnapshot
  revert all
  generalize s.heap.chain env = chain
  intro all
  induction chain with
  | nil => trivial
  | cons e rest ih =>
    obtain ⟨first, others⟩ := List.forall_mem_cons.mp all
    rw [List.mapM_cons]
    exact found_bind (R := Scope.Any) (found_bind (R := Scope.Any) (found_frame first) fun _ _ => trivial)
      fun _ _ => found_bind (ih others) fun _ _ => trivial

omit sound in
theorem found_bindingFrame {last : EnvId} {chain : List EnvId} (alive : (K.scope s).frame last)
    (all : ∀ e ∈ chain, (K.scope s).frame e) (name : Name) :
    K.Found (K.scope s).frame (s.heap.bindingFrame name last chain) := by
  induction chain generalizing last with
  | nil => exact alive
  | cons e rest ih =>
    obtain ⟨first, others⟩ := List.forall_mem_cons.mp all
    refine found_bind (found_frame first) fun f _ => ?_
    split
    · exact first
    · exact ih first others

theorem found_assignOuter (alive : (K.scope s).frame env) (name : Name) (v : Value) :
    K.Found (fun r => ∃ target, r.2 = s.heap.bind target name v) (s.heap.assignOuter env name v) := by
  refine found_bind (sound.found_parent alive) fun parent ok => ?_
  have start : (K.scope s).frame (parent.getD env) := by
    cases parent with
    | none => exact alive
    | some parent => exact ok parent rfl
  refine found_bind (found_bindingFrame start (sound.chain start) name) fun target there => ?_
  exact found_bind (Q := fun h => h = s.heap.bind target name v)
    (found_bind (found_frame there) fun _ _ => rfl) fun _ same => ⟨target, same⟩

end Sound

/-! Single changes of a session. -/

namespace Sound

variable (sound : K.Sound s)
include sound

/-- A session with other objects. -/
theorem withStore {store : Store} (within : store.Within (K.scope s)) :
    K.Sound { s with store } := { sound with store := within }

/-- A session with another heap, in which the frames that were there are. -/
theorem withHeap {heap : Heap} (extend : s.Extends { s with heap })
    (within : heap.Within (K.scope { s with heap }))
    (free : K.live → ∀ i ∈ heap.free, i < heap.slots.size) : K.Sound { s with heap } :=
  have wider := scope_within (K := K) extend
  { store := sound.store.mono wider
    heap := within
    free
    base := wider (.frame _) sound.base
    global := wider (.frame _) sound.global
    records := fun r member => (sound.records r member).mono wider
    methods := Scope.CoversAll.mono sound.methods wider
    tables := fun t member => Scope.CoversAll.mono (sound.tables t member) wider
    caches := fun site member => (sound.caches site member).imp fun _ ok => ok.mono wider
    honest := sound.honest }

/-- A session that differs only in what holds neither values nor code. -/
theorem same (same : t.core = s.core) : K.Sound t := by
  have ok : K.Sound s.core := ⟨sound.store, sound.heap, sound.free, sound.base, sound.global, sound.records,
    sound.methods, sound.tables, sound.caches, sound.honest⟩
  rw [← same] at ok
  exact ⟨ok.store, ok.heap, ok.free, ok.base, ok.global, ok.records, ok.methods, ok.tables, ok.caches,
    ok.honest⟩

theorem bind (env : EnvId) (name : Name) {v : Value} (ok : (K.scope s).Covers v) :
    K.Sound { s with heap := s.heap.bind env name v } ∧
      s.Extends { s with heap := s.heap.bind env name v } := by
  have extend : s.Extends { s with heap := s.heap.bind env name v } :=
    ⟨rfl, fun _ alive => Heap.contains_bind name v alive⟩
  have wider := scope_within (K := K) extend
  exact ⟨sound.withHeap extend ((sound.heap.mono wider).bind env name (ok.mono wider)) fun live =>
    Heap.free_bind (sound.free live) env name v, extend⟩

theorem cache (node : NodeId) : (s.site node).cache.All (K.scope s).Covers := by
  unfold Session.site
  cases found : s.sites.get? node with
  | none => exact ⟨nofun, nofun⟩
  | some site => exact sound.caches site (Table.mem_values_of_get? found)

theorem setSite {f : CallSite → CallSite} (node : NodeId)
    (all : (f (s.site node)).cache.All (K.scope s).Covers) : K.Sound (s.setSite node f) := by
  refine { sound with caches := fun site member => ?_ }
  rcases Table.mem_values_insert member with rfl | old
  · exact all
  · exact sound.caches site old

/-- A session with a new frame, which is there. -/
theorem alloc {parent : EnvId} (alive : (K.scope s).frame parent) (label : Option Name) :
    K.Sound { s with heap := (s.heap.alloc (some parent) label).2 } ∧
      s.Extends { s with heap := (s.heap.alloc (some parent) label).2 } ∧
      (K.live → (s.heap.alloc (some parent) label).2.contains (s.heap.alloc (some parent) label).1 = true) := by
  have extend : s.Extends { s with heap := (s.heap.alloc (some parent) label).2 } :=
    ⟨rfl, fun _ alive => Heap.contains_alloc alive⟩
  have wider := scope_within (K := K) extend
  refine ⟨sound.withHeap extend ((sound.heap.mono wider).alloc (fun p same => ?_) label) fun live =>
    Heap.free_alloc (sound.free live) _ label, extend, fun live => Heap.contains_new (sound.free live) _ label⟩
  cases same
  exact wider (.frame parent) alive

end Sound
end Inquiry
end CallByNeed
