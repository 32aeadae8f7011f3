import CallByNeed.Proofs.Signal
import CallByNeed.Proofs.TrackingSteps

/-!
The invariants of the evaluator hold while programs run. From the start of a session, as long as nothing
is collected and no builtin of the host is there, every frame and builtin that code and values refer to is
there, promises are evaluated in order, calls get functions and builtins of the right kind, vectors are
converted before they are written, and what is written to in place is not shared. Two checks may fail: a
vector that is stored into itself gets an owner while it is written to, and a replacement function may be a
special builtin. An evaluation in which one of them fails has come to such a call.
-/
namespace CallByNeed

/-- What is there in a session. -/
def Session.Holds (s : Session) : Reference → Prop
  | .frame env => s.heap.contains env = true
  | .builtin id => id < s.builtins.functions.size

namespace Inquiry

/-- Everything has to be there. -/
def integrity (refusing : Prop) (settable : Builtin → Prop) : Inquiry where
  live := True
  steady := False
  followed := .exhausted
  fatal := rfl
  refusing
  settable

variable {s t : Session} {refusing : Prop} {settable : Builtin → Prop}

theorem has_of_holds {r : Reference} (holds : s.Holds r) : ((integrity refusing settable).scope s).Has r := by
  cases r with
  | frame env => exact fun _ => holds
  | builtin id => exact fun _ => holds

theorem spans_of_holds {e : Expr} (holds : ∀ r ∈ e.references, s.Holds r) : ((integrity refusing settable).scope s).Spans e :=
  fun r member => has_of_holds (holds r member)

/-! The start of a session. -/

theorem within_bindBuiltins {S : Scope} {bindings : List (Name × Nat)} {h : Heap} (within : h.Within S)
    (known : ∀ name id, (name, id) ∈ bindings → S.builtin id) :
    (Session.bindBuiltins bindings h).Within S := by
  unfold Session.bindBuiltins
  induction bindings generalizing h with
  | nil => exact within
  | cons entry rest ih =>
    obtain ⟨name, id⟩ := entry
    refine ih ?_ fun other number member => known other number (List.mem_cons_of_mem _ member)
    dsimp only
    unfold Heap.define
    cases h.frame Session.base with
    | error f => exact within
    | ok frame =>
      exact within.bind Session.base name (Scope.covers_builtin.mpr (known name id List.mem_cons_self))

variable (options : Options)

theorem base_start : (Session.start options).heap.contains Session.base = true := by
  change (Session.start {}).heap.contains Session.base = true
  decide +kernel

theorem global_start : (Session.start options).heap.contains Session.global = true := by
  change (Session.start {}).heap.contains Session.global = true
  decide +kernel

theorem within_start {S : Scope} (base : S.frame Session.base)
    (known : ∀ id < Registry.standard.functions.size, S.builtin id) :
    (Session.start options).heap.Within S := by
  have empty : ({} : Heap).Within S := fun _ member => absurd member (Array.not_mem_empty _)
  unfold Session.start
  generalize ImplicitClasses.make {} = made
  obtain ⟨implicit, store⟩ := made
  dsimp only
  refine within_bindBuiltins ((empty.alloc (fun p same => ?_) _).alloc (fun p same => ?_) _)
    fun name id member => known id ?_
  · cases same
  · cases same
    exact base
  · obtain ⟨⟨b, number⟩, there, same⟩ := List.mem_map.mp member
    cases same
    have inside := (List.getElem?_eq_some_iff.mp (List.mem_zipIdx_iff_getElem?.mp there)).1
    rwa [Array.length_toList] at inside

/-- No standard builtin fails by itself. -/
theorem standard_honest {b : Builtin} (member : b ∈ Registry.standard.functions) (f : Failure) :
    ¬b.Raises f := by
  have none : ∀ b ∈ Registry.standard.functions, b.operation.failure? = none := by decide +kernel
  rw [Builtin.raises_iff, none b member]
  exact nofun

theorem sound_start : (integrity refusing settable).Sound (Session.start options) where
  store := by
    have empty : ∀ c ∈ (ImplicitClasses.make {}).2.vectors, c.held.isEmpty = true := by decide
    refine ⟨fun c member => ?_, ?_, ?_⟩
    · rw [List.isEmpty_iff.mp (empty c member)]
      exact Scope.coversAll_nil
    · exact fun _ member => absurd member (Array.not_mem_empty _)
    · exact fun _ member => absurd member (Array.not_mem_empty _)
  heap := within_start options (fun _ => base_start options) fun _ inside _ => inside
  free _ := (Session.idle_start options).free
  base _ := base_start options
  global _ := global_start options
  records := List.forall_mem_nil _
  methods := List.forall_mem_nil _
  tables _ member := absurd member (Array.not_mem_empty _)
  caches := List.forall_mem_nil _
  honest b member f raises := absurd raises (standard_honest member f)

theorem Sound.reportFailure (sound : (integrity refusing settable).Sound s) (f : Failure) :
    (integrity refusing settable).Sound (s.reportFailure f) := by
  cases f with
  | condition c => exact sound.same rfl
  | _ => exact sound

/-- The evaluation of code over what is there leaves everything there, and a failure is excused. -/
theorem Sound.evalWith {g : Guard} (guards : (integrity refusing settable).Guards g)
    (sound : (integrity refusing settable).Sound s) {e : Expr} {env : EnvId}
    (holds : ∀ r ∈ e.references, s.Holds r) (alive : s.heap.contains env = true) :
    (integrity refusing settable).Sound (Session.evalWith (g.eval nestingLimit) e env s).2 ∧
      s.Extends (Session.evalWith (g.eval nestingLimit) e env s).2 ∧
        ∀ message, (Session.evalWith (g.eval nestingLimit) e env s).1 = .error (.internal message) →
          (integrity refusing settable).Excuses s.builtins message := by
  have whole : (integrity refusing settable).Tracks s Scope.Covers fun _ =>
      underRecord none none .topLevel (g.eval nestingLimit e env) :=
    .underRecord (fun _ _ => ⟨nofun, nofun, nofun, nofun, nofun⟩) fun t top late =>
      evaluates_guarded guards nestingLimit t e env top ((spans_of_holds holds).mono (scope_within late))
        fun _ => late.frames env alive
  obtain ⟨r, t, runs, passes, _⟩ := whole.lands sound
  have run : underRecord none none .topLevel (g.eval nestingLimit e env) s = (r, t) := runs none fun _ => rfl
  have onward := passes.onward
  unfold Session.evalWith atTopLevel
  rw [run]
  rcases r with (f | ⟨target, v⟩) | v
  · refine ⟨passes.sound.reportFailure f, ?_, fun message same => ?_⟩
    · cases f <;> exact ⟨onward.builtins, onward.frames⟩
    · rw [← onward.builtins]
      exact passes.excused trivial message (congrArg some (Except.error.inj same))
  · have sound := passes.sound.reportFailure (Unwind.toFailure (.leave target v))
    exact ⟨sound, ⟨onward.builtins, onward.frames⟩, fun _ => nofun⟩
  · exact ⟨passes.sound, onward, fun _ => nofun⟩

/-- Where all builtins are standard ones, a session is sound whatever is excused. -/
theorem Sound.tighten (sound : (integrity True fun _ => True).Sound s)
    (standard : s.builtins = Registry.standard) : (integrity refusing settable).Sound s where
  store := sound.store
  heap := sound.heap
  free := sound.free
  base := sound.base
  global := sound.global
  records := sound.records
  methods := sound.methods
  tables := sound.tables
  caches := sound.caches
  honest _ member f raises := absurd raises (standard_honest (standard ▸ member) f)

end Inquiry

namespace Session

/-- The sessions that programs bring about. From the start, code over what is there is loaded and
evaluated. -/
inductive Executed (options : Options) : Session → Prop
  | start : Executed options (start options)
  | load {s : Session} (e : Source) (holds : ∀ r ∈ e.references, s.Holds r) :
    Executed options s → Executed options { s with store := (e.load s.store).2 }
  | evalIn {s : Session} (e : Expr) (env : EnvId) (holds : ∀ r ∈ e.references, s.Holds r)
    (alive : s.heap.contains env = true) :
    Executed options s → Executed options (evalIn e env s).2

variable {options : Options} {s : Session}

theorem Executed.sound (executed : Executed options s) :
    (Inquiry.integrity True fun _ => True).Sound s ∧ s.builtins = Registry.standard := by
  induction executed with
  | start => exact ⟨Inquiry.sound_start options, rfl⟩
  | load e holds _ ih =>
    obtain ⟨sound, standard⟩ := ih
    have kept := (Scope.keeps_load fun r member => Inquiry.has_of_holds (holds r member)) _ sound.store
    exact ⟨sound.withStore kept.1, standard⟩
  | evalIn e env holds alive _ ih =>
    obtain ⟨sound, standard⟩ := ih
    have guards := Inquiry.guards_idle (K := .integrity True fun _ => True) trivial fun _ => trivial
    obtain ⟨after, onward, _⟩ := sound.evalWith guards holds alive
    rw [← evalIn_eq_guarded] at after onward
    exact ⟨after, onward.builtins.trans standard⟩

/-- The messages of internal failures are told apart. -/
theorem message_apart (state name : String) :
    s!"in-place write to a {state} container" ≠ s!"'{name}' is not a strict builtin" := by
  intro same
  have first := congrArg (fun text : String => text.toList.head?) same
  simp [toString, String.toList_append] at first

theorem message_injective {m n : String}
    (same : s!"'{m}' is not a strict builtin" = s!"'{n}' is not a strict builtin") : m = n := by
  have letters := congrArg String.toList same
  simp [String.toList_append] at letters
  exact String.toList_inj.mp letters

/-- An evaluation that does not come to a breakpoint is excused as it is with an alarm there. -/
theorem Executed.excused (executed : Executed options s) (p : Breakpoint) (refusing : Prop)
    (settable : Builtin → Prop) {e : Expr} {env : EnvId} {message : String}
    (holds : ∀ r ∈ e.references, s.Holds r) (alive : s.heap.contains env = true)
    (failed : (Session.evalIn e env s).1 = .error (.internal message))
    (running : refusing ∨ ∀ s op args, Breakpoint.refusedSelfWriting.running s op args → p.running s op args)
    (replacing : ∀ b, p.replacing b ∨ b.isStrict = true ∨ settable b) :
    s.ComesTo p e env ∨ (Inquiry.integrity refusing settable).Excuses Registry.standard message := by
  obtain ⟨sound, standard⟩ := executed.sound
  refine (Classical.em _).imp_right fun missed => ?_
  have silent : evalWith ((p.guard (fail .exhausted)).eval nestingLimit) e env s = Session.evalIn e env s :=
    Classical.not_not.mp fun differs => missed ⟨_, differs⟩
  have guards := Inquiry.guards_breakpoint (K := .integrity refusing settable) .exhausted
    (fun _ => Inquiry.allows_exhausted) running replacing
  obtain ⟨_, _, excused⟩ := (sound.tighten standard).evalWith guards holds alive
  rw [silent, standard] at excused
  exact excused message failed

/-- Where only programs ran, an evaluation ends in an internal failure only as a write in place is refused,
and then it has come to a call that stores a vector into itself and is refused to; or as a special builtin
is called as a strict one, and then it has come to a call of this builtin as a replacement function. -/
theorem Executed.internal_excused (executed : Executed options s) {e : Expr} {env : EnvId}
    (holds : ∀ r ∈ e.references, s.Holds r) (alive : s.heap.contains env = true) {message : String}
    (failed : (Session.evalIn e env s).1 = .error (.internal message)) :
    (s.ComesTo .refusedSelfWriting e env ∧
      ∃ state : Sharing, state.isShared = true ∧ message = s!"in-place write to a {state.name} container") ∨
    ∃ b ∈ Registry.standard.functions, b.isStrict = false ∧ s.ComesTo (.specialSetter b.name) e env ∧
      message = s!"'{b.name}' is not a strict builtin" := by
  have excused := (executed.excused {} True (fun _ => True) holds alive failed
    (.inl trivial) fun _ => .inr (.inr trivial)).resolve_left (s.not_comesTo_empty e env)
  rcases excused with ⟨_, state, shared, refused⟩ | ⟨b, member, special, _, told⟩
  · -- With an alarm where storing a vector into itself is refused no other write would be.
    refine .inl ⟨?_, state, shared, refused⟩
    rcases executed.excused .refusedSelfWriting False (fun _ => True) holds alive failed
      (.inr fun _ _ _ writing => writing) fun _ => .inr (.inr trivial) with
      comes | ⟨impossible, _⟩ | ⟨b, _, _, _, told⟩
    · exact comes
    · exact impossible.elim
    · exact (message_apart _ _ (refused.symm.trans told)).elim
  · -- With an alarm before the calls of this builtin it would be another one.
    refine .inr ⟨b, member, special, ?_, told⟩
    have stopped (other : Builtin) : (Breakpoint.specialSetter b.name).replacing other ∨
        other.isStrict = true ∨ other.name ≠ b.name := by
      by_cases same : other.name = b.name
      · cases strict : other.isStrict with
        | true => exact .inr (.inl rfl)
        | false => exact .inl ⟨strict, same⟩
      · exact .inr (.inr same)
    rcases executed.excused _ True _ holds alive failed (.inl trivial) stopped with
      comes | ⟨_, state, _, refused⟩ | ⟨other, _, _, apart, same⟩
    · exact comes
    · exact (message_apart _ _ (refused.symm.trans told)).elim
    · exact (apart (message_injective (same.symm.trans told))).elim

/-- A list that is made its own class gets a second owner before it is written to. -/
theorem self_class_excused :
    let bind : Expr := .assign ⟨0⟩ (.symbol ⟨1⟩ "x") (.call ⟨2⟩ (.symbol ⟨3⟩ "list") []) false
    let target : Expr := .call ⟨4⟩ (.symbol ⟨5⟩ "class") [⟨none, .symbol ⟨6⟩ "x"⟩]
    let e : Expr := .assign ⟨7⟩ target (.symbol ⟨8⟩ "x") false
    let s := (evalIn bind global (start {})).2
    let message := "in-place write to a Shared container"
    Executed {} s ∧ (∀ r ∈ e.references, s.Holds r) ∧ s.heap.contains global = true ∧
      (evalIn e global s).1 = .error (.internal message) ∧
      ((s.ComesTo .refusedSelfWriting e global ∧
        ∃ state : Sharing, state.isShared = true ∧ message = s!"in-place write to a {state.name} container") ∨
      ∃ b ∈ Registry.standard.functions, b.isStrict = false ∧ s.ComesTo (.specialSetter b.name) e global ∧
        message = s!"'{b.name}' is not a strict builtin") := by
  intro bind target e s message
  have bound : ∀ r ∈ bind.references, (start {}).Holds r := by
    simp [bind, Expr.references, Arg.allReferences]
  have holds : ∀ r ∈ e.references, s.Holds r := by
    simp [e, target, Expr.references, Arg.allReferences]
  have executed : Executed {} s := .evalIn bind global bound (Inquiry.global_start {}) .start
  have alive : s.heap.contains global = true := by decide +kernel
  have failed : (evalIn e global s).1 = .error (.internal message) := by
    have told : (evalIn e global s).1.map (fun _ => ()) = .error (.internal message) := by decide +kernel
    generalize (evalIn e global s).1 = outcome at told ⊢
    cases outcome with
    | ok v => cases told
    | error f => exact congrArg Except.error (Except.error.inj told)
  exact ⟨executed, holds, alive, failed, executed.internal_excused holds alive failed⟩

end Session
end CallByNeed
