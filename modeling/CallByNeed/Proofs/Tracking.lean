import CallByNeed.Proofs.Inquiry

/-!
Tracking a computation. From every sound session that follows a given one it ends in a sound session, with
a result as stated or a failure that may come about; a raised interrupt flag is still raised, unless the
computation was interrupted, and then it is down. A family of computations, one for each alarm, comes to
the same end as the one without an alarm, unless that ends in the failure that is followed. Rules for each
way of putting computations together and for each change of a session.
-/
namespace CallByNeed

variable {α β : Type}

/-- The failure a computation ends in. -/
def failing : Except Unwind α → Option Failure
  | .error (.failure f) => some f
  | _ => none

/-- A result as stated, or the value that a function is left with. -/
def Scope.Yields (S : Scope) (Q : Scope → α → Prop) : Except Unwind α → Prop
  | .ok a => Q S a
  | .error (.leave _ v) => S.Covers v
  | .error (.failure _) => True

namespace Inquiry

variable (K : Inquiry)

/-- What holds between the beginning of a computation and its end, which may be a failure. -/
structure Passes (s : Session) (f : Option Failure) (t : Session) : Prop where
  sound : K.Sound t
  onward : s.Extends t
  excused : K.live → ∀ message, f = some (.internal message) → K.Excuses t.builtins message
  lowered : K.steady → f = some .interrupted → t.interrupt = false
  raised : s.interrupt = true → t.interrupt = true ∨ f = some .interrupted

/-- From a session the computations of a family end as stated, and end alike, but for those with an alarm
where the failure that is followed comes out. -/
abbrev Lands (s : Session) (Q : Scope → α → Prop) (m : Option (EvalM Unit) → EvalM α) : Prop :=
  ∃ r t, (∀ alarm, (failing r = some K.followed → alarm = none) → m alarm s = (r, t)) ∧
    K.Passes s (failing r) t ∧ (K.scope t).Yields Q r

/-- The same from every sound session that follows a given one. -/
def Tracks (w : Session) (Q : Scope → α → Prop) (m : Option (EvalM Unit) → EvalM α) : Prop :=
  ∀ s, K.Sound s → w.Extends s → K.Lands s Q m

/-- Nothing is said about a result. -/
abbrev Any (_ : Scope) (_ : α) : Prop := True

variable {K} {w s t u : Session} {Q : Scope → α → Prop} {R : Scope → β → Prop} {f : Failure}

namespace Passes

theorem still (sound : K.Sound s) {f : Option Failure}
    (allows : ∀ g, f = some g → K.Allows s.builtins g) : K.Passes s f s where
  sound
  onward := .refl s
  excused live message same := (allows _ same).excused live message rfl
  lowered steady same := ((allows _ same).calm steady rfl).elim
  raised flag := .inl flag

/-- A change that does not fail. -/
theorem quiet (sound : K.Sound t) (onward : s.Extends t)
    (flag : s.interrupt = true → t.interrupt = true) : K.Passes s none t :=
  ⟨sound, onward, fun _ _ => nofun, fun _ => nofun, fun up => .inl (flag up)⟩

theorem trans {f g : Option Failure} (first : K.Passes s f t) (calm : f ≠ some .interrupted)
    (second : K.Passes t g u) : K.Passes s g u where
  sound := second.sound
  onward := first.onward.trans second.onward
  excused := second.excused
  lowered := second.lowered
  raised flag := second.raised ((first.raised flag).resolve_right calm)

/-- A failure goes on its way through a change that leaves the interrupt flag alone. -/
theorem onwards {f : Option Failure} (first : K.Passes s f t) (sound : K.Sound u) (onward : t.Extends u)
    (flag : u.interrupt = t.interrupt) : K.Passes s f u where
  sound
  onward := first.onward.trans onward
  excused live message same := onward.builtins ▸ first.excused live message same
  lowered steady same := flag.trans (first.lowered steady same)
  raised up := by
    rw [flag]
    exact first.raised up

end Passes

namespace Lands

theorem reading {f : Option (EvalM Unit) → Session → EvalM α} (rest : K.Lands s Q fun alarm => f alarm s) :
    K.Lands s Q fun alarm => get >>= f alarm := rest

theorem putting (sound : K.Sound t) (onward : s.Extends t)
    (flag : s.interrupt = true → t.interrupt = true) :
    K.Lands s Any fun _ => (set t : EvalM Unit) :=
  ⟨.ok (), t, fun _ _ => rfl, .quiet sound onward flag, trivial⟩

/-- What follows starts with the result and the session that the first part ends in. -/
theorem andThen {m : Option (EvalM Unit) → EvalM α} {f : Option (EvalM Unit) → α → EvalM β}
    (first : K.Lands s Q m) (rest : ∀ t a, (∀ alarm, m alarm s = (.ok a, t)) → K.Passes s none t →
      Q (K.scope t) a → K.Lands t R fun alarm => f alarm a) :
    K.Lands s R fun alarm => m alarm >>= f alarm := by
  obtain ⟨r, t, runs, passes, yields⟩ := first
  rcases r with (g | ⟨env, v⟩) | a
  · refine ⟨.error (.failure g), t, fun alarm quiet => ?_, passes, yields⟩
    change (m alarm >>= f alarm) s = _
    rw [bind_apply, runs alarm quiet]
  · refine ⟨.error (.leave env v), t, fun alarm quiet => ?_, passes, yields⟩
    change (m alarm >>= f alarm) s = _
    rw [bind_apply, runs alarm quiet]
  · have run (alarm : Option (EvalM Unit)) : m alarm s = (.ok a, t) := runs alarm nofun
    obtain ⟨r', t', runs', passes', yields'⟩ := rest t a run passes yields
    refine ⟨r', t', fun alarm quiet => ?_, passes.trans nofun passes', yields'⟩
    change (m alarm >>= f alarm) s = _
    rw [bind_apply, run]
    exact runs' alarm quiet

/-- A handler of outcomes has to pass a fatal failure on, with the interrupt flag as it is. -/
theorem observing {m : Option (EvalM Unit) → EvalM α} {k : Except Unwind α → EvalM β}
    (first : K.Lands s Q m)
    (rest : ∀ t r, K.Sound t → s.Extends t → (K.scope t).Yields Q r →
      (∀ f, failing r = some f → f.isFatal = false) → K.Lands t R fun _ => k r)
    (passes : ∀ f t, f.isFatal = true → K.Sound t → s.Extends t → ∃ u,
      k (.error (.failure f)) t = (.error (.failure f), u) ∧ K.Sound u ∧ t.Extends u ∧
        u.interrupt = t.interrupt) :
    K.Lands s R fun alarm => observe (m alarm) >>= k := by
  obtain ⟨r, t, runs, ends, yields⟩ := first
  by_cases mild : ∀ f, failing r = some f → f.isFatal = false
  · have calm : failing r ≠ some .interrupted := fun same => nomatch mild _ same
    obtain ⟨r', t', runs', ends', yields'⟩ := rest t r ends.sound ends.onward yields mild
    refine ⟨r', t', fun alarm quiet => ?_, ends.trans calm ends', yields'⟩
    change (observe (m alarm) >>= k) s = _
    rw [observe_bind, runs alarm fun same => absurd (mild _ same) (by simp [K.fatal])]
    exact runs' alarm quiet
  · push Not at mild
    obtain ⟨f, same, grave⟩ := mild
    rcases r with (g | ⟨env, v⟩) | a
    · cases same
      obtain ⟨u, kept, sound', onward', flag⟩ := passes f t (by simpa using grave) ends.sound ends.onward
      refine ⟨.error (.failure f), u, fun alarm quiet => ?_, ends.onwards sound' onward' flag, trivial⟩
      change (observe (m alarm) >>= k) s = _
      rw [observe_bind, runs alarm quiet]
      exact kept
    · cases same
    · cases same

/-- Work on the objects of a session. -/
theorem storing {Q : Scope → α → Prop} {m : StoreM α} (sound : K.Sound s)
    (within : (m s.store).2.Within (K.scope s))
    (ends : Scope.Ends K.refusing (Q (K.scope s)) (m s.store).1) : K.Lands s Q fun _ => onStore m := by
  rcases run : m s.store with ⟨f | a, store⟩
  · rw [run] at within ends
    have applied : onStore m s = (.error (.failure f), { s with store }) := by rw [onStore_apply, run]
    have passes : K.Passes s (some f) { s with store } := by
      refine (Passes.still sound fun g same => ?_).onwards (sound.withStore within) (.same rfl rfl) rfl
      cases same
      exact allows_of_tame ends
    exact ⟨.error (.failure f), { s with store }, fun _ _ => applied, passes, trivial⟩
  · rw [run] at within ends
    have applied : onStore m s = (.ok a, { s with store }) := by rw [onStore_apply, run]
    exact ⟨.ok a, { s with store }, fun _ _ => applied,
      .quiet (sound.withStore within) (.same rfl rfl) fun up => up, ends⟩

theorem releasing {m : Option (EvalM Unit) → EvalM α} (id : RecordId) (lands : K.Lands s Q m) :
    K.Lands s Q fun alarm => releasing id (m alarm) := by
  obtain ⟨r, t, runs, passes, yields⟩ := lands
  refine ⟨r, { t with records := t.records.release id }, fun alarm quiet => ?_, ?_, yields⟩
  · unfold CallByNeed.releasing
    dsimp only
    rw [runs alarm quiet]
  · refine passes.onwards { passes.sound with records := fun r member => ?_ } (.same rfl rfl) rfl
    exact passes.sound.records r (List.mem_of_mem_eraseP member)

end Lands

namespace Tracks

theorem later {m : Option (EvalM Unit) → EvalM α} (tracks : K.Tracks w Q m) (extend : w.Extends s) :
    K.Tracks s Q m := fun t sound onward => tracks t sound (extend.trans onward)

/-- A computation that leaves the session as it is. -/
theorem still {m : Option (EvalM Unit) → EvalM α} (runs : ∀ s, K.Sound s → w.Extends s →
    ∃ r, (∀ alarm, m alarm s = (r, s)) ∧ (∀ f, failing r = some f → K.Allows s.builtins f) ∧
      (K.scope s).Yields Q r) : K.Tracks w Q m := by
  intro s sound extend
  obtain ⟨r, same, allows, yields⟩ := runs s sound extend
  exact ⟨r, s, fun alarm _ => same alarm, .still sound allows, yields⟩

theorem value {a : α} (ok : ∀ S, (K.scope w).Within S → Q S a) : K.Tracks w Q fun _ => pure a :=
  still fun _ _ extend => ⟨.ok a, fun _ => rfl, nofun, ok _ (scope_within extend)⟩

theorem permitted (allows : K.Allows w.builtins f) : K.Tracks w Q fun _ => (fail f : EvalM α) := by
  refine still fun s _ extend => ⟨.error (.failure f), fun _ => rfl, fun g same => ?_, trivial⟩
  cases same
  exact extend.builtins ▸ allows

theorem failure (mild : f.isFatal = false) : K.Tracks w Q fun _ => (fail f : EvalM α) :=
  permitted (allows_of_mild mild)

theorem leaving {env : EnvId} {v : Value} (ok : (K.scope w).Covers v) :
    K.Tracks w Q fun _ => (throw (.leave env v) : EvalM α) :=
  still fun _ _ extend => ⟨.error (.leave env v), fun _ => rfl, nofun, ok.mono (scope_within extend)⟩

theorem lands {m : Option (EvalM Unit) → EvalM α} (tracks : K.Tracks s Q m) (sound : K.Sound s) :
    K.Lands s Q m := tracks s sound (.refl s)

theorem reading {f : Option (EvalM Unit) → Session → EvalM α}
    (rest : ∀ s, K.Sound s → w.Extends s → K.Tracks s Q fun alarm => f alarm s) :
    K.Tracks w Q fun alarm => get >>= f alarm :=
  fun s sound extend => (rest s sound extend).lands sound

theorem andThen {m : Option (EvalM Unit) → EvalM α} {f : Option (EvalM Unit) → α → EvalM β}
    (first : K.Tracks w Q m) (rest : ∀ t a, w.Extends t → Q (K.scope t) a →
      K.Tracks t R fun alarm => f alarm a) : K.Tracks w R fun alarm => m alarm >>= f alarm :=
  fun s sound extend => (first s sound extend).andThen fun t a _ passes ok =>
    (rest t a (extend.trans passes.onward) ok).lands passes.sound

theorem observing {m : Option (EvalM Unit) → EvalM α} {k : Except Unwind α → EvalM β}
    (first : K.Tracks w Q m)
    (rest : ∀ t r, w.Extends t → (K.scope t).Yields Q r →
      (∀ f, failing r = some f → f.isFatal = false) → K.Tracks t R fun _ => k r)
    (passes : ∀ f t, f.isFatal = true → K.Sound t → w.Extends t → ∃ u,
      k (.error (.failure f)) t = (.error (.failure f), u) ∧ K.Sound u ∧ t.Extends u ∧
        u.interrupt = t.interrupt) :
    K.Tracks w R fun alarm => observe (m alarm) >>= k :=
  fun s sound extend => (first s sound extend).observing
    (fun t r sound onward yields mild => (rest t r (extend.trans onward) yields mild).lands sound)
    fun f t fatal sound onward => passes f t fatal sound (extend.trans onward)

theorem map {m : Option (EvalM Unit) → EvalM α} {f : α → β} (tracks : K.Tracks w Q m)
    (ok : ∀ S a, Q S a → R S (f a)) : K.Tracks w R fun alarm => f <$> m alarm := by
  intro s sound extend
  obtain ⟨r, t, runs, passes, yields⟩ := tracks s sound extend
  have run (alarm : Option (EvalM Unit)) (quiet : failing r = some K.followed → alarm = none) :
      (f <$> m alarm) s = (f <$> r, t) := by
    rw [map_eq_pure_bind, bind_apply, runs alarm quiet]
    rcases r with u | a <;> rfl
  rcases r with (g | ⟨env, v⟩) | a
  · exact ⟨.error (.failure g), t, run, passes, yields⟩
  · exact ⟨.error (.leave env v), t, run, passes, yields⟩
  · exact ⟨.ok (f a), t, run, passes, ok _ a yields⟩

theorem branch {c : Prop} [Decidable c] {m m' : Option (EvalM Unit) → EvalM α}
    (yes : c → K.Tracks w Q m) (no : ¬c → K.Tracks w Q m') :
    K.Tracks w Q fun alarm => if c then m alarm else m' alarm := by
  by_cases holds : c
  · simpa only [if_pos holds] using yes holds
  · simpa only [if_neg holds] using no holds

theorem failIf {c : Bool} (mild : f.isFatal = false) :
    K.Tracks w (fun _ _ => c = false) fun _ => failIf c f := by
  cases c with
  | true => exact failure mild
  | false => exact value fun _ _ => rfl

theorem failAt {c : RecordId} (mild : f.isFatal = false) :
    K.Tracks w Q fun _ => (failAt c f : EvalM α) := by
  refine reading fun s _ _ => failure ?_
  cases f with
  | condition c => rfl
  | _ => exact mild

theorem lifting {Q : α → Prop} {r : Except Failure α} (fine : Scope.Fine Q r) :
    K.Tracks w (fun _ => Q) fun _ => liftExcept r := by
  cases r with
  | ok a => exact value fun _ _ => fine
  | error f => exact failure fine

theorem readingHeap {f : Heap → Except Failure α}
    (found : ∀ s, K.Sound s → w.Extends s → K.Found (Q (K.scope s)) (f s.heap)) :
    K.Tracks w Q fun _ => readHeap f := by
  refine still fun s sound extend => ?_
  have ends := found s sound extend
  rw [readHeap_apply]
  cases read : f s.heap with
  | ok a =>
    rw [read] at ends
    exact ⟨.ok a, fun _ => rfl, nofun, ends⟩
  | error g =>
    rw [read] at ends
    obtain ⟨dead, env, rfl⟩ := ends
    refine ⟨.error (.failure _), fun _ => rfl, fun h same => ?_, trivial⟩
    cases same
    exact ⟨fun _ => nofun, fun live => absurd live dead⟩

/-- A change of the session that gives a result. -/
theorem altering {g : Session → α × Session} (keeps : ∀ s, K.Sound s → w.Extends s →
    K.Sound (g s).2 ∧ s.Extends (g s).2 ∧ Q (K.scope (g s).2) (g s).1)
    (flag : ∀ s, s.interrupt = true → (g s).2.interrupt = true) :
    K.Tracks w Q fun _ => (modifyGet g : EvalM α) := by
  intro s sound extend
  obtain ⟨sound', onward, ok⟩ := keeps s sound extend
  exact ⟨.ok (g s).1, (g s).2, fun _ _ => rfl,
    .quiet sound' onward (flag s), ok⟩

theorem updating {f : Session → Session} (keeps : ∀ s, K.Sound s → w.Extends s →
    K.Sound (f s) ∧ s.Extends (f s))
    (flag : ∀ s, s.interrupt = true → (f s).interrupt = true) :
    K.Tracks w Any fun _ => modify f :=
  altering (fun s sound extend => ⟨(keeps s sound extend).1, (keeps s sound extend).2, trivial⟩) flag

/-- A change of what a session reports and counts. -/
theorem noting {f : Session → Session}
    (same : ∀ s, (f s).core = s.core ∧ (f s).interrupt = s.interrupt) : K.Tracks w Any fun _ => modify f :=
  updating (fun s sound _ => ⟨sound.same (same s).1,
    .same (congrArg (·.heap) (same s).1) (congrArg (·.builtins) (same s).1)⟩) fun s up => (same s).2.trans up

/-! Objects. -/

theorem storing {Q : Scope → α → Prop} {m : StoreM α}
    (keeps : ∀ S, (K.scope w).Within S → S.Keeps (Q S) m) : K.Tracks w Q fun _ => onStore m :=
  fun s sound extend =>
    have ⟨within, fine⟩ := keeps _ (scope_within extend) s.store sound.store
    .storing sound within fine.ends

theorem allocating {m : Alloc α} (makes : ∀ S, (K.scope w).Within S → S.Makes (Q S) m) :
    K.Tracks w Q fun _ => allocate m := storing fun S wider => Scope.keeps_lift (makes S wider)

theorem modifying {f : Store → Store} (makes : ∀ S, (K.scope w).Within S → ∀ s : Store,
    s.Within S → (f s).Within S) : K.Tracks w Any fun _ => modifyStore f :=
  storing fun S wider => Scope.keeps_lift (Scope.makes_modify (makes S wider))

theorem vector {xs : Elements} (atomic : xs.children = []) :
    K.Tracks w Scope.Covers fun _ => allocate (Store.vector xs) := by
  refine allocating fun S _ => Scope.makes_vector ?_
  rw [atomic]
  exact Scope.coversAll_nil

theorem promising {p : Promise} (ok : (K.scope w).AllowsPromise p) :
    K.Tracks w Scope.Covers fun _ => allocate (.promise <$> Store.addPromise p) :=
  allocating fun _ wider s within =>
    ⟨within.addPromise (ok.mono wider), Scope.covers_promise ⟨s.promises.size⟩⟩

theorem lazyPromise {e : Expr} {env : EnvId} (origin : Origin) (c : RecordId) (spans : (K.scope w).Spans e)
    (alive : (K.scope w).frame env) :
    K.Tracks w Scope.Covers fun _ => allocate (Store.lazyPromise e env origin c) :=
  promising ⟨spans, fun _ same => Option.some.inj same ▸ alive, nofun, nofun⟩

theorem evaluatedPromise {e : Expr} {v : Value} (origin : Origin) (spans : (K.scope w).Spans e)
    (constant : e.constant? = some v) :
    K.Tracks w Scope.Covers fun _ => allocate (Store.evaluatedPromise e v origin) :=
  promising ⟨spans, nofun, fun _ same => Option.some.inj same ▸ spans.ofConstant constant, nofun⟩

theorem sharing (v : Value) : K.Tracks w Any fun _ => modifyStore (·.share v) :=
  modifying fun _ _ _ within => within.setSharing _ v

/-! Frames. -/

theorem framing {parent : EnvId} (alive : (K.scope w).frame parent) :
    K.Tracks w Scope.frame fun _ => allocFrame parent := by
  refine altering (g := fun s => ((s.heap.alloc (some parent) none).1,
    { s with heap := (s.heap.alloc (some parent) none).2 })) (fun s sound extend => ?_) fun _ up => up
  exact sound.alloc (scope_within extend (.frame parent) alive) none

theorem defining {env : EnvId} {v : Value} (alive : (K.scope w).frame env) (name : Name)
    (ok : (K.scope w).Covers v) : K.Tracks w Any fun _ => define env name v := by
  refine andThen (Q := Any) (map (readingHeap (Q := fun _ _ => True) fun s _ extend => ?_)
    fun _ _ _ => trivial) fun t _ extend _ => updating (fun s sound onward => ?_) fun _ up => up
  · exact (found_frame (scope_within extend (.frame env) alive)).weaken fun _ _ => trivial
  · exact sound.bind env name (ok.mono (scope_within (extend.trans onward)))

theorem rebinding {env : EnvId} {v : Value} (alive : (K.scope w).frame env) (name : Name)
    (ok : (K.scope w).Covers v) :
    K.Tracks w Any fun _ => updateHeap fun h => (·.2) <$> h.assignOuter env name v := by
  intro s sound extend
  have wider := scope_within (K := K) extend
  have found := sound.found_assignOuter (wider (.frame env) alive) name v
  cases outer : s.heap.assignOuter env name v with
  | error g =>
    rw [outer] at found
    obtain ⟨dead, gone, rfl⟩ := found
    refine ⟨.error (.failure (Heap.collected gone)), s, fun _ _ => ?_, .still sound fun h same => ?_, trivial⟩
    · change updateHeap _ s = _
      rw [updateHeap_apply, outer]
      rfl
    · cases same
      exact ⟨fun _ => nofun, fun live => absurd live dead⟩
  | ok r =>
    rw [outer] at found
    obtain ⟨target, same⟩ := found
    obtain ⟨sound', onward⟩ := sound.bind target name (ok.mono wider)
    refine ⟨.ok (), _, fun _ _ => ?_, .quiet sound' onward fun up => up, trivial⟩
    change updateHeap _ s = _
    rw [updateHeap_apply, outer, ← same]
    rfl

/-! Records. -/

theorem recording {parent : Option RecordId} {call : Option Expr} {kind : RecordKind}
    (ok : ∀ id depth, (K.scope w).AllowsRecord ⟨id, parent, call, depth, kind, false⟩) :
    K.Tracks w Any fun _ => pushRecord parent call kind := by
  refine altering (g := fun s => ((s.records.push parent call kind).1,
    { s with records := (s.records.push parent call kind).2 })) (fun s sound extend => ?_) fun _ up => up
  have wider := scope_within (K := K) extend
  refine ⟨{ sound with records := fun r member => ?_ }, .same rfl rfl, trivial⟩
  rcases List.mem_cons.mp member with rfl | old
  · exact (ok _ _).mono wider
  · exact sound.records r old

theorem releasing {m : Option (EvalM Unit) → EvalM α} (id : RecordId) (tracks : K.Tracks w Q m) :
    K.Tracks w Q fun alarm => releasing id (m alarm) :=
  fun s sound extend => .releasing id (tracks s sound extend)

theorem underRecord {parent : Option RecordId} {call : Option Expr} {kind : RecordKind}
    {m : Option (EvalM Unit) → RecordId → EvalM α}
    (ok : ∀ id depth, (K.scope w).AllowsRecord ⟨id, parent, call, depth, kind, false⟩)
    (tracks : ∀ t id, w.Extends t → K.Tracks t Q fun alarm => m alarm id) :
    K.Tracks w Q fun alarm => underRecord parent call kind (m alarm) :=
  andThen (recording ok) fun t id extend _ => releasing id (tracks t id extend)

end Tracks

theorem Sound.flagged (sound : K.Sound s) (c : RecordId) (flag : Bool) :
    K.Sound { s with records := s.records.setEagerOnly c flag } := by
  refine { sound with records := fun r member => ?_ }
  obtain ⟨old, there, rfl⟩ := List.mem_map.mp member
  have ok := sound.records old there
  split
  · exact ⟨ok.call, ok.env, ok.function, ok.supplied, ok.dispatch⟩
  · exact ok

namespace Tracks

theorem flagging (c : RecordId) (flag : Bool) : K.Tracks w Any fun _ => setEagerOnly c flag :=
  updating (fun _ sound _ => ⟨sound.flagged c flag, .same rfl rfl⟩) fun _ up => up

theorem eagerOnly (c : RecordId) : K.Tracks w Any fun _ => eagerOnly c :=
  reading fun _ _ _ => value fun _ _ => trivial

theorem ensureLazy (c : RecordId) : K.Tracks w Any fun _ => ensureLazy c :=
  andThen (eagerOnly c) fun _ eager _ _ => branch (c := eager) (fun _ => failure rfl) fun _ =>
    value fun _ _ => trivial

theorem exprText (e : Expr) : K.Tracks w Any fun _ => exprText e :=
  reading fun _ _ _ => value fun _ _ => trivial

/-- The interrupt flag is taken down together with the failure. -/
theorem polling : K.Tracks w Any fun _ => checkInterrupt := by
  intro s sound extend
  cases flag : s.interrupt with
  | false =>
    have run : checkInterrupt s = (.ok (), s) := by
      unfold checkInterrupt
      rw [get_bind, flag]
      rfl
    exact ⟨.ok (), s, fun _ _ => run, .still sound nofun, trivial⟩
  | true =>
    have run : checkInterrupt s = (.error (.failure .interrupted), { s with interrupt := false }) := by
      unfold checkInterrupt
      rw [get_bind, flag]
      rfl
    refine ⟨.error (.failure .interrupted), { s with interrupt := false }, fun _ _ => run, ?_, trivial⟩
    exact ⟨sound.same rfl, .same rfl rfl, fun _ _ => nofun, fun _ _ => rfl,
      fun _ => .inr rfl⟩

/-- An outcome is taken up again. -/
theorem resuming {r : Except Unwind α} (yields : (K.scope w).Yields Q r)
    (mild : ∀ f, failing r = some f → f.isFatal = false)
    (mono : ∀ S T a, S.Within T → Q S a → Q T a) : K.Tracks w Q fun _ => resume r := by
  rcases r with (f | ⟨env, v⟩) | a
  · exact failure (mild f rfl)
  · exact leaving yields
  · exact value fun S wider => mono _ S a wider yields

/-- An unwinding goes on. -/
theorem unwinding {u : Unwind} (yields : (K.scope w).Yields P (.error u))
    (mild : ∀ f, failing (.error u : Except Unwind α) = some f → f.isFatal = false) :
    K.Tracks w Q fun _ => (throw u : EvalM α) := by
  rcases u with f | ⟨env, v⟩
  · exact failure (mild f rfl)
  · exact leaving yields

end Tracks

/-- A failure is attributed to a call, or goes on as it is. -/
theorem Lands.attributing {m : Option (EvalM Unit) → EvalM Value} (call : Expr)
    (lands : K.Lands s Scope.Covers m) :
    K.Lands s Scope.Covers fun alarm => attributeTo call (m alarm) := by
  refine lands.observing (fun t r sound _ yields mild => Tracks.lands ?_ sound) fun f t fatal sound _ => ?_
  · split
    · rename_i f
      have fair := mild f rfl
      split
      · exact .failure fair
      · refine .andThen (.exprText call) fun u text _ _ => .failure ?_
        cases f with
        | condition c => rfl
        | _ => exact fair
    · exact .resuming yields mild fun _ _ _ wider ok => ok.mono wider
  · refine ⟨t, ?_, sound, .refl t, rfl⟩
    cases f with
    | condition _ | cannotOptimize | generic _ => simp [Failure.isFatal] at fatal
    | internal _ | interrupted | exhausted => rfl

theorem Tracks.attributing {m : Option (EvalM Unit) → EvalM Value} (call : Expr)
    (tracks : K.Tracks w Scope.Covers m) :
    K.Tracks w Scope.Covers fun alarm => attributeTo call (m alarm) :=
  fun s sound extend => .attributing call (tracks s sound extend)

end Inquiry
end CallByNeed
