import CallByNeed.Proofs.EarlyArguments
import CallByNeed.Proofs.Promises
import CallByNeed.Proofs.Staleness

/-!
Later sessions. No evaluation frees a frame, or undoes what a promise has come to; options, builtins and the
classes of values without a class attribute stay what they are.
-/
namespace CallByNeed

variable {α β : Type}

namespace Heap

variable {h k l : Heap} {id : EnvId}

/-- Every frame is there still, the same or with a higher version. -/
structure Lasts (h k : Heap) : Prop where
  size : h.slots.size ≤ k.slots.size
  frames : ∀ id f, h.frame? id = some f → ∃ g, k.frame? id = some g ∧ (g = f ∨ f.version < g.version)

theorem Lasts.ages (lasts : h.Lasts k) : h.Ages k where
  size := lasts.size
  frames id f g before after := by
    obtain ⟨g', there, newer⟩ := lasts.frames id f before
    cases there.symm.trans after
    exact newer

theorem Lasts.refl (h : Heap) : h.Lasts h := ⟨Nat.le_refl _, fun _ f found => ⟨f, found, .inl rfl⟩⟩

theorem Lasts.trans (first : h.Lasts k) (second : k.Lasts l) : h.Lasts l where
  size := Nat.le_trans first.size second.size
  frames id f found := by
    obtain ⟨g, between, newer⟩ := first.frames id f found
    obtain ⟨e, last, newest⟩ := second.frames id g between
    refine ⟨e, last, ?_⟩
    rcases newer with rfl | newer
    · exact newest
    · rcases newest with rfl | newest
      · exact .inr newer
      · exact .inr (Nat.lt_trans newer newest)

theorem Lasts.alloc (tidy : h.Tidy) (parent : Option EnvId) (label : Option Name) :
    h.Lasts (h.alloc parent label).2 :=
  ⟨size_alloc parent label h, fun _ f found => ⟨f, frame?_alloc tidy.vacant parent label found, .inl rfl⟩⟩

theorem Lasts.bind (alive : h.contains id) (name : Name) (v : Value) : h.Lasts (h.bind id name v) where
  size := (ages_bind alive name v).size
  frames e f found := by
    obtain ⟨g, there⟩ : ∃ g, (h.bind id name v).frame? e = some g := by
      obtain ⟨old, here⟩ := contains_iff_exists.mp alive
      rw [frame_bind here]
      split
      · exact ⟨_, rfl⟩
      · exact ⟨f, found⟩
    exact ⟨g, there, (ages_bind alive name v).frames e f g found there⟩

end Heap

/-! Later sessions. -/

/-- A session and a later one, no frame having been freed in between. -/
structure Session.Later (s t : Session) : Prop where
  heap : s.heap.Lasts t.heap
  options : t.options = s.options
  builtins : t.builtins = s.builtins
  implicit : t.implicit = s.implicit
  promises : s.store.promises.size ≤ t.store.promises.size
  evaluated : ∀ id v, id.index < s.store.promises.size → (s.store.promise id).state = .evaluated v →
    (t.store.promise id).state = .evaluated v

theorem Session.Later.refl (s : Session) : s.Later s :=
  ⟨.refl _, rfl, rfl, rfl, Nat.le_refl _, fun _ _ _ done => done⟩

theorem Session.Later.trans {s t u : Session} (first : s.Later t) (second : t.Later u) : s.Later u where
  heap := first.heap.trans second.heap
  options := second.options.trans first.options
  builtins := second.builtins.trans first.builtins
  implicit := second.implicit.trans first.implicit
  promises := Nat.le_trans first.promises second.promises
  evaluated id v old done :=
    second.evaluated id v (Nat.lt_of_lt_of_le old first.promises) (first.evaluated id v old done)

/-- However a computation ends, the frames that were alive are. -/
def Lingering (m : EvalM α) : Prop := ∀ s : Session, s.heap.Tidy →
  s.heap.Lasts (m s).2.heap ∧ (m s).2.heap.Tidy ∧ (m s).2.implicit = s.implicit

namespace Lingering

theorem of_same {m : EvalM α} (heap : ∀ s, (m s).2.heap = s.heap)
    (implicit : ∀ s, (m s).2.implicit = s.implicit) : Lingering m := by
  intro s tidy
  rw [heap]
  exact ⟨.refl _, tidy, implicit s⟩

theorem reading {f : Session → EvalM α} (lingering : ∀ s, Lingering (f s)) : Lingering (get >>= f) :=
  fun s => lingering s s

theorem onward {s t u : Session}
    (first : s.heap.Lasts t.heap ∧ t.heap.Tidy ∧ t.implicit = s.implicit)
    (second : t.heap.Lasts u.heap ∧ u.heap.Tidy ∧ u.implicit = t.implicit) :
    s.heap.Lasts u.heap ∧ u.heap.Tidy ∧ u.implicit = s.implicit :=
  ⟨first.1.trans second.1, second.2.1, second.2.2.trans first.2.2⟩

theorem andThen {m : EvalM α} {f : α → EvalM β} (first : Lingering m) (rest : ∀ a, Lingering (f a)) :
    Lingering (m >>= f) := by
  intro s tidy
  exact after_bind (P := fun t => s.heap.Lasts t.heap ∧ t.heap.Tidy ∧ t.implicit = s.implicit) (first s tidy)
    fun a t _ reached => onward reached (rest a t reached.2.1)

theorem defining (env : EnvId) (name : Name) (v : Value) : Lingering (define env name v) := by
  intro s tidy
  rw [define_apply]
  cases found : s.heap.frame? env with
  | none => exact ⟨.refl _, tidy, rfl⟩
  | some f =>
    have alive : s.heap.contains env := Heap.contains_iff_exists.mpr ⟨f, found⟩
    exact ⟨.bind alive name v, tidy.bind alive name v, rfl⟩

theorem assigningOuter (env : EnvId) (name : Name) (v : Value) :
    Lingering (updateHeap fun h => (·.2) <$> h.assignOuter env name v) := by
  intro s tidy
  rw [updateHeap_apply]
  cases assigned : s.heap.assignOuter env name v with
  | error f => exact ⟨.refl _, tidy, rfl⟩
  | ok written =>
    obtain ⟨target, heap⟩ := written
    obtain ⟨alive, rfl⟩ := Heap.alive_of_assignOuter assigned
    exact ⟨.bind alive name v, tidy.bind alive name v, rfl⟩

def rules : Rules where
  Holds := Lingering
  Grounded _ _ := True
  Grows _ _ := True
  evolution := Store.evolution_true
  value _ := of_same (fun _ => rfl) fun _ => rfl
  andThen := andThen
  failure _ := of_same (fun _ => rfl) fun _ => rfl
  leaving _ _ := of_same (fun _ => rfl) fun _ => rfl
  reading _ := reading
  observing first rest _ := fun s tidy => onward (first s tidy) (rest _ _ (first s tidy).2.1)
  storing {_ m} _ := of_same (fun s => by rw [(onStore_session m s).1]) fun s => by rw [(onStore_session m s).1]
  administering clerical := of_same clerical.heap clerical.implicit
  interrupting := of_same (fun _ => rfl) fun _ => rfl
  polling := by
    refine reading fun s => ?_
    split <;> exact of_same (fun _ => rfl) fun _ => rfl
  framing _ := fun _ tidy => ⟨.alloc tidy _ _, tidy.alloc _ _, rfl⟩
  binding := defining
  outerBinding := assigningOuter
  recording _ _ _ _ := of_same (fun _ => rfl) fun _ => rfl
  closing _ _ lingering := lingering
  flagging _ _ := of_same (fun _ => rfl) fun _ => rfl

theorem forcing : rules.Forcing where
  life _ _ _ := trivial
  distrusting _ _ := trivial
  hit := of_same (fun _ => rfl) fun _ => rfl
  fulfilled := of_same (fun _ => rfl) fun _ => rfl
  givenUp := of_same (fun _ => rfl) fun _ => rfl

theorem planning : rules.Planning where
  promising _ _ _ _ _ := trivial
  distrusting _ _ := trivial
  created := of_same (fun _ => rfl) fun _ => rfl
  aborted := of_same (fun _ => rfl) fun _ => rfl
  looking := reading
  simple site args := by
    refine of_same (fun s => ?_) fun s => ?_ <;>
      obtain ⟨_, run | run⟩ := simpleArgs_cases site args s <;> rw [run] <;> rfl
  forced f := by
    refine of_same (fun s => ?_) fun s => ?_ <;>
      obtain ⟨_, run | run⟩ := forcedFormals_cases f s <;> rw [run]

def plain : Law := SearchLaw.law
  { toRules := rules
    force := forcing.holds_force
    missingProbe := forcing.holds_isMissingArgument } fun _ _ => trivial

/-- The law that no frame is freed while something is evaluated. -/
def law : CallLaw where
  toLaw := plain
  arguments h := planning.holds_arguments h
  useMethod h := plain.holds_useMethod h (fun administrative => of_same administrative.heap administrative.implicit)
    fun _ _ => trivial
  nextMethod h := plain.holds_nextMethod h fun _ _ => trivial
  standardGeneric h := plain.holds_standardGeneric h fun administrative =>
    of_same administrative.heap administrative.implicit

end Lingering

/-- Every evaluation leads to a later session. -/
theorem evaluation_later {s : Session} (tidy : s.heap.Tidy) (depth : Nat) (e : Expr) (env : EnvId)
    (caller : RecordId) : s.Later (eval depth e env caller s).2 := by
  obtain ⟨heap, -, implicit⟩ := Lingering.law.evaluates_eval depth e env caller s tidy
  have endures : s.Endures (eval depth e env caller s).2 := Enduring.law.evaluates_eval depth e env caller s
  have kept : Disciplined s.ledger (eval depth e env caller s).2.ledger := keeps_eval depth e env caller s
  exact ⟨heap, endures.options, endures.builtins, implicit, kept.grown, kept.evaluated⟩

end CallByNeed
