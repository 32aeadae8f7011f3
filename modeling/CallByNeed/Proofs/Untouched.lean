import CallByNeed.Proofs.Effects
import CallByNeed.Proofs.Replacement
import CallByNeed.Proofs.Standing

/-!
What the builtins other than the replacements leave as it was. They make vectors and raise sharing states,
but write into none of the vectors that are there, with one exception: the builtin that gives its first
argument attributes writes them into that very vector while it is not shared.
-/
namespace CallByNeed

/-- Attributes with further ones set in turn. `NULL` removes one, and nothing is set without a name. -/
def Attributes.setAll (attributes : Attributes) (entries : List (Option Name × Value)) : Attributes :=
  entries.foldl (fun attributes entry => match entry.1 with
    | some name =>
      if entry.2.isNull then attributes.erase name else attributes.insert name entry.2
    | none => attributes) attributes

namespace Store

/-- Every vector that is there keeps its data and attributes, other than those written to, and nothing
happens to promises. -/
structure Retains (written : VectorId → Prop) (s t : Store) : Prop where
  spares : ∀ c, ¬ written c → Sparing c s t
  promises : t.promises = s.promises

variable {written : VectorId → Prop}

instance : Owning (Retains written) where
  refl s := ⟨fun _ _ => Chained.refl s, rfl⟩
  trans first second :=
    ⟨fun c apart => Chained.trans (first.spares c apart) (second.spares c apart),
      second.promises.trans first.promises⟩
  addVector k s := ⟨fun _ _ => Owning.addVector k s, rfl⟩
  raise f up v s := ⟨fun _ _ => Owning.raise f up v s, Disciplined.setSharing_promises f v s⟩

theorem Retains.of_same {s t : Store} (vectors : t.vectors = s.vectors)
    (promises : t.promises = s.promises) : Retains written s t := by
  refine ⟨fun c _ there => ?_, promises⟩
  unfold Agrees container
  rw [vectors]
  exact ⟨there, rfl, rfl⟩

theorem Retains.widen {s t : Store} {more : VectorId → Prop} (retains : Retains written s t)
    (wider : ∀ c, written c → more c) : Retains more s t :=
  ⟨fun c apart => retains.spares c fun here => apart (wider c here), retains.promises⟩

theorem retains_writes {id : VectorId} (within : written id) : Writes (Retains written) id := by
  intro f _ s _ _
  refine ⟨fun c apart => sparing_modify (fun same => ?_) f s, rfl⟩
  rw [same] at within
  exact apart within

theorem retains_classless (id : VectorId) : Moves (Retains written) (Builtins.classless id) := by
  intro s
  refine ⟨fun c _ => (Effectless.moves_classless id s).spares c, ?_⟩
  have kept : Moves (Retains fun _ => True) (Builtins.classless id) :=
    moves_seq (moves_lift (moves_duplicate id)) fun _ =>
      moves_seq (moves_setAttribute (retains_writes trivial) _ _) fun _ => moves_ok _
  exact (kept s).promises

/-! Giving a vector attributes. -/

/-- A vector has certain attributes now, and its data and the number of vectors are as they were. -/
structure Attributed (id : VectorId) (attributes : Attributes) (s t : Store) : Prop where
  size : t.vectors.size = s.vectors.size
  elements : t.elements id = s.elements id
  attributes : (t.container id).attributes = attributes

theorem attributed_refl (id : VectorId) (s : Store) :
    Attributed id (s.container id).attributes s s := ⟨rfl, rfl, rfl⟩

theorem attributed_share (id : VectorId) (v : Value) (s : Store) :
    Attributed id (s.container id).attributes s (s.share v) := by
  cases v with
  | vector c =>
    have same : ((s.share (.vector c)).container id).elements = (s.container id).elements ∧
        ((s.share (.vector c)).container id).attributes = (s.container id).attributes := by
      unfold share setSharing
      dsimp only
      rw [container_modify]
      split
      · rename_i found
        rw [found.1]
        exact ⟨rfl, rfl⟩
      · exact ⟨rfl, rfl⟩
    refine ⟨?_, same.1, same.2⟩
    simp [share, setSharing, modifyContainer]
  | _ => exact attributed_refl id s

theorem setAttribute_apply (id : VectorId) (name : Name) (v : Option Value) (s : Store) :
    setAttribute id name v s = if (s.container id).sharing.isShared then
        (.error (.internal s!"in-place write to a {(s.container id).sharing.name} container"), s)
      else (.ok (), s.modifyContainer id fun c => { c with
        attributes := match v.filter (!·.isNull) with
          | some v => c.attributes.insert name v
          | none => c.attributes.erase name }) := by
  unfold setAttribute
  rw [seq_apply, ensureWritable_apply]
  cases (s.container id).sharing.isShared <;> rfl

/-- Setting one attribute sets it or fails. -/
theorem setAttribute_effect {id : VectorId} {s : Store} (there : id.index < s.vectors.size)
    (name : Name) (v : Value) :
    ((setAttribute id name (some v) s).1 = .ok () ∧
      Attributed id ((s.container id).attributes.setAll [(some name, v)]) s
        (setAttribute id name (some v) s).2) ∨
    ((setAttribute id name (some v) s).1 ≠ .ok () ∧
      Attributed id (s.container id).attributes s (setAttribute id name (some v) s).2) := by
  rw [setAttribute_apply]
  cases (s.container id).sharing.isShared with
  | true => exact .inr ⟨nofun, attributed_refl id s⟩
  | false =>
    refine .inl ⟨rfl, ?_, ?_, ?_⟩
    · simp [modifyContainer]
    · simp [elements, container_modify, there]
    · simp only [container_modify, there, Attributes.setAll, Bool.false_eq_true, if_false, and_self,
        if_true, List.foldl_cons, List.foldl_nil]
      cases null : v.isNull <;> simp [Option.filter, null]

theorem replaceAttribute_eq (id : VectorId) (name : Name) (v : Value) (s : Store) :
    ∃ u, (u = s ∨ u = s.share v) ∧
      Builtins.replaceAttribute id name (some v) s = setAttribute id name (some v) u := by
  cases null : v.isNull with
  | true =>
    cases v with
    | null => exact ⟨s, .inl rfl, rfl⟩
    | _ => cases null
  | false =>
    have stored : Builtins.replaceAttribute id name (some v) = Builtins.storeAttribute id name v := by
      simp [Builtins.replaceAttribute, Option.filter, null]
    rw [stored]
    unfold Builtins.storeAttribute
    rw [read_apply]
    dsimp only
    split
    · exact ⟨s, .inl rfl, rfl⟩
    · exact ⟨s.share v, .inr rfl, rfl⟩

theorem Attributed.after {id : VectorId} {a b : Attributes} {s t u : Store}
    (first : Attributed id a s t) (second : Attributed id b t u) : Attributed id b s u :=
  ⟨second.size.trans first.size, second.elements.trans first.elements, second.attributes⟩

theorem replaceAttribute_effect {id : VectorId} {s : Store} (there : id.index < s.vectors.size)
    (name : Name) (v : Value) :
    ((Builtins.replaceAttribute id name (some v) s).1 = .ok () ∧
      Attributed id ((s.container id).attributes.setAll [(some name, v)]) s
        (Builtins.replaceAttribute id name (some v) s).2) ∨
    ((Builtins.replaceAttribute id name (some v) s).1 ≠ .ok () ∧
      Attributed id (s.container id).attributes s
        (Builtins.replaceAttribute id name (some v) s).2) := by
  obtain ⟨u, owned, same⟩ := replaceAttribute_eq id name v s
  have before : Attributed id (s.container id).attributes s u := by
    rcases owned with rfl | rfl
    · exact attributed_refl id u
    · exact attributed_share id v s
  have effect := setAttribute_effect (before.size.symm ▸ there) name v
  rw [before.attributes] at effect
  rw [same]
  exact effect.imp (fun done => ⟨done.1, before.after done.2⟩) fun kept =>
    ⟨kept.1, before.after kept.2⟩

/-- The entries that have a name, set as attributes in turn. -/
def setAttributes (id : VectorId) (entries : List (Option Name × Value)) : StoreM Unit :=
  entries.forM fun (name, v) =>
    match name with
    | some name => Builtins.replaceAttribute id name (some v)
    | none => pure ()

theorem setAttributes_cons (id : VectorId) (name : Name) (v : Value)
    (rest : List (Option Name × Value)) : setAttributes id ((some name, v) :: rest) = (do
      Builtins.replaceAttribute id name (some v)
      setAttributes id rest) := rfl

/-- All the entries are set, or the first few when that fails. -/
theorem setAttributes_effect {id : VectorId} (entries : List (Option Name × Value)) {s : Store}
    (there : id.index < s.vectors.size) :
    ∃ done, done <+: entries ∧ ((setAttributes id entries s).1 = .ok () → done = entries) ∧
      Attributed id ((s.container id).attributes.setAll done) s (setAttributes id entries s).2 := by
  induction entries generalizing s with
  | nil => exact ⟨[], List.prefix_rfl, fun _ => rfl, attributed_refl id s⟩
  | cons entry rest ih =>
    obtain ⟨name, v⟩ := entry
    cases name with
    | none =>
      obtain ⟨done, first, all, attributed⟩ := ih there
      exact ⟨(none, v) :: done, List.cons_prefix_cons.mpr ⟨rfl, first⟩,
        fun ok => congrArg _ (all ok), attributed⟩
    | some name =>
      rw [setAttributes_cons, seq_apply]
      have effect := replaceAttribute_effect there name v
      rcases ran : Builtins.replaceAttribute id name (some v) s with ⟨f | _, t⟩
      · rw [ran] at effect
        rcases effect with ⟨ok, _⟩ | ⟨_, kept⟩
        · cases ok
        · exact ⟨[], List.nil_prefix, nofun, kept⟩
      · rw [ran] at effect
        rcases effect with ⟨_, set⟩ | ⟨failed, _⟩
        · obtain ⟨done, first, all, attributed⟩ := ih (s := t) (set.size.symm ▸ there)
          rw [set.attributes] at attributed
          exact ⟨(some name, v) :: done, List.cons_prefix_cons.mpr ⟨rfl, first⟩,
            fun ok => congrArg _ (all ok), set.after attributed⟩
        · exact absurd rfl failed

/-- The first argument with the named ones as attributes, where it is not shared: that vector is given them
all, or the first few when that fails. -/
theorem withAttributes_effect {args : Arguments} {id : VectorId} {s : Store}
    (given : args.get? ".Data" 0 = some (.vector id)) (there : id.index < s.vectors.size)
    (unshared : (s.container id).sharing.isShared = false) :
    ∃ done, done <+: args.rest ".Data" ∧
      (∀ v, (Builtins.withAttributes args s).1 = .ok v → v = .vector id ∧ done = args.rest ".Data") ∧
      Attributed id ((s.container id).attributes.setAll done) s (Builtins.withAttributes args s).2 := by
  have run : Builtins.withAttributes args s =
      (setAttributes id (args.rest ".Data") >>= fun _ => pure (.vector id) : StoreM Value) s := by
    unfold Builtins.withAttributes
    rw [Builtins.required_then given, seq_apply, Builtins.attributeTarget_unshared unshared]
    rfl
  obtain ⟨done, first, all, attributed⟩ := setAttributes_effect (args.rest ".Data") there
  rw [run, seq_apply]
  rcases ran : setAttributes id (args.rest ".Data") s with ⟨f | _, t⟩
  · rw [ran] at attributed
    exact ⟨done, first, nofun, attributed⟩
  · rw [ran] at all attributed
    refine ⟨done, first, fun v answer => ?_, attributed⟩
    cases answer
    exact ⟨rfl, all rfl⟩

/-- All other vectors are left as they are, whatever the first argument is. -/
theorem retains_withAttributes (args : Arguments) (s : Store) :
    Retains (fun id => args.get? ".Data" 0 = some (.vector id) ∧
      (s.container id).sharing.isShared = false) s (Builtins.withAttributes args s).2 := by
  have entry {R : Store → Store → Prop} [Owning R] {id : VectorId} (writes : Writes R id) :
      Moves R (do setAttributes id (args.rest ".Data"); pure (.vector id) : StoreM Value) := by
    refine moves_seq (moves_forAll fun entry _ => ?_) fun _ => moves_ok _
    obtain ⟨name, v⟩ := entry
    cases name with
    | none => exact moves_ok ()
    | some name => exact Builtins.moves_replaceAttribute writes _ _
  constructor
  · intro c apart
    unfold Builtins.withAttributes
    cases given : args.get? ".Data" 0 with
    | none =>
      rw [Builtins.required_absent given]
      exact Chained.refl s
    | some target =>
      rw [Builtins.required_then given]
      refine (replacing_picked (fun _ _ => picks_attributeTarget)
        (fun c => Builtins.moves_attributeTarget target)
        (fun id c apart => entry (sparing_writes apart)) (fun id => ?_) s).spares c fun same => ?_
      · exact gives_seq fun _ => gives_pure _
      · refine Bool.eq_true_of_not_eq_false fun unshared => apart ⟨?_, unshared⟩
        rw [given, same]
  · have kept : Moves (Retains fun _ => True) (Builtins.withAttributes args) :=
      moves_seq (moves_except _) fun _ => moves_seq (Builtins.moves_attributeTarget _) fun _ =>
        entry (retains_writes trivial)
    exact (kept s).promises

end Store

namespace Session

/-- Vectors keep their data and attributes, other than those written to. Promises are as they were, and so
are variables, other than a global one that was made. -/
structure Retains (made : Option Name) (written : VectorId → Prop) (s t : Session) : Prop where
  store : s.store.Retains written t.store
  bindings : ∀ frame name, s.heap.contains frame → (frame = global → made ≠ some name) →
    t.bound? frame name = s.bound? frame name

namespace Retains

variable {made : Option Name} {written : VectorId → Prop} {s t u : Session}

theorem of_heap (store : s.store.Retains written t.store) (heap : t.heap = s.heap) :
    s.Retains made written t := by
  refine ⟨store, fun frame name _ _ => ?_⟩
  unfold bound?
  rw [heap]

theorem of_same (store : t.store = s.store) (heap : t.heap = s.heap) : s.Retains made written t :=
  of_heap (.of_same (congrArg Store.vectors store) (congrArg Store.promises store)) heap

theorem trans (first : s.Retains made written t) (second : t.Retains made written u) :
    s.Retains made written u := by
  refine ⟨Store.Chained.trans first.store second.store, fun frame name alive other => ?_⟩
  have kept := first.bindings frame name alive other
  exact (second.bindings frame name (contains_of_bound kept alive) other).trans kept

/-- A variable reads as the same value. -/
theorem reading (retains : s.Retains made written t) {frame : EnvId} {name : Name}
    (alive : s.heap.contains frame) (other : frame = global → made ≠ some name) :
    t.reading? frame name = s.reading? frame name := by
  unfold reading?
  rw [retains.bindings frame name alive other, retains.store.promises]

/-- The contents of a value change only with those of the written vectors it leads to. -/
theorem contents_iff (retains : s.Retains made written t) (v : Value) :
    s.store.SameContents v t.store v ↔
      ∀ c, s.store.Meets (fun id => id.index < s.store.vectors.size ∧ ¬ written id) v c →
        s.store.SameContents (.vector c) t.store (.vector c) :=
  Store.sameContents_iff_meets (fun c kept => (retains.store.spares c kept.2 kept.1).2) v

end Retains
end Session

/-- A computation that writes into no vector and makes no variable but a certain global one, however it
ends. -/
def Retaining {α : Type} (made : Option Name) (m : EvalM α) : Prop :=
  ∀ s : Session, s.Retains made (fun _ => False) (m s).2

namespace Retaining

variable {α β : Type} {made : Option Name}

theorem value (a : α) : Retaining made (pure a : EvalM α) := fun _ => .of_same rfl rfl

theorem failure (f : Failure) : Retaining made (fail f : EvalM α) := fun _ => .of_same rfl rfl

/-- A change of neither objects nor frames. -/
theorem changing {g : Session → α × Session} (same : ∀ s, (g s).2.store = s.store ∧ (g s).2.heap = s.heap) :
    Retaining made (modifyGet g : EvalM α) := fun s => .of_same (same s).1 (same s).2

theorem reading {f : Session → EvalM α} (rest : ∀ s, Retaining made (f s)) :
    Retaining made (get >>= f) := fun s => rest s s

theorem andThen {m : EvalM α} {f : α → EvalM β} (first : Retaining made m)
    (rest : ∀ a, Retaining made (f a)) : Retaining made (m >>= f) := by
  intro s
  exact after_bind (P := s.Retains made fun _ => False) (first s) fun a t _ reached =>
    reached.trans (rest a t)

theorem storing {m : StoreM α} (moves : Store.Moves (Store.Retains fun _ => False) m) :
    Retaining made (onStore m) := by
  intro s
  rw [(onStore_session m s).1]
  exact .of_heap (moves s.store) rfl

theorem lifting (r : Except Failure α) : Retaining made (liftExcept r) := by
  cases r with
  | ok a => exact value _
  | error f => exact failure _

theorem checking (condition : Bool) (f : Failure) : Retaining made (failIf condition f) := by
  unfold failIf
  split
  · exact failure _
  · exact value _

theorem vector (xs : Elements) : Retaining made (allocate (Store.vector xs)) := by
  rw [Rules.allocate_eq_onStore]
  exact storing (Store.moves_lift (Store.moves_vector xs))

theorem binding {name : Name} (v : Value) : Retaining (some name) (define Session.global name v) := by
  intro s
  obtain ⟨others, spared⟩ := Session.define_effect Session.global name v s
  have store : (define Session.global name v s).2.store = s.store := by
    rw [define_apply]
    cases s.heap.frame? Session.global <;> rfl
  refine ⟨.of_same (congrArg Store.vectors store) (congrArg Store.promises store), ?_⟩
  refine fun frame other alive apart => others frame other alive ?_
  rintro ⟨⟩
  exact apart rfl rfl

theorem numeric (f : Store → Arguments → Except Failure Elements) (args : Arguments) :
    Retaining made (numeric f args) :=
  reading fun _ => andThen (lifting _) fun _ => vector _

theorem registerMethod (args : Arguments) : Retaining made (registerMethod args) :=
  reading fun _ => andThen (lifting _) fun _ => andThen (lifting _) fun _ =>
    andThen (lifting _) fun _ => andThen (checking _ _) fun _ =>
      andThen (changing fun _ => ⟨rfl, rfl⟩) fun _ => value _

theorem runHost (op : HostOp) (args : Arguments) : Retaining made (runHost op args) := by
  unfold CallByNeed.runHost
  split
  · refine andThen (changing fun _ => ⟨rfl, rfl⟩) fun _ => ?_
    split
    · exact vector _
    · exact value _
  · exact reading fun _ => andThen (lifting _) fun _ => vector _
  · exact vector _
  · exact failure _

end Retaining

/-- Whether a builtin replaces a part of its first argument. -/
def StrictOp.replaces : StrictOp → Bool
  | setElement | setAttribute | setClassOf => true
  | _ => false

/-- Whether a builtin neither replaces a part, nor sets attributes, nor makes a generic. -/
def StrictOp.isPlain : StrictOp → Bool
  | setElement | setAttribute | setClassOf | withAttributes | defineGeneric | defineMethod => false
  | _ => true

open Builtins in
theorem retaining_runStrict (ev : Evaluator) {op : StrictOp} (c : StrictCall)
    (plain : op.isPlain = true) : Retaining none (runStrict ev op c) := by
  cases op with
  | combine => exact .storing (moves_combine _)
  | makeList => exact .storing (moves_makeList _)
  | element => exact .storing (moves_element _)
  | length => exact .storing (moves_length _)
  | identical => exact .storing (moves_identical _)
  | isNull => exact .storing (moves_isNull _)
  | getAttribute => exact .storing (moves_getAttribute _)
  | classOf => exact .reading fun _ => .storing (moves_classOf _ _)
  | oldClass => exact .storing (moves_oldClass _)
  | unclass => exact .storing (moves_unclass Store.retains_classless _)
  | inherits => exact .reading fun _ => .storing (moves_inherits _ _)
  | arithmetic op => exact .numeric _ _
  | compare op => exact .numeric _ _
  | negate => exact .numeric _ _
  | summary op => exact .numeric _ _
  | absolute => exact .numeric _ _
  | write => exact .reading fun _ => .andThen (.changing fun _ => ⟨rfl, rfl⟩) fun _ => .value _
  | stop => exact .reading fun _ => .failure _
  | warn => exact .reading fun _ => .andThen (.changing fun _ => ⟨rfl, rfl⟩) fun _ => .vector _
  | identity => exact .storing (moves_identity _)
  | registerMethod => exact .registerMethod _
  | defineClass =>
    exact .reading fun _ => .andThen (.lifting _) fun _ =>
      .andThen (.changing fun _ => ⟨rfl, rfl⟩) fun _ => .vector _
  | newObject => exact .reading fun _ => .storing (moves_newObject _ _)
  | host op => exact .runHost _ _
  | setElement | setAttribute | setClassOf | withAttributes | defineGeneric | defineMethod => cases plain

/-! Builtins that make a generic. -/

/-- What follows a computation retains what that one leaves. -/
theorem Retaining.after {α β : Type} {made : Option Name} (m : EvalM α) {f : α → EvalM β}
    (rest : ∀ a, Retaining made (f a)) (s : Session) :
    (m s).2.Retains made (fun _ => False) ((m >>= f) s).2 := by
  rw [bind_apply]
  rcases m s with ⟨u | a, t⟩
  · exact .of_same rfl rfl
  · exact rest a t

theorem load_skeleton (name : Name) (s : Store) : ∃ f, (skeleton name).load s = (.ok (.function f),
    { (Store.vector (.character [name]) s).2.markPermanent (.vector ⟨s.vectors.size⟩) with
      nodes := s.nodes + 4 }) := by
  unfold skeleton
  simp only [Source.load, SourceFormal.loadAll, SourceArg.loadAll, Source.loadOption]
  exact ⟨_, rfl⟩

/-- The function of a generic without a definition is new code, and evaluating it makes a closure. -/
theorem retaining_skeleton {made : Option Name} (depth : Nat) (name : Name) (env : EnvId)
    (record : RecordId) : Retaining made (do
      let code ← onStore (skeleton name).load
      eval depth code env record) := by
  intro s
  obtain ⟨f, loaded⟩ := load_skeleton name s.store
  have run : onStore (skeleton name).load s = (.ok (.function f), { s with
      store := { (Store.vector (.character [name]) s.store).2.markPermanent
        (.vector ⟨s.store.vectors.size⟩) with nodes := s.store.nodes + 4 } }) := by
    rw [onStore_apply, loaded]
  have moved : s.store.Retains (fun _ => False)
      ((Store.vector (.character [name]) s.store).2.markPermanent (.vector ⟨s.store.vectors.size⟩)) :=
    Store.Chained.trans (Store.moves_vector (.character [name]) s.store)
      (Store.markPermanent_moves _ _)
  rw [bind_apply, run]
  cases depth with
  | zero => exact .of_heap (Store.Chained.trans moved (.of_same rfl rfl)) rfl
  | succ depth => exact .of_heap (Store.Chained.trans moved (.of_same rfl rfl)) rfl

/-- Enters a new generic with its function and its first method, and binds it. -/
def installGeneric (name : Name) (args : Arguments) : Value × Option Value → EvalM Generic
  | (.closure id f env, default) => do
    let generic ← modifyGet (Law.enterGeneric name f default args)
    define Session.global name (.closure id f env)
    pure generic
  | _ => fail (.invalidArgument "generic definition must be a function")

theorem defineGeneric_eq (ev : Evaluator) (name : Name) (definition : Option Value) (c : StrictCall) :
    defineGeneric ev name definition c =
      genericFunction ev name definition c >>= installGeneric name c.args := by
  unfold defineGeneric
  congr 1

theorem retaining_installGeneric (name : Name) (args : Arguments) (found : Value × Option Value) :
    Retaining (some name) (installGeneric name args found) := by
  unfold installGeneric
  split
  · exact .andThen (.changing fun _ => ⟨rfl, rfl⟩) fun _ => .andThen (.binding _) fun _ => .value _
  · exact .failure _

theorem retaining_defineGeneric (ev : Evaluator) (name : Name) (definition : Value) (c : StrictCall) :
    Retaining (some name) (defineGeneric ev name (some definition) c) := by
  rw [defineGeneric_eq]
  refine .andThen ?_ fun found => retaining_installGeneric name c.args found
  unfold genericFunction
  split
  · exact .value _
  · exact .reading fun _ => .failure _
  · contradiction

/-- Without a definition, an existing function is searched for first. -/
theorem retains_defineGeneric (depth : Nat) (name : Name) (c : StrictCall) (s : Session) :
    (findFunction (eval depth) name c.env c.record s).2.Retains (some name) (fun _ => False)
      (defineGeneric (eval depth) name none c s).2 := by
  rw [defineGeneric_eq]
  unfold genericFunction
  rw [bind_assoc]
  refine Retaining.after _ (fun existing => ?_) s
  refine .andThen ?_ fun found => retaining_installGeneric name c.args found
  split
  · exact .failure _
  · rename_i existing
    have made : Retaining (some name) (do
        let code ← onStore (skeleton name).load
        eval depth code Session.global c.record) :=
      retaining_skeleton depth name Session.global c.record
    have rest := made.andThen fun v =>
      Retaining.value (v, some existing)
    rwa [bind_assoc] at rest

namespace StrictOp

/-- The name of the generic that a builtin makes: the one it defines, or the one that it defines a method
for while there is no such generic. -/
def made? (op : StrictOp) (args : Arguments) (s : Session) : Option Name :=
  match op with
  | .defineGeneric => (args.requiredString s.store "name" 0).toOption
  | .defineMethod => do
    let name ← (args.requiredString s.store "f" 0).toOption
    discard (args.required "signature" 1).toOption
    let method ← (args.required "definition" 2).toOption
    if method.isFunction && (s.generics.get? name).isNone then some name else none
  | _ => none

/-- The name of the function that a builtin looks for before anything else: that of a generic that it makes
without a definition. -/
def sought? (op : StrictOp) (args : Arguments) (s : Session) : Option Name :=
  match op with
  | .defineGeneric => if (args.get? "def" 1).isSome then none else op.made? args s
  | op => op.made? args s

/-- Where a builtin comes to once it has looked for an existing function. -/
def begin (op : StrictOp) (ev : Evaluator) (c : StrictCall) (s : Session) : Session :=
  match op.sought? c.args s with
  | some name => (findFunction ev name c.env c.record s).2
  | none => s

end StrictOp

theorem retains_defineGenericBuiltin (depth : Nat) (c : StrictCall) (s : Session) :
    (StrictOp.defineGeneric.begin (eval depth) c s).Retains (StrictOp.defineGeneric.made? c.args s)
      (fun _ => False) (defineGenericBuiltin (eval depth) c s).2 := by
  unfold StrictOp.begin StrictOp.sought? StrictOp.made? defineGenericBuiltin
  rw [get_bind]
  cases c.args.requiredString s.store "name" 0 with
  | error f =>
    simp only [Except.toOption, ite_self]
    exact .of_same rfl rfl
  | ok name =>
    change Session.Retains (some name) _ _ ((do
      let _ ← defineGeneric (eval depth) name (c.args.get? "def" 1) c
      allocate (Store.text name) : EvalM Value) s).2
    cases c.args.get? "def" 1 with
    | some definition =>
      exact Retaining.andThen (retaining_defineGeneric (eval depth) name definition c)
        (fun _ => Retaining.vector _) s
    | none =>
      exact (retains_defineGeneric depth name c s).trans (Retaining.after _ (fun _ => .vector _) s)

theorem retaining_enterMethod {made : Option Name} (name : Name) (classes : List Name) (method : Value)
    (generic : Generic) : Retaining made (enterMethod name classes method generic) :=
  .andThen (.checking _ _) fun _ => .andThen (.changing fun _ => ⟨rfl, rfl⟩) fun _ => .vector _

theorem retains_defineMethod (depth : Nat) (c : StrictCall) (s : Session) :
    (StrictOp.defineMethod.begin (eval depth) c s).Retains (StrictOp.defineMethod.made? c.args s)
      (fun _ => False) (defineMethod (eval depth) c s).2 := by
  unfold StrictOp.begin StrictOp.sought? StrictOp.made?
  rw [defineMethod_eq, get_bind]
  cases c.args.requiredString s.store "f" 0 with
  | error f => exact .of_same rfl rfl
  | ok name =>
    cases c.args.required "signature" 1 with
    | error f => exact .of_same rfl rfl
    | ok signature =>
      cases c.args.required "definition" 2 with
      | error f => exact .of_same rfl rfl
      | ok method =>
        simp only [Except.toOption, Option.bind_eq_bind, Option.bind_some, liftExcept, pure_bind]
        cases method.isFunction with
        | false => exact .of_same rfl rfl
        | true =>
          cases s.generics.get? name with
          | some generic => exact retaining_enterMethod name _ method generic s
          | none =>
            exact (retains_defineGeneric depth name c s).trans
              (Retaining.after _ (retaining_enterMethod name _ method) s)

/-- The vector a builtin may write into: the unshared one that is to be given attributes. -/
def StrictOp.Writes (op : StrictOp) (args : Arguments) (s : Store) (id : VectorId) : Prop :=
  op = .withAttributes ∧ args.get? ".Data" 0 = some (.vector id) ∧
    (s.container id).sharing.isShared = false

/-- What a builtin does, replacements aside, once it has looked for an existing function. -/
theorem retains_runStrict (depth : Nat) {op : StrictOp} (other : op.replaces = false) (c : StrictCall)
    (s : Session) : (op.begin (eval depth) c s).Retains (op.made? c.args s) (op.Writes c.args s.store)
      (runStrict (eval depth) op c s).2 := by
  have widen {made : Option Name} {t u : Session} (retains : t.Retains made (fun _ => False) u) :
      t.Retains made (op.Writes c.args s.store) u :=
    ⟨retains.store.widen nofun, retains.bindings⟩
  cases op with
  | withAttributes =>
    have retains : s.store.Retains (StrictOp.withAttributes.Writes c.args s.store)
        (Builtins.withAttributes c.args s.store).2 :=
      (Store.retains_withAttributes c.args s.store).widen fun _ written => ⟨rfl, written⟩
    change s.Retains none _ (onStore (Builtins.withAttributes c.args) s).2
    rw [(onStore_session _ s).1]
    exact .of_heap retains rfl
  | defineGeneric => exact widen (retains_defineGenericBuiltin depth c s)
  | defineMethod => exact widen (retains_defineMethod depth c s)
  | setElement | setAttribute | setClassOf => cases other
  | _ =>
    refine widen (retaining_runStrict (eval depth) c ?_ s)
    rfl

namespace Session

/-- The session a builtin runs in, under a record of its own. -/
def underBuiltin (s : Session) (b : Builtin) (call : Expr) (caller : RecordId) : Session :=
  let (id, records) := s.records.push (some caller) (some call) (.builtin b.name)
  { s with records := records.setEagerOnly id (s.records.eagerOnly caller) }

theorem runBuiltin_body (ev : Evaluator) (b : Builtin) (op : StrictOp) (call : Expr)
    (names : List (Option Name)) (values : List Value) (env : EnvId) (caller : RecordId) (s : Session) :
    let body := runStrict ev op ⟨⟨names, values⟩, env, ⟨s.records.next⟩⟩ (s.underBuiltin b call caller)
    let run := runBuiltin ev b op call names values env caller s
    run.2.store = body.2.store ∧ run.2.heap = body.2.heap ∧ ∀ v, run.1 = .ok v ↔ body.1 = .ok v := by
  intro body run
  obtain ⟨same, answers⟩ := attributeTo_session call
    (runStrict ev op ⟨⟨names, values⟩, env, ⟨s.records.next⟩⟩) (s.underBuiltin b call caller)
  have store := congrArg Session.store same
  have heap := congrArg Session.heap same
  exact ⟨store, heap, answers⟩

/-- Looking for a function that no promise hides changes nothing. -/
theorem begin_direct {op : StrictOp} {ev : Evaluator} {c : StrictCall} {s : Session}
    (direct : ∀ name, op.sought? c.args s = some name → s.Unpromised name c.env) :
    op.begin ev c s = s := by
  unfold StrictOp.begin
  cases sought : op.sought? c.args s with
  | none => rfl
  | some name =>
    dsimp only
    rw [findFunction_direct (direct name sought)]
    cases s.heap.visible name (s.heap.chain c.env) <;> rfl

/-- The default behaviour of a builtin that is no replacement, on any arguments. A builtin that makes a generic
may look for an existing function first; where no promise is forced for it, this changes nothing. From there
on every vector keeps its data and attributes, every variable but that of a new generic keeps its binding,
and the contents of its value change only with those of a vector written to. There is such a vector only
for the builtin that gives its first argument attributes: that argument, while it is not shared. It gets the
attributes in turn and is given back. -/
theorem default_behaviour_spares_vectors {op : StrictOp} (other : op.replaces = false) (depth : Nat)
    (b : Builtin) (call : Expr) (names : List (Option Name)) (values : List Value) (env : EnvId)
    (caller : RecordId) (s : Session) :
    let args : Arguments := ⟨names, values⟩
    let begun := op.begin (eval depth) ⟨args, env, ⟨s.records.next⟩⟩ (s.underBuiltin b call caller)
    let run := runBuiltin (eval depth) b op call names values env caller s
    ((∀ name, op.sought? args s = some name → s.Unpromised name env) →
      begun.store = s.store ∧ begun.heap = s.heap) ∧
    (∀ id, id.index < begun.store.vectors.size → ¬ op.Writes args s.store id →
      begun.store.Agrees run.2.store id) ∧
    (∀ id, id.index < s.store.vectors.size → op.Writes args s.store id → ∃ done,
      done <+: args.rest ".Data" ∧
      (∀ v, run.1 = .ok v → v = .vector id ∧ done = args.rest ".Data") ∧
      s.store.Attributed id ((s.store.container id).attributes.setAll done) run.2.store) ∧
    ∀ frame name, begun.heap.contains frame → (frame = global → op.made? args s ≠ some name) →
      run.2.bound? frame name = begun.bound? frame name ∧
      run.2.reading? frame name = begun.reading? frame name ∧
      ∀ v, begun.reading? frame name = some v → (begun.store.SameContents v run.2.store v ↔
        ∀ id, begun.store.Meets
            (fun id => id.index < begun.store.vectors.size ∧ ¬ op.Writes args s.store id) v id →
          begun.store.SameContents (.vector id) run.2.store (.vector id)) := by
  intro args begun run
  obtain ⟨store, heap, answers⟩ := runBuiltin_body (eval depth) b op call names values env caller s
  have retains : begun.Retains (op.made? args s) (op.Writes args s.store) run.2 :=
    (retains_runStrict depth other ⟨args, env, ⟨s.records.next⟩⟩ (s.underBuiltin b call caller)).trans
      (.of_same store heap)
  refine ⟨fun direct => ?_, fun id there apart => ?_, fun id there written => ?_, ?_⟩
  · have same : begun = s.underBuiltin b call caller := begin_direct direct
    rw [same]
    exact ⟨rfl, rfl⟩
  · exact (retains.store.spares id apart there).2
  · obtain ⟨rfl, given, unshared⟩ := written
    obtain ⟨done, first, all, attributed⟩ := Store.withAttributes_effect given there unshared
    obtain ⟨stored, results⟩ := onStore_session (Builtins.withAttributes args)
      (s.underBuiltin b call caller)
    refine ⟨done, first, fun v answer => all v ?_, ?_⟩
    · exact (results v).mp ((answers v).mp answer)
    · have same : run.2.store = (Builtins.withAttributes args s.store).2 :=
        store.trans (congrArg Session.store stored)
      rw [same]
      exact attributed
  · intro frame name alive apart
    exact ⟨retains.bindings frame name alive apart, retains.reading alive apart,
      fun v _ => retains.contents_iff v⟩

set_option maxRecDepth 10000 in
/-- The unshared vector of two variables is given an attribute, which shows in both; no other vector
changes. -/
theorem unshared_argument_given_attribute :
    let b : Builtin := ⟨"structure", .strict .withAttributes, false, .none⟩
    let run := runBuiltin (eval 1) b .withAttributes (.symbol ⟨2⟩ "structure") [none, some "foo"]
      [.vector ⟨10⟩, .vector ⟨11⟩] global ⟨0⟩ aliased
    StrictOp.withAttributes.replaces = false ∧ b ∈ Registry.classBuiltins ∧
      aliased.reading? global "y" = some (.vector ⟨10⟩) ∧
      run.2.reading? global "y" = some (.vector ⟨10⟩) ∧
      ¬ aliased.store.SameContents (.vector ⟨10⟩) run.2.store (.vector ⟨10⟩) ∧
      ∀ id, id.index < aliased.store.vectors.size → id ≠ ⟨10⟩ → aliased.store.Agrees run.2.store id := by
  intro b run
  have plain : StrictOp.withAttributes.replaces = false := rfl
  obtain ⟨_, spared, _, kept⟩ := default_behaviour_spares_vectors plain 1 b
    (.symbol ⟨2⟩ "structure") [none, some "foo"] [.vector ⟨10⟩, .vector ⟨11⟩] global ⟨0⟩ aliased
  have reads := (kept global "y" rfl nofun).2.1
  refine ⟨rfl, ?_, rfl, reads.trans rfl, fun same => ?_, fun id there other => ?_⟩
  · simp [b, Registry.classBuiltins]
  · refine Store.not_sameContents_self ?_ same
    decide +kernel
  · refine spared id there fun written => other ?_
    exact (Value.vector.inj (Option.some.inj written.2.1)).symm

end Session
end CallByNeed
