import CallByNeed.Proofs.Guards
import CallByNeed.Proofs.References
import CallByNeed.Proofs.Rules

/-!
Operations on the objects of a store, within a scope. From values and code of the scope they make values
and code of the scope and leave the store within it. They fail with conditions of the language only; a
write in place may be refused besides, where refusals are allowed or the vector may be shared.
-/
namespace CallByNeed

/-- A failure that belongs to the language, or a refused write, if these are allowed. -/
def Failure.Tame (lax : Prop) (f : Failure) : Prop :=
  f.isFatal = false ∨ lax ∧ ∃ state : Sharing, state.isShared = true ∧ f = writeRefused state

namespace Scope

variable {α β : Type}

/-- Nothing is said about a result. -/
def Any (_ : α) : Prop := True

/-- A result as stated, or a failure of the language. -/
def Fine (Q : α → Prop) : Except Failure α → Prop
  | .ok a => Q a
  | .error f => f.isFatal = false

/-- A result as stated, or a tame failure. -/
def Ends (lax : Prop) (Q : α → Prop) : Except Failure α → Prop
  | .ok a => Q a
  | .error f => f.Tame lax

variable (S : Scope)

/-- An operation keeps a store within a scope and gives a result as stated. -/
def Makes (Q : α → Prop) (m : Alloc α) : Prop :=
  ∀ s : Store, s.Within S → (m s).2.Within S ∧ Q (m s).1

/-- The same of an operation that may fail. -/
def Keeps (Q : α → Prop) (m : StoreM α) : Prop := S.Makes (α := Except Failure α) (Fine Q) m

variable {S} {P Q : α → Prop} {R : β → Prop}

theorem fine_error {f : Failure} (mild : f.isFatal = false) :
    Fine Q (.error f : Except Failure α) := mild

theorem fine_bind {r : Except Failure α} {f : α → Except Failure β} (first : Fine Q r)
    (rest : ∀ a, Q a → Fine R (f a)) : Fine R (r >>= f) := by
  cases r with
  | ok a => exact rest a first
  | error f => exact first

theorem Makes.weaken {m : Alloc α} (makes : S.Makes P m) (weaker : ∀ a, P a → Q a) : S.Makes Q m := by
  intro s within
  obtain ⟨within', ok⟩ := makes s within
  exact ⟨within', weaker _ ok⟩

theorem makes_pure {a : α} (ok : Q a) : S.Makes Q (pure a) := fun _ within => ⟨within, ok⟩

theorem makes_bind {m : Alloc α} {f : α → Alloc β} (first : S.Makes Q m)
    (rest : ∀ a, Q a → S.Makes R (f a)) : S.Makes R (m >>= f) := by
  intro s within
  obtain ⟨within', ok⟩ := first s within
  exact rest _ ok (m s).2 within'

theorem makes_map {m : Alloc α} {f : α → β} (makes : S.Makes Q m) (ok : ∀ a, Q a → R (f a)) :
    S.Makes R (f <$> m) := by
  intro s within
  obtain ⟨within', result⟩ := makes s within
  exact ⟨within', ok _ result⟩

theorem makes_get {f : Store → Alloc α} (rest : ∀ s : Store, s.Within S → S.Makes Q (f s)) :
    S.Makes Q (get >>= f) := fun s within => rest s within s within

theorem makes_modify {f : Store → Store} (keeps : ∀ s : Store, s.Within S → (f s).Within S) :
    S.Makes Any (modify f) := fun s within => ⟨keeps s within, trivial⟩

theorem makes_mapM {f : α → Alloc Value} {xs : List α} (makes : ∀ x ∈ xs, S.Makes S.Covers (f x)) :
    S.Makes (fun ys => S.CoversAll ys ∧ ys.length = xs.length) (xs.mapM f) := by
  induction xs with
  | nil => exact makes_pure ⟨coversAll_nil, rfl⟩
  | cons x rest ih =>
    rw [List.mapM_cons]
    refine makes_bind (makes x (by simp)) fun v ok => ?_
    refine makes_bind (ih fun y member => makes y (by simp [member])) fun vs all => ?_
    exact makes_pure ⟨coversAll_cons.mpr ⟨ok, all.1⟩, by simp [all.2]⟩

/-! Operations that may fail. -/

theorem keeps_ok {a : α} (ok : Q a) : S.Keeps Q (pure a) := makes_pure (Q := Fine Q) ok

theorem keeps_throw {f : Failure} (mild : f.isFatal = false) : S.Keeps Q (throw f : StoreM α) :=
  fun _ within => ⟨within, mild⟩

theorem keeps_except {r : Except Failure α} (fine : Fine Q r) : S.Keeps Q (liftM r : StoreM α) := by
  intro s within
  cases r with
  | ok a => exact ⟨within, fine⟩
  | error f => exact ⟨within, fine⟩

theorem keeps_lift {m : Alloc α} (makes : S.Makes Q m) : S.Keeps Q (liftM m : StoreM α) := makes

theorem keeps_read {f : Store → StoreM α} (rest : ∀ s : Store, s.Within S → S.Keeps Q (f s)) :
    S.Keeps Q (get >>= f) := fun s within => rest s within s within

theorem keeps_seq {m : StoreM α} {f : α → StoreM β} (first : S.Keeps Q m)
    (rest : ∀ a, Q a → S.Keeps R (f a)) : S.Keeps R (m >>= f) := by
  intro s within
  obtain ⟨within', ok⟩ := first s within
  rw [Store.seq_apply]
  rcases run : m s with ⟨e | a, t⟩
  · rw [run] at within' ok
    exact ⟨within', ok⟩
  · rw [run] at within' ok
    exact rest a ok t within'

theorem keeps_map {m : StoreM α} {f : α → β} (keeps : S.Keeps Q m) (ok : ∀ a, Q a → R (f a)) :
    S.Keeps R (f <$> m) := by
  rw [map_eq_pure_bind]
  exact keeps_seq keeps fun a result => keeps_ok (ok a result)

theorem keeps_unless {bad : Prop} [Decidable bad] {f : Failure} {rest : Unit → StoreM α}
    (mild : f.isFatal = false) (keeps : ¬bad → S.Keeps Q (rest ())) :
    S.Keeps Q (if bad then (throw f : StoreM Unit) >>= rest else rest () : StoreM α) := by
  split
  · exact fun _ within => ⟨within, mild⟩
  · rename_i good
    exact keeps good

theorem keeps_mapAll {f : α → StoreM β} {xs : List α} (keeps : ∀ x ∈ xs, S.Keeps R (f x)) :
    S.Keeps (fun bs => ∀ b ∈ bs, R b) (xs.mapM f : StoreM (List β)) := by
  induction xs with
  | nil => exact keeps_ok nofun
  | cons x rest ih =>
    rw [List.mapM_cons]
    refine keeps_seq (keeps x (by simp)) fun b ok => ?_
    refine keeps_seq (ih fun y member => keeps y (by simp [member])) fun bs all => ?_
    exact keeps_ok (List.forall_mem_cons.mpr ⟨ok, all⟩)

theorem keeps_forAll {f : α → StoreM Unit} {xs : List α} (keeps : ∀ x ∈ xs, S.Keeps Any (f x)) :
    S.Keeps Any (xs.forM f : StoreM Unit) := by
  induction xs with
  | nil => exact keeps_ok trivial
  | cons x rest ih =>
    exact keeps_seq (keeps x (by simp)) fun _ _ => ih fun y member => keeps y (by simp [member])

/-! Vectors. -/

theorem makes_addVector {c : Container} (held : S.CoversAll c.held) :
    S.Makes Any (Store.addVector c) := by
  refine fun s within => ⟨⟨fun d member => ?_, within.promises, within.dots⟩, trivial⟩
  rcases Array.mem_push.mp member with old | rfl
  · exact within.vectors d old
  · exact held

theorem makes_vector {xs : Elements} (held : S.CoversAll xs.children) :
    S.Makes S.Covers (Store.vector xs) := by
  refine makes_map (makes_addVector ?_) fun id _ => covers_vector id
  simpa [Container.held, Table.values] using held

theorem makes_setSharing (f : Sharing → Sharing) (v : Value) :
    S.Makes Any (modify (Store.setSharing f v)) := makes_modify fun _ within => within.setSharing f v

theorem makes_share (v : Value) : S.Makes Any (modify (Store.share v)) := makes_setSharing _ v

theorem makes_shareAll (vs : List Value) : S.Makes Any (modify (Store.shareAll vs)) := by
  induction vs with
  | nil => exact makes_modify fun _ within => within
  | cons v rest ih => exact makes_bind (makes_share v) fun _ _ => ih

theorem makes_adjustChild (owner child : Value) :
    S.Makes Any (modify (Store.adjustChild owner child)) := by
  refine makes_modify fun s within => ?_
  unfold Store.adjustChild
  split
  · split
    · exact within
    · exact within.setSharing _ _
  · exact within

theorem makes_singleton {xs ys : Elements} (member : ys ∈ xs.singletons) :
    S.Makes S.Covers (Store.vector ys) := by
  refine makes_vector ?_
  rw [Ambit.children_singleton member]
  exact coversAll_nil

theorem makes_items {xs : Elements} (held : S.CoversAll xs.children) :
    S.Makes (fun ys => S.CoversAll ys ∧ ys.length = xs.length) (Store.items xs) := by
  cases xs with
  | list xs => exact makes_pure ⟨held, rfl⟩
  | logical xs | integer xs | double xs | character xs =>
    refine (makes_mapM fun _ member => makes_singleton member).weaken fun ys ok => ?_
    exact ⟨ok.1, by simpa [Elements.singletons, Elements.length] using ok.2⟩

theorem makes_element (id : VectorId) (i : Nat) : S.Makes S.CoversAny (Store.element id i) := by
  refine makes_get fun s within => ?_
  split
  · rename_i xs list
    refine makes_pure fun v found => within.children id v ?_
    rw [list]
    exact List.mem_of_getElem? found
  · cases found : (s.elements id).singletons[i]? with
    | none => exact makes_pure nofun
    | some xs =>
      refine makes_map (makes_singleton (List.mem_of_getElem? found)) fun v ok w same => ?_
      cases same
      exact ok

theorem CoversAll.widen {xs : Elements} (held : S.CoversAll xs.children) (rank : Nat) :
    S.CoversAll (xs.widen rank).children := fun v member => held v (Elements.mem_children_widen member)

/-- Contents converted up have the rank asked for and as many elements. -/
theorem makes_coerce {xs : Elements} {rank : Nat} (held : S.CoversAll xs.children) (le : xs.rank ≤ rank)
    (bound : rank ≤ Elements.listRank) :
    S.Makes (fun ys => S.CoversAll ys.children ∧ ys.rank = rank ∧ ys.length = xs.length)
      (Store.coerce xs rank) := by
  unfold Store.coerce
  split
  · rename_i list
    cases xs with
    | list xs => exact makes_pure ⟨held, Nat.le_antisymm le bound, rfl⟩
    | _ => cases list
  · split
    · rename_i atomic
      exact makes_pure ⟨held.widen rank, Elements.rank_widen le atomic, Elements.length_widen xs rank⟩
    · rename_i high
      exact makes_map (makes_items held) fun ys ok =>
        ⟨ok.1, Nat.le_antisymm (Nat.le_of_not_lt high) bound, ok.2⟩

theorem makes_duplicate (id : VectorId) : S.Makes Any (Store.duplicate id) :=
  makes_get fun _ within => makes_bind (makes_shareAll _) fun _ _ =>
    makes_addVector (within.container id)

theorem makes_makeMutable (id : VectorId) : S.Makes Any (Store.makeMutable id) := by
  refine makes_get fun s within => ?_
  split
  · exact makes_duplicate id
  · exact makes_pure trivial

/-! Writes in place. -/

end Scope

/-- A vector may be written to in place. -/
def Store.Writable (s : Store) (id : VectorId) : Prop := (s.container id).sharing.isShared = false

namespace Store.Writable

variable {s : Store} {id : VectorId}

theorem modifyContainer (writable : s.Writable id) (other : VectorId) {f : Container → Container}
    (still : ∀ c, (f c).sharing = c.sharing) : (s.modifyContainer other f).Writable id := by
  unfold Store.Writable
  rw [Store.container_modify]
  split
  · rename_i same
    rw [still, ← same.1]
    exact writable
  · exact writable

theorem share (writable : s.Writable id) {v : Value} (apart : v ≠ .vector id) : (s.share v).Writable id := by
  cases v with
  | vector other =>
    have apart : id ≠ other := fun same => apart (congrArg Value.vector same.symm)
    change (s.modifyContainer other _).Writable id
    unfold Store.Writable
    rw [Store.container_modify, if_neg fun both => apart both.1]
    exact writable
  | _ => exact writable

theorem vector (writable : s.Writable id) (xs : Elements) : (Store.vector xs s).2.Writable id := by
  change (Store.addVector _ s).2.Writable id
  unfold Store.Writable
  rw [Store.container_addVector]
  split
  · rfl
  · exact writable

theorem writeAtomic (writable : s.Writable id) (i : Nat) (v : Value) :
    (Store.writeAtomic id i v s).2.Writable id := by
  have := evolution_true
  exact (Store.moves_writeAtomic (R := fun _ _ => True) (fun _ _ _ _ _ => trivial) i v s writable).2

end Store.Writable

/-- A copy may be written to. -/
theorem Store.writable_duplicate (id : VectorId) (s : Store) :
    (Store.duplicate id s).2.Writable (Store.duplicate id s).1 := by
  change ((Store.addVector _ _).2.container ((Store.addVector _ _).1)).sharing.isShared = false
  rw [Store.container_addVector]
  exact congrArg (fun c : Container => c.sharing.isShared) (if_pos rfl)

namespace Scope

variable {α β : Type} {S : Scope} {Q : α → Prop} {R : β → Prop} {id : VectorId}

/-- An operation that writes into a vector, from stores in which it may, or from any if refusals are
allowed. The vector may be written to after it too. -/
def Writes (S : Scope) (lax : Prop) (id : VectorId) (Q : α → Prop) (m : StoreM α) : Prop :=
  ∀ s : Store, s.Within S → lax ∨ s.Writable id →
    (m s).2.Within S ∧ (lax ∨ (m s).2.Writable id) ∧ Ends lax Q (m s).1

variable {lax : Prop}

theorem Fine.ends {r : Except Failure α} (fine : Fine Q r) : Ends lax Q r := by
  cases r with
  | ok a => exact fine
  | error f => exact .inl fine

theorem Ends.fine {r : Except Failure α} (ends : Ends False Q r) : Fine Q r := by
  cases r with
  | ok a => exact ends
  | error f => exact ends.resolve_right fun refused => refused.1

theorem Ends.tighten {r : Except Failure α} (ends : Ends True Q r)
    (unrefused : ∀ state : Sharing, r ≠ .error (writeRefused state)) : Ends lax Q r := by
  cases r with
  | ok a => exact ends
  | error f =>
    refine ends.imp_right fun ⟨_, state, _, same⟩ => absurd ?_ (unrefused state)
    rw [same]

theorem Keeps.writes {m : StoreM α} (keeps : S.Keeps Q m)
    (still : ∀ s : Store, s.Writable id → (m s).2.Writable id) : S.Writes lax id Q m :=
  fun s within ready => ⟨(keeps s within).1, ready.imp_right (still s), (keeps s within).2.ends⟩

/-- An operation that leaves the store alone. -/
theorem Keeps.writes_still {m : StoreM α} (keeps : S.Keeps Q m) (still : ∀ s, (m s).2 = s) :
    S.Writes lax id Q m := keeps.writes fun s writable => (still s).symm ▸ writable

theorem writes_seq {m : StoreM α} {f : α → StoreM β} (first : S.Writes lax id Q m)
    (rest : ∀ a, Q a → S.Writes lax id R (f a)) : S.Writes lax id R (m >>= f) := by
  intro s within ready
  obtain ⟨within', ready', ok⟩ := first s within ready
  rw [Store.seq_apply]
  rcases run : m s with ⟨e | a, t⟩
  · rw [run] at within' ready' ok
    exact ⟨within', ready', ok⟩
  · rw [run] at within' ready' ok
    exact rest a ok t within' ready'

theorem writes_ok {a : α} (ok : Q a) : S.Writes lax id Q (pure a) := (keeps_ok ok).writes_still fun _ => rfl

theorem writes_except {r : Except Failure α} (fine : Fine Q r) : S.Writes lax id Q (liftM r : StoreM α) :=
  (keeps_except fine).writes_still fun _ => by cases r <;> rfl

theorem writes_read {f : Store → StoreM α} (rest : ∀ s : Store, s.Within S → S.Writes lax id Q (f s)) :
    S.Writes lax id Q (get >>= f) := fun s within => rest s within s within

theorem writes_forAll {f : α → StoreM Unit} {xs : List α} (writes : ∀ x ∈ xs, S.Writes lax id Any (f x)) :
    S.Writes lax id Any (xs.forM f : StoreM Unit) := by
  induction xs with
  | nil => exact writes_ok trivial
  | cons x rest ih =>
    exact writes_seq (writes x (by simp)) fun _ _ => ih fun y member => writes y (by simp [member])

theorem writes_ensureWritable (id : VectorId) : S.Writes lax id Any (Store.ensureWritable id) := by
  intro s within ready
  rw [Store.ensureWritable_apply]
  split
  · rename_i held
    have lax := ready.resolve_right fun writable => Bool.false_ne_true (writable.symm.trans held)
    exact ⟨within, .inl lax, .inr ⟨lax, _, held, rfl⟩⟩
  · exact ⟨within, ready, trivial⟩

theorem keeps_setElements {xs : Elements} (held : S.CoversAll xs.children) :
    S.Keeps Any (modify (Store.setElements id xs) : StoreM Unit) := by
  refine keeps_lift (makes_modify fun s within => within.modifyContainer ?_)
  exact coversAll_append.mpr ⟨held, within.attributes id⟩

theorem CoversAll.writeFirst {xs ys zs : Elements} {i : Nat} (held : S.CoversAll xs.children)
    (ok : S.CoversAll ys.children) (written : xs.writeFirst i ys = some zs) :
    S.CoversAll zs.children := by
  intro v member
  rcases Elements.mem_children_writeFirst written member with new | old
  · exact ok v new
  · exact held v old

/-- Contents of one rank can be written into one another. -/
theorem writeFirst_of_rank {xs ys : Elements} (i : Nat) (same : xs.rank = ys.rank)
    (single : ys.length = 1) : xs.writeFirst i ys ≠ none := by
  cases ys with
  | logical ys | integer ys | double ys | character ys | list ys =>
    obtain ⟨y, rfl⟩ := List.length_eq_one_iff.mp single
    cases xs <;> simp_all [Elements.rank, Elements.writeFirst]

theorem keeps_writeAtomic (i : Nat) (v : Value) : S.Keeps Any (Store.writeAtomic id i v) := by
  refine keeps_read fun s within => ?_
  dsimp only
  split
  · rename_i source
    refine keeps_unless rfl fun single => ?_
    have bound := Nat.max_le.mpr
      ⟨(s.elements id).rank_le_listRank, (s.elements source).rank_le_listRank⟩
    refine keeps_seq (keeps_lift (makes_coerce (within.children id) (Nat.le_max_left _ _) bound))
      fun xs first => ?_
    refine keeps_seq (keeps_lift (makes_coerce (within.children source) (Nat.le_max_right _ _) bound))
      fun ys second => ?_
    split
    · rename_i zs written
      exact keeps_setElements (first.1.writeFirst second.1 written)
    · rename_i mismatch
      refine absurd mismatch (writeFirst_of_rank i (first.2.1.trans second.2.1.symm) ?_)
      exact second.2.2.trans (Decidable.not_not.mp single)
  · exact keeps_throw rfl

theorem CoversAll.writeChild {xs : List Value} {v : Value} (held : S.CoversAll xs) (ok : S.Covers v)
    (i : Nat) : S.CoversAll (Store.writeChild xs i v) := by
  intro w member
  rcases Store.mem_writeChild member with rfl | old
  · exact ok
  · exact held w old

theorem writes_setElement {v : Value} (i : Nat) (ok : S.Covers v) :
    S.Writes lax id Any (Store.setElement id i v) := by
  refine writes_seq (writes_ensureWritable id) fun _ _ => writes_read fun s within => ?_
  dsimp only
  split
  · exact (keeps_throw (α := Unit) rfl).writes_still fun _ => rfl
  · split
    · rename_i children list
      have held := within.children id
      rw [list] at held
      exact (keeps_setElements (held.writeChild ok i)).writes fun s writable =>
        writable.modifyContainer id fun _ => rfl
    · exact (keeps_writeAtomic i v).writes fun s writable => writable.writeAtomic i v

theorem writes_setAttribute {v : Option Value} (name : Name) (ok : S.CoversAny v) :
    S.Writes lax id Any (Store.setAttribute id name v) := by
  refine writes_seq (writes_ensureWritable id) fun _ _ => Keeps.writes
    (keeps_lift (makes_modify fun s within => within.modifyContainer ?_)) fun s writable =>
      writable.modifyContainer id fun _ => rfl
  refine coversAll_append.mpr ⟨within.children id, ?_⟩
  dsimp only
  split
  · rename_i w found
    intro u member
    rcases Table.mem_values_insert member with rfl | kept
    · exact ok u (Option.filter_eq_some_iff.mp found).1
    · exact within.attributes id u kept
  · intro u member
    exact within.attributes id u (Table.mem_values_erase member)

/-! Code. -/

theorem makes_freshNode : S.Makes Any Store.freshNode :=
  fun _ within => ⟨⟨within.vectors, within.promises, within.dots⟩, trivial⟩

theorem keeps_constantNode {v : Value} (ok : S.Covers v) : S.Keeps S.Spans (constantNode v) :=
  keeps_seq (keeps_lift (makes_setSharing _ v)) fun _ _ =>
    keeps_seq (keeps_lift makes_freshNode) fun _ _ => keeps_ok ok

theorem keeps_symbolNode (name : Name) : S.Keeps S.Spans (symbolNode name) :=
  keeps_seq (keeps_lift makes_freshNode) fun _ _ => keeps_ok (spans_symbol _ name)

theorem keeps_callNode {f : Expr} {args : List Arg} (ok : S.Spans f) (all : ∀ a ∈ args, S.Spans a.value) :
    S.Keeps S.Spans (callNode f args) :=
  keeps_seq (keeps_lift makes_freshNode) fun _ _ => keeps_ok (spans_call.mpr ⟨ok, all⟩)

theorem keeps_functionNode {formals : List Formal} {body : Expr}
    (defaults : ∀ f ∈ formals, ∀ e, f.default = some e → S.Spans e) (ok : S.Spans body) :
    S.Keeps S.Spans (functionNode formals body) := by
  unfold functionNode Signature.formals
  split
  · rename_i f failed
    split at failed
    · cases failed
      exact keeps_throw rfl
    · cases failed
  · exact keeps_seq (keeps_lift makes_freshNode) fun _ _ => keeps_ok (spans_function.mpr ⟨defaults, ok⟩)

theorem keeps_literal {xs : Elements} (atomic : xs.children = []) :
    S.Keeps S.Spans (do constantNode (← Store.vector xs)) := by
  refine keeps_seq (keeps_lift (makes_vector ?_)) fun _ ok => keeps_constantNode ok
  rw [atomic]
  exact coversAll_nil

theorem keeps_node {f : NodeId → Expr} (ok : ∀ id, S.Spans (f id)) :
    S.Keeps S.Spans (do pure (f (← Store.freshNode))) :=
  keeps_seq (keeps_lift makes_freshNode) fun id _ => keeps_ok (ok id)

mutual

/-- Loading gives code of the same references. -/
theorem keeps_load {e : Source} (ok : ∀ r ∈ e.references, S.Has r) : S.Keeps S.Spans e.load := by
  cases e with
  | null => exact keeps_constantNode covers_null
  | logical b => exact keeps_literal rfl
  | integer x => exact keeps_literal rfl
  | double x => exact keeps_literal rfl
  | text t => exact keeps_literal rfl
  | literal v =>
    rw [Source.references] at ok
    exact keeps_constantNode ok
  | symbol name => exact keeps_symbolNode name
  | empty =>
    rw [Source.load]
    exact keeps_node spans_empty
  | call f args =>
    rw [Source.references, List.forall_mem_append] at ok
    rw [Source.load]
    exact keeps_seq (keeps_load ok.1) fun f called =>
      keeps_seq (keeps_loadArgs ok.2) fun args all => keeps_callNode called all
  | function formals body =>
    rw [Source.references, List.forall_mem_append] at ok
    rw [Source.load]
    exact keeps_seq (keeps_loadFormals ok.1) fun formals defaults =>
      keeps_seq (keeps_load ok.2) fun body run => keeps_functionNode defaults run
  | block body =>
    rw [Source.references] at ok
    rw [Source.load]
    exact keeps_seq (keeps_loadAll ok) fun body all => keeps_node fun id => spans_block.mpr all
  | branch test yes no =>
    rw [Source.references, List.forall_mem_append, List.forall_mem_append] at ok
    rw [Source.load]
    exact keeps_seq (keeps_load ok.1.1) fun test tested =>
      keeps_seq (keeps_load ok.1.2) fun yes taken =>
        keeps_seq (keeps_loadOption ok.2) fun no other =>
          keeps_node fun id => spans_branch.mpr ⟨tested, taken, other⟩
  | assign target value outer =>
    rw [Source.references, List.forall_mem_append] at ok
    rw [Source.load]
    exact keeps_seq (keeps_load ok.1) fun target written =>
      keeps_seq (keeps_load ok.2) fun value read =>
        keeps_node fun id => spans_assign.mpr ⟨written, read⟩

theorem keeps_loadAll {body : List Source} (ok : ∀ r ∈ Source.allReferences body, S.Has r) :
    S.Keeps (fun es => ∀ e ∈ es, S.Spans e) (Source.loadAll body) := by
  cases body with
  | nil => exact keeps_ok nofun
  | cons e rest =>
    rw [Source.allReferences, List.forall_mem_append] at ok
    rw [Source.loadAll]
    exact keeps_seq (keeps_load ok.1) fun e first =>
      keeps_seq (keeps_loadAll ok.2) fun es all => keeps_ok (List.forall_mem_cons.mpr ⟨first, all⟩)

theorem keeps_loadOption {e : Option Source} (ok : ∀ r ∈ Source.optionReferences e, S.Has r) :
    S.Keeps (fun e => ∀ d, e = some d → S.Spans d) (Source.loadOption e) := by
  cases e with
  | none => exact keeps_ok nofun
  | some e =>
    rw [Source.optionReferences] at ok
    rw [Source.loadOption]
    refine keeps_seq (keeps_load ok) fun e read => keeps_ok fun d same => ?_
    cases same
    exact read

theorem keeps_loadArgs {args : List SourceArg} (ok : ∀ r ∈ SourceArg.allReferences args, S.Has r) :
    S.Keeps (fun args => ∀ a ∈ args, S.Spans a.value) (SourceArg.loadAll args) := by
  cases args with
  | nil => exact keeps_ok nofun
  | cons a rest =>
    obtain ⟨name, e⟩ := a
    rw [SourceArg.allReferences, List.forall_mem_append] at ok
    rw [SourceArg.loadAll]
    exact keeps_seq (keeps_load ok.1) fun e first =>
      keeps_seq (keeps_loadArgs ok.2) fun es all => keeps_ok (List.forall_mem_cons.mpr ⟨first, all⟩)

theorem keeps_loadFormals {formals : List SourceFormal}
    (ok : ∀ r ∈ SourceFormal.allReferences formals, S.Has r) :
    S.Keeps (fun formals => ∀ f ∈ formals, ∀ e, f.default = some e → S.Spans e)
      (SourceFormal.loadAll formals) := by
  cases formals with
  | nil => exact keeps_ok nofun
  | cons f rest =>
    obtain ⟨name, default⟩ := f
    rw [SourceFormal.allReferences, List.forall_mem_append] at ok
    rw [SourceFormal.loadAll]
    exact keeps_seq (keeps_loadOption ok.1) fun default first =>
      keeps_seq (keeps_loadFormals ok.2) fun formals all =>
        keeps_ok (List.forall_mem_cons.mpr ⟨first, all⟩)

end

/-! Arguments of builtins. -/

variable {args : Arguments}

theorem CoversAll.argument (held : S.CoversAll args.values) (name : Name) (position : Nat) :
    S.CoversAny (args.get? name position) := fun v found => held v (Arguments.mem_values_of_get? found)

theorem fine_required (held : S.CoversAll args.values) (name : Name) (position : Nat) :
    Fine S.Covers (args.required name position) := by
  have ok := held.argument name position
  unfold Arguments.required
  split
  · rename_i v found
    exact ok v found
  · exact fine_error rfl

theorem fine_argument (args : Arguments) (name : Name) (position : Nat) :
    Fine Any (args.required name position) := by
  unfold Arguments.required
  split
  · trivial
  · exact fine_error rfl

theorem fine_requiredString (args : Arguments) (s : Store) (name : Name) (position : Nat) :
    Fine Any (args.requiredString s name position) := by
  refine fine_bind (fine_argument args name position) fun v _ => ?_
  split
  · trivial
  · exact fine_error rfl

end Scope
end CallByNeed
