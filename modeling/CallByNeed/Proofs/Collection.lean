import CallByNeed.Heap.Collect
import Mathlib.Data.Finset.Card
import Mathlib.Data.Finset.Range

/-!
Collection. What a value refers to is said one kind of reference at a time, and what a collection keeps as
what the roots lead to. Tracing values finds their references whatever objects hold one another, since a
shortest way to an environment passes no object twice. Marking visits a slot once, so as many rounds as there
are slots come to an end. So a collection frees exactly the frames nothing leads to, leaves the others as they
are, and what these refer to stays valid.
-/
namespace CallByNeed

namespace Store

variable {s : Store} {v w : Value} {e : EnvId} {n : Nat}

/-- A value refers to an environment, of its own or through the values it holds. -/
inductive Refers (s : Store) : Value → EnvId → Prop
  | environment (id : EnvId) : Refers s (.environment id) id
  | closure (id : ClosureId) (f : Function) (env : EnvId) : Refers s (.closure id f env) env
  | pending {id : PromiseId} {env : EnvId} (state : (s.promise id).state.env? = some env) :
    Refers s (.promise id) env
  | forced {id : PromiseId} {w : Value} {e : EnvId} (state : (s.promise id).state.value? = some w)
    (refers : Refers s w e) : Refers s (.promise id) e
  | eager {id : PromiseId} {ahead : EagerValue} {e : EnvId} (some : (s.promise id).eager = some ahead)
    (refers : Refers s ahead.value e) : Refers s (.promise id) e
  | argument {id : DotsId} {w : Value} {e : EnvId} (member : w ∈ (s.dotsAt id).values)
    (refers : Refers s w e) : Refers s (.dots id) e
  | element {id : VectorId} {w : Value} {e : EnvId} (member : w ∈ (s.elements id).children)
    (refers : Refers s w e) : Refers s (.vector id) e
  | attributeValue {id : VectorId} {w : Value} {e : EnvId} (member : w ∈ (s.container id).attributes.values)
    (refers : Refers s w e) : Refers s (.vector id) e

theorem refers_own (own : s.ownEnvironment v = some e) : s.Refers v e := by
  cases v with
  | environment id =>
    cases own
    exact .environment e
  | closure id f env =>
    cases own
    exact .closure id f e
  | promise id => exact .pending own
  | _ => cases own

theorem refers_of_held (held : w ∈ s.held v) (refers : s.Refers w e) : s.Refers v e := by
  cases v with
  | vector id =>
    rcases List.mem_append.mp held with member | member
    · exact .element member refers
    · exact .attributeValue member refers
  | promise id =>
    rcases List.mem_append.mp held with value | ahead
    · exact .forced (Option.mem_toList.mp value) refers
    · obtain ⟨eager, some, rfl⟩ := Option.map_eq_some_iff.mp (Option.mem_toList.mp ahead)
      exact .eager some refers
  | dots id => exact .argument held refers
  | _ => cases held

theorem refers_of_mem_environmentsWithin (found : e ∈ s.environmentsWithin n v) : s.Refers v e := by
  induction n generalizing v with
  | zero => cases found
  | succ n ih =>
    rcases List.mem_append.mp found with own | through
    · exact refers_own (Option.mem_toList.mp own)
    · obtain ⟨w, held, found⟩ := List.mem_flatMap.mp through
      exact refers_of_held held (ih found)

theorem environmentsWithin_held (held : w ∈ s.held v) (found : e ∈ s.environmentsWithin n w) :
    e ∈ s.environmentsWithin (n + 1) v :=
  List.mem_append_right _ (List.mem_flatMap.mpr ⟨w, held, found⟩)

/-- Some depth is enough for each reference. -/
theorem exists_environmentsWithin (refers : s.Refers v e) : ∃ n, e ∈ s.environmentsWithin n v := by
  have through {v w : Value} (held : w ∈ s.held v) (found : ∃ n, e ∈ s.environmentsWithin n w) :
      ∃ n, e ∈ s.environmentsWithin n v := by
    obtain ⟨n, found⟩ := found
    exact ⟨n + 1, environmentsWithin_held held found⟩
  induction refers with
  | environment id => exact ⟨1, List.mem_append_left _ (Option.mem_toList.mpr rfl)⟩
  | closure id f env => exact ⟨1, List.mem_append_left _ (Option.mem_toList.mpr rfl)⟩
  | pending state => exact ⟨1, List.mem_append_left _ (Option.mem_toList.mpr state)⟩
  | forced state _ ih => exact through (List.mem_append_left _ (Option.mem_toList.mpr state)) (ih through)
  | eager some _ ih =>
    refine through (List.mem_append_right _ (Option.mem_toList.mpr ?_)) (ih through)
    rw [some]
    rfl
  | argument member _ ih => exact through member (ih through)
  | element member _ ih => exact through (List.mem_append_left _ member) (ih through)
  | attributeValue member _ ih => exact through (List.mem_append_right _ member) (ih through)

/-! A shortest way to an environment passes no object twice. -/

/-- The value is an object of the store. -/
def Inside (s : Store) : Value → Prop
  | .vector id => id.index < s.vectors.size
  | .promise id => id.index < s.promises.size
  | .dots id => id.index < s.dots.size
  | _ => False

/-- The place of an object among all of them. -/
def place (s : Store) : Value → Nat
  | .vector id => id.index
  | .promise id => s.vectors.size + id.index
  | .dots id => s.vectors.size + s.promises.size + id.index
  | _ => 0

theorem place_lt (inside : s.Inside v) : s.place v < s.vectors.size + s.promises.size + s.dots.size := by
  cases v <;> simp only [Inside, place] at inside ⊢ <;> omega

theorem place_injective (inside : s.Inside v) (inside' : s.Inside w) (same : s.place v = s.place w) :
    v = w := by
  cases v <;> cases w <;> simp only [Inside, place] at inside inside' same <;> try omega
  · exact congrArg Value.vector (congrArg VectorId.mk same)
  · exact congrArg Value.promise (congrArg PromiseId.mk (by omega))
  · exact congrArg Value.dots (congrArg DotsId.mk (by omega))

/-- An id without an object holds nothing that refers to an environment. -/
theorem inside_of_held (held : w ∈ s.held v) (found : e ∈ s.environmentsWithin n w) : s.Inside v := by
  by_contra outside
  cases v with
  | vector id =>
    have absent : s.vectors[id.index]? = none := Array.getElem?_eq_none (Nat.le_of_not_lt outside)
    simp only [Store.held, Store.elements, Store.container, absent] at held
    cases held
  | promise id =>
    have absent : s.promises[id.index]? = none := Array.getElem?_eq_none (Nat.le_of_not_lt outside)
    simp only [Store.held, Store.promise, absent] at held
    -- Such an id reads as a promise whose value is null.
    rcases List.mem_append.mp held with value | ahead
    · cases Option.mem_toList.mp value
      cases n <;> cases found
    · cases ahead
  | dots id =>
    have absent : s.dots[id.index]? = none := Array.getElem?_eq_none (Nat.le_of_not_lt outside)
    simp only [Store.held, Store.dotsAt, absent] at held
    cases held
  | _ => cases held

theorem environmentsWithin_mono {m : Nat} (le : n ≤ m) (found : e ∈ s.environmentsWithin n v) :
    e ∈ s.environmentsWithin m v := by
  induction n generalizing v m with
  | zero => cases found
  | succ n ih =>
    obtain ⟨m, rfl⟩ := Nat.exists_eq_add_of_le' (Nat.le_trans (Nat.le_add_left 1 n) le)
    rcases List.mem_append.mp found with own | through
    · exact List.mem_append_left _ own
    · obtain ⟨w, held, found⟩ := List.mem_flatMap.mp through
      exact environmentsWithin_held held (ih (Nat.le_of_succ_le_succ le) found)

/-- The environment is found at a depth and not before. -/
def Deep (s : Store) (e : EnvId) (n : Nat) (v : Value) : Prop :=
  e ∈ s.environmentsWithin (n + 1) v ∧ e ∉ s.environmentsWithin n v

theorem Deep.unique {m : Nat} (deep : s.Deep e n v) (deep' : s.Deep e m v) : n = m := by
  have le {n m : Nat} (deep : s.Deep e n v) (deep' : s.Deep e m v) : n ≤ m := by
    by_contra less
    exact deep.2 (environmentsWithin_mono (by omega) deep'.1)
  exact Nat.le_antisymm (le deep deep') (le deep' deep)

/-- What lies deeper than one step is held by the value, one step less deep. -/
theorem Deep.held (deep : s.Deep e (n + 1) v) : ∃ w ∈ s.held v, s.Deep e n w := by
  rcases List.mem_append.mp deep.1 with own | through
  · exact absurd (List.mem_append_left _ own) deep.2
  · obtain ⟨w, held, found⟩ := List.mem_flatMap.mp through
    exact ⟨w, held, found, fun before => deep.2 (environmentsWithin_held held before)⟩

/-- A value from which an environment is `n` steps away leads there past as many objects. -/
theorem Deep.objects (deep : s.Deep e n v) : ∃ places : Finset Nat, places.card = n ∧
    ∀ i ∈ places, ∃ w m, s.Inside w ∧ s.place w = i ∧ s.Deep e m w ∧ m ≤ n := by
  induction n generalizing v with
  | zero => exact ⟨∅, rfl, fun i member => absurd member (Finset.notMem_empty i)⟩
  | succ n ih =>
    obtain ⟨w, held, lower⟩ := deep.held
    obtain ⟨places, card, known⟩ := ih lower
    have inside : s.Inside v := inside_of_held held lower.1
    have new : s.place v ∉ places := by
      intro member
      obtain ⟨u, m, inside', same, deep', le⟩ := known _ member
      have equal : u = v := place_injective inside' inside same
      subst equal
      have depth := deep.unique deep'
      omega
    refine ⟨insert (s.place v) places, ?_, ?_⟩
    · rw [Finset.card_insert_of_notMem new, card]
    · intro i member
      rcases Finset.mem_insert.mp member with rfl | old
      · exact ⟨v, n + 1, inside, rfl, deep, Nat.le_refl _⟩
      · obtain ⟨u, m, inside', same, deep', le⟩ := known i old
        exact ⟨u, m, inside', same, deep', Nat.le_succ_of_le le⟩

theorem Deep.le (deep : s.Deep e n v) : n ≤ s.vectors.size + s.promises.size + s.dots.size := by
  obtain ⟨places, card, known⟩ := deep.objects
  have range : places ⊆ Finset.range (s.vectors.size + s.promises.size + s.dots.size) := by
    intro i member
    obtain ⟨w, m, inside, rfl, -⟩ := known i member
    exact Finset.mem_range.mpr (place_lt inside)
  have le := Finset.card_le_card range
  rwa [card, Finset.card_range] at le

theorem exists_deep (found : e ∈ s.environmentsWithin n v) : ∃ m, s.Deep e m v := by
  induction n with
  | zero => cases found
  | succ n ih =>
    by_cases before : e ∈ s.environmentsWithin n v
    · exact ih before
    · exact ⟨n, found, before⟩

/-- Tracing a value finds exactly the environments it refers to. -/
theorem mem_environments_iff : e ∈ s.environments v ↔ s.Refers v e := by
  constructor
  · exact refers_of_mem_environmentsWithin
  · intro refers
    obtain ⟨n, found⟩ := exists_environmentsWithin refers
    obtain ⟨m, deep⟩ := exists_deep found
    exact environmentsWithin_mono (Nat.succ_le_succ deep.le) deep.1

end Store

/-- A frame refers to its parent and to what its bindings refer to. -/
def Frame.Refers (f : Frame) (s : Store) (e : EnvId) : Prop :=
  f.parent = some e ∨ ∃ v ∈ f.bindings.values, s.Refers v e

theorem Frame.mem_references_iff {f : Frame} {s : Store} {e : EnvId} :
    e ∈ f.references s ↔ f.Refers s e := by
  unfold Frame.references Frame.Refers
  rw [List.mem_append, Option.mem_toList, List.mem_flatMap]
  simp only [Store.mem_environments_iff]

namespace Heap

variable {h : Heap} {s : Store} {roots frontier : List EnvId} {values : List Value} {marked : List Nat}
  {id e : EnvId} {f : Frame} {i : Nat}

/-- The frame is alive, and the roots or the values lead there past frames that are alive. -/
inductive Reached (h : Heap) (s : Store) (roots : List EnvId) (values : List Value) : EnvId → Prop
  | root {id : EnvId} (member : id ∈ roots) (alive : h.contains id) : Reached h s roots values id
  | value {v : Value} {id : EnvId} (member : v ∈ values) (refers : s.Refers v id) (alive : h.contains id) :
    Reached h s roots values id
  | frame {id e : EnvId} {f : Frame} (reached : Reached h s roots values id) (found : h.frame? id = some f)
    (refers : f.Refers s e) (alive : h.contains e) : Reached h s roots values e

theorem Reached.contains (reached : h.Reached s roots values id) : h.contains id := by
  cases reached <;> assumption

theorem contains_iff_exists : h.contains id ↔ ∃ f, h.frame? id = some f := Option.isSome_iff_exists

theorem frame?_eq_some_iff : h.frame? id = some f ↔
    ∃ slot, h.slots[id.index]? = some slot ∧ slot.generation = id.generation ∧ slot.frame = some f := by
  unfold frame?
  cases h.slots[id.index]? with
  | none => simp
  | some slot => by_cases same : slot.generation = id.generation <;> simp [same]

theorem index_lt (alive : h.contains id) : id.index < h.slots.size := by
  obtain ⟨f, found⟩ := contains_iff_exists.mp alive
  obtain ⟨slot, there, -⟩ := frame?_eq_some_iff.mp found
  exact (Array.getElem?_eq_some_iff.mp there).1

/-- A slot holds one frame at a time. -/
theorem eq_of_index_eq (alive : h.contains id) (alive' : h.contains e) (same : id.index = e.index) :
    id = e := by
  obtain ⟨f, found⟩ := contains_iff_exists.mp alive
  obtain ⟨g, found'⟩ := contains_iff_exists.mp alive'
  obtain ⟨slot, there, generation, -⟩ := frame?_eq_some_iff.mp found
  obtain ⟨slot', there', generation', -⟩ := frame?_eq_some_iff.mp found'
  rw [same, there'] at there
  cases there
  cases id
  cases e
  simp_all

/-! Marking. -/

/-- The frames of a frontier that a round of marking takes up. -/
def fresh (h : Heap) (frontier : List EnvId) (marked : List Nat) : List EnvId :=
  (frontier.filter fun id => h.contains id && !marked.contains id.index).eraseDups

theorem mem_fresh_iff : id ∈ h.fresh frontier marked ↔
    id ∈ frontier ∧ h.contains id ∧ id.index ∉ marked := by
  simp [fresh, List.mem_eraseDups]

theorem nodup_eraseDups (ids : List EnvId) : ids.eraseDups.Nodup := by
  induction len : ids.length using Nat.strongRecOn generalizing ids with
  | ind n ih =>
    cases ids with
    | nil => exact .nil
    | cons id ids =>
      rw [List.eraseDups_cons, List.nodup_cons]
      refine ⟨by simp [List.mem_eraseDups], ih _ ?_ _ rfl⟩
      have le := List.length_filter_le (fun e => !e == id) ids
      rw [List.length_cons] at len
      omega

theorem fresh_nodup : (h.fresh frontier marked).Nodup := nodup_eraseDups _

/-- What the frames of a round refer to. -/
def onward (h : Heap) (s : Store) (ids : List EnvId) : List EnvId :=
  ids.flatMap fun id => ((h.frame? id).map (·.references s)).getD []

theorem mem_onward_iff {ids : List EnvId} : e ∈ h.onward s ids ↔
    ∃ id ∈ ids, ∃ f, h.frame? id = some f ∧ f.Refers s e := by
  unfold onward
  rw [List.mem_flatMap]
  refine exists_congr fun id => and_congr_right fun _ => ?_
  cases h.frame? id with
  | none => simp
  | some f => simp [Frame.mem_references_iff]

theorem mark_succ (rounds : Nat) : h.mark s (rounds + 1) frontier marked =
    if (h.fresh frontier marked).isEmpty then marked
    else h.mark s rounds (h.onward s (h.fresh frontier marked))
      (marked ++ (h.fresh frontier marked).map (·.index)) := rfl

/-- A slot is marked only if it was or if its frame is one that the frontier leads to. -/
theorem mark_sound {keep : EnvId → Prop} {rounds : Nat}
    (start : ∀ id ∈ frontier, h.contains id → keep id)
    (closed : ∀ id f e, keep id → h.frame? id = some f → f.Refers s e → h.contains e → keep e)
    (member : i ∈ h.mark s rounds frontier marked) :
    i ∈ marked ∨ ∃ id, keep id ∧ h.contains id ∧ id.index = i := by
  induction rounds generalizing frontier marked with
  | zero => exact .inl member
  | succ rounds ih =>
    rw [mark_succ] at member
    split at member
    · exact .inl member
    · have kept {id : EnvId} (new : id ∈ h.fresh frontier marked) : keep id ∧ h.contains id := by
        obtain ⟨member, alive, -⟩ := mem_fresh_iff.mp new
        exact ⟨start id member alive, alive⟩
      have next : ∀ e ∈ h.onward s (h.fresh frontier marked), h.contains e → keep e := by
        intro e member alive
        obtain ⟨id, new, f, found, refers⟩ := mem_onward_iff.mp member
        exact closed id f e (kept new).1 found refers alive
      rcases ih next member with before | reached
      · rcases List.mem_append.mp before with old | new
        · exact .inl old
        · obtain ⟨id, taken, rfl⟩ := List.mem_map.mp new
          exact .inr ⟨id, (kept taken).1, (kept taken).2, rfl⟩
      · exact .inr reached

/-- Frames in marked slots refer to frames in marked slots, or to ones that wait in the frontier. -/
def Settled (h : Heap) (s : Store) (frontier : List EnvId) (marked : List Nat) : Prop :=
  ∀ id f e, h.frame? id = some f → id.index ∈ marked → f.Refers s e → h.contains e →
    e.index ∈ marked ∨ e ∈ frontier

/-- Marked slots hold frames, and none is marked twice. -/
def Distinct (h : Heap) (marked : List Nat) : Prop := marked.Nodup ∧ ∀ i ∈ marked, i < h.slots.size

theorem Distinct.length_le (distinct : h.Distinct marked) : marked.length ≤ h.slots.size := by
  have range : marked ⊆ List.range h.slots.size := fun i member =>
    List.mem_range.mpr (distinct.2 i member)
  simpa using (List.subperm_of_subset distinct.1 range).length_le

theorem Distinct.round (distinct : h.Distinct marked) :
    h.Distinct (marked ++ (h.fresh frontier marked).map (·.index)) := by
  constructor
  · rw [List.nodup_append]
    refine ⟨distinct.1, ?_, ?_⟩
    · refine List.Nodup.map_on ?_ fresh_nodup
      intro id member e member' same
      exact eq_of_index_eq (mem_fresh_iff.mp member).2.1 (mem_fresh_iff.mp member').2.1 same
    · intro i old j new same
      obtain ⟨id, taken, rfl⟩ := List.mem_map.mp new
      exact (mem_fresh_iff.mp taken).2.2 (same ▸ old)
  · intro i member
    rcases List.mem_append.mp member with old | new
    · exact distinct.2 i old
    · obtain ⟨id, taken, rfl⟩ := List.mem_map.mp new
      exact index_lt (mem_fresh_iff.mp taken).2.1

theorem Settled.round (settled : h.Settled s frontier marked) :
    h.Settled s (h.onward s (h.fresh frontier marked))
      (marked ++ (h.fresh frontier marked).map (·.index)) := by
  intro id f e found member refers alive
  rcases List.mem_append.mp member with old | new
  · refine .inl ?_
    rcases settled id f e found old refers alive with there | waits
    · exact List.mem_append_left _ there
    · by_cases there : e.index ∈ marked
      · exact List.mem_append_left _ there
      · exact List.mem_append_right _ (List.mem_map_of_mem (mem_fresh_iff.mpr ⟨waits, alive, there⟩))
  · obtain ⟨id', taken, same⟩ := List.mem_map.mp new
    have equal : id' = id :=
      eq_of_index_eq (mem_fresh_iff.mp taken).2.1 (contains_iff_exists.mpr ⟨f, found⟩) same
    subst equal
    exact .inr (mem_onward_iff.mpr ⟨id', taken, f, found, refers⟩)

/-- With a round for each slot that is not marked yet and one more, marking comes to an end: what was marked
stays so, the frontier is marked, and marked frames refer to marked ones. -/
theorem mark_complete {rounds : Nat} (distinct : h.Distinct marked) (settled : h.Settled s frontier marked)
    (enough : h.slots.size < rounds + marked.length) :
    (∀ i ∈ marked, i ∈ h.mark s rounds frontier marked) ∧
      (∀ id ∈ frontier, h.contains id → id.index ∈ h.mark s rounds frontier marked) ∧
      h.Settled s [] (h.mark s rounds frontier marked) := by
  induction rounds generalizing frontier marked with
  | zero =>
    have le := distinct.length_le
    omega
  | succ rounds ih =>
    rw [mark_succ]
    split
    · rename_i none
      have empty := List.isEmpty_iff.mp none
      have done : ∀ id ∈ frontier, h.contains id → id.index ∈ marked := by
        intro id member alive
        by_contra unmarked
        have new := mem_fresh_iff.mpr ⟨member, alive, unmarked⟩
        rw [empty] at new
        cases new
      refine ⟨fun i member => member, done, ?_⟩
      intro id f e found member refers alive
      rcases settled id f e found member refers alive with there | waits
      · exact .inl there
      · exact .inl (done e waits alive)
    · rename_i some
      have longer : 0 < (h.fresh frontier marked).length := by
        rw [List.isEmpty_iff] at some
        exact List.length_pos_iff.mpr some
      obtain ⟨keeps, -, ends⟩ := ih distinct.round settled.round (by
        rw [List.length_append, List.length_map]
        omega)
      refine ⟨fun i member => keeps i (List.mem_append_left _ member), ?_, ends⟩
      intro id member alive
      refine keeps _ ?_
      by_cases there : id.index ∈ marked
      · exact List.mem_append_left _ there
      · exact List.mem_append_right _ (List.mem_map_of_mem (mem_fresh_iff.mpr ⟨member, alive, there⟩))

/-- The slots marked from the roots and from what the values refer to are those of the frames reached. -/
theorem mem_reachable_iff : i ∈ h.reachable s (roots ++ values.flatMap s.environments) ↔
    ∃ id, h.Reached s roots values id ∧ id.index = i := by
  constructor
  · intro member
    have start : ∀ id ∈ roots ++ values.flatMap s.environments, h.contains id →
        h.Reached s roots values id := by
      intro id member alive
      rcases List.mem_append.mp member with root | value
      · exact .root root alive
      · obtain ⟨v, member, refers⟩ := List.mem_flatMap.mp value
        exact .value member (Store.mem_environments_iff.mp refers) alive
    have reached := mark_sound start (fun id f e reached found refers alive =>
      .frame reached found refers alive) member
    rcases reached with old | ⟨id, reached, -, rfl⟩
    · cases old
    · exact ⟨id, reached, rfl⟩
  · rintro ⟨id, reached, rfl⟩
    have distinct : h.Distinct [] := ⟨.nil, fun i member => by cases member⟩
    have settled : h.Settled s (roots ++ values.flatMap s.environments) [] := nofun
    have enough : h.slots.size < h.slots.size + 1 + [].length (α := Nat) := Nat.lt_succ_self _
    obtain ⟨-, start, closed⟩ := mark_complete distinct settled enough
    induction reached with
    | root member alive => exact start _ (List.mem_append_left _ member) alive
    | value member refers alive =>
      exact start _ (List.mem_append_right _ (List.mem_flatMap.mpr
        ⟨_, member, Store.mem_environments_iff.mpr refers⟩)) alive
    | frame _ found refers alive ih =>
      rcases closed _ _ _ found ih refers alive with there | waits
      · exact there
      · cases waits

/-! Sweeping. -/

theorem mem_garbage_iff : i ∈ h.garbage marked ↔
    (∃ slot, h.slots[i]? = some slot ∧ slot.frame.isSome) ∧ i ∉ marked := by
  unfold garbage
  rw [List.mem_filter, List.mem_range]
  constructor
  · rintro ⟨-, holds⟩
    simpa [Option.any_eq_true] using holds
  · rintro ⟨⟨slot, found, some⟩, unmarked⟩
    refine ⟨(Array.getElem?_eq_some_iff.mp found).1, ?_⟩
    simp [found, some, unmarked]

theorem garbage_nodup : (h.garbage marked).Nodup := List.nodup_range.filter _

/-- The slots after some of them are freed. -/
def sweep (freed : List Nat) (slots : Array Slot) : Array Slot :=
  freed.foldl (fun slots i => slots.modify i freeSlot) slots

theorem sweep_other {freed : List Nat} (slots : Array Slot) (other : i ∉ freed) :
    (sweep freed slots)[i]? = slots[i]? := by
  induction freed generalizing slots with
  | nil => rfl
  | cons j freed ih =>
    have ne : j ≠ i := fun same => other (same ▸ List.mem_cons_self)
    have rest := ih (slots.modify j freeSlot) fun member => other (List.mem_cons_of_mem _ member)
    unfold sweep at rest ⊢
    rw [List.foldl_cons, rest, Array.getElem?_modify, if_neg ne]

theorem sweep_freed {freed : List Nat} (slots : Array Slot) (member : i ∈ freed) :
    ∀ slot, (sweep freed slots)[i]? = some slot → slot.frame = none := by
  -- The last time the slot is freed settles it: nothing after that touches it.
  induction freed using List.reverseRecOn with
  | nil => cases member
  | append_singleton freed j ih =>
    intro slot found
    have step : sweep (freed ++ [j]) slots = (sweep freed slots).modify j freeSlot := List.foldl_append
    rw [step, Array.getElem?_modify] at found
    by_cases same : j = i
    · rw [if_pos same] at found
      obtain ⟨before, -, rfl⟩ := Option.map_eq_some_iff.mp found
      rfl
    · rw [if_neg same] at found
      have earlier : i ∈ freed := by simpa [Ne.symm same] using member
      exact ih earlier slot found

/-- A collection leaves the frames of the slots it marks, and no others. -/
theorem frame?_collect : (h.collect s roots values).2.frame? id =
    if id.index ∈ h.reachable s (roots ++ values.flatMap s.environments) then h.frame? id else none := by
  have slots : (h.collect s roots values).2.slots =
      sweep (h.garbage (h.reachable s (roots ++ values.flatMap s.environments))) h.slots := by
    simp only [collect, bumpEpoch]
    split <;> rfl
  unfold frame?
  rw [slots]
  by_cases freed : id.index ∈ h.garbage (h.reachable s (roots ++ values.flatMap s.environments))
  · rw [if_neg (mem_garbage_iff.mp freed).2]
    cases found : (sweep _ h.slots)[id.index]? with
    | none => rfl
    | some slot => simp [sweep_freed h.slots freed slot found]
  · rw [sweep_other h.slots freed]
    by_cases marked : id.index ∈ h.reachable s (roots ++ values.flatMap s.environments)
    · rw [if_pos marked]
    · rw [if_neg marked]
      cases found : h.slots[id.index]? with
      | none => rfl
      | some slot =>
        have empty : slot.frame = none := by
          by_contra some
          exact freed (mem_garbage_iff.mpr ⟨⟨slot, found, Option.isSome_iff_ne_none.mpr some⟩, marked⟩)
        simp [empty]

/-- The id of the frame in a slot. -/
def idAt (h : Heap) (i : Nat) : EnvId := ⟨i, (h.slots[i]?.map (·.generation)).getD 0⟩

theorem contains_idAt {slot : Slot} (found : h.slots[i]? = some slot) (some : slot.frame.isSome) :
    h.contains (h.idAt i) := by
  obtain ⟨f, there⟩ := Option.isSome_iff_exists.mp some
  exact contains_iff_exists.mpr ⟨f, frame?_eq_some_iff.mpr ⟨slot, found, by simp [idAt, found], there⟩⟩

/-- What is alive after a collection is as it was, and in a slot that was marked. -/
theorem kept_of_contains_collect (alive : (h.collect s roots values).2.contains id) :
    (h.collect s roots values).2.frame? id = h.frame? id ∧
      id.index ∈ h.reachable s (roots ++ values.flatMap s.environments) := by
  obtain ⟨f, found⟩ := contains_iff_exists.mp alive
  rw [frame?_collect] at found
  split at found
  · rename_i marked
    exact ⟨frame?_collect.trans (if_pos marked), marked⟩
  · cases found

theorem contains_collect_of_marked (alive : h.contains id)
    (marked : id.index ∈ h.reachable s (roots ++ values.flatMap s.environments)) :
    (h.collect s roots values).2.contains id := by
  unfold contains
  rw [frame?_collect, if_pos marked]
  exact alive

theorem contains_collect_iff :
    (h.collect s roots values).2.contains id ↔ h.Reached s roots values id := by
  constructor
  · intro alive
    obtain ⟨same, marked⟩ := kept_of_contains_collect alive
    obtain ⟨e, reached, index⟩ := mem_reachable_iff.mp marked
    have before : h.contains id := by
      unfold contains
      rwa [← same]
    rwa [eq_of_index_eq before reached.contains index.symm]
  · intro reached
    exact contains_collect_of_marked reached.contains (mem_reachable_iff.mpr ⟨id, reached, rfl⟩)

/-- The slots that are freed are those of the ids that were alive and no longer are. -/
theorem mem_freed_iff :
    id ∈ (h.garbage (h.reachable s (roots ++ values.flatMap s.environments))).map h.idAt ↔
      h.contains id ∧ ¬(h.collect s roots values).2.contains id := by
  constructor
  · intro member
    obtain ⟨i, garbage, rfl⟩ := List.mem_map.mp member
    obtain ⟨⟨slot, found, some⟩, unmarked⟩ := mem_garbage_iff.mp garbage
    exact ⟨contains_idAt found some, fun alive => unmarked (kept_of_contains_collect alive).2⟩
  · rintro ⟨alive, lost⟩
    obtain ⟨f, found⟩ := contains_iff_exists.mp alive
    obtain ⟨slot, there, generation, framed⟩ := frame?_eq_some_iff.mp found
    have some : slot.frame.isSome := Option.isSome_iff_exists.mpr ⟨f, framed⟩
    have garbage := mem_garbage_iff.mpr ⟨⟨slot, there, some⟩,
      fun marked => lost (contains_collect_of_marked alive marked)⟩
    exact List.mem_map.mpr ⟨id.index, garbage, eq_of_index_eq (contains_idAt there some) alive rfl⟩

/-- A collection is exact and closed: the frames alive after it are those reached, each as it was, with
whatever it refers to that was alive; and the count is the number of ids that no longer name a frame. -/
theorem collect_exact (h : Heap) (s : Store) (roots : List EnvId) (values : List Value) :
    let after := (h.collect s roots values).2
    (∀ id, after.contains id ↔ h.Reached s roots values id) ∧
      (∀ id, after.contains id → after.frame? id = h.frame? id) ∧
      (∀ id f e, after.frame? id = some f → f.Refers s e → h.contains e → after.contains e) ∧
      ∃ lost : List EnvId, lost.Nodup ∧ lost.length = (h.collect s roots values).1 ∧
        ∀ id, id ∈ lost ↔ h.contains id ∧ ¬after.contains id := by
  intro after
  refine ⟨fun _ => contains_collect_iff, fun _ alive => (kept_of_contains_collect alive).1, ?_, ?_⟩
  · intro id f e found refers alive
    have survives : after.contains id := contains_iff_exists.mpr ⟨f, found⟩
    refine contains_collect_iff.mpr (.frame (contains_collect_iff.mp survives) ?_ refers alive)
    rw [← (kept_of_contains_collect survives).1, found]
  · refine ⟨_, ?_, ?_, fun _ => mem_freed_iff⟩
    · exact garbage_nodup.map fun i j same => congrArg EnvId.index same
    · rw [List.length_map]
      rfl

end Heap

end CallByNeed
