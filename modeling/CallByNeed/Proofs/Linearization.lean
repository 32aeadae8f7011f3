import CallByNeed.Dispatch.ClassRegistry
import Mathlib

/-!
Superclasses in breadth-first order. The distances in the queue of a search never fall and differ by one at
most, so a class is met first at its least distance. Each declared link puts a class into the queue at most
once, so the queue runs empty, also where declarations form cycles. The search has then listed each class
that the links lead to once, with the length of a shortest path.
-/
namespace CallByNeed.ClassRegistry

variable {r : ClassRegistry} {start a b name : Name} {n d distance : Nat}

/-- A path of declared links from a class up to one of its superclasses. -/
inductive Path (r : ClassRegistry) (start : Name) : Name → Nat → Prop
  | here : Path r start start 0
  | up {a b : Name} {n : Nat} (below : Path r start a n) (declared : b ∈ r.superclasses a) :
    Path r start b (n + 1)

/-- The length of a shortest path. -/
def Distance (r : ClassRegistry) (start a : Name) (d : Nat) : Prop := IsLeast {n | r.Path start a n} d

theorem exists_path_iff :
    (∃ n, r.Path start a n) ↔ Relation.ReflTransGen (fun a b => b ∈ r.superclasses a) start a := by
  constructor
  · intro ⟨n, path⟩
    induction path with
    | here => exact .refl
    | up _ declared ih => exact ih.tail declared
  · intro reached
    induction reached with
    | refl => exact ⟨0, .here⟩
    | tail _ declared ih =>
      obtain ⟨n, path⟩ := ih
      exact ⟨n + 1, path.up declared⟩

/-! The search, one turn at a time. -/

/-- The superclasses of a class, as they are put into the queue. -/
def above (r : ClassRegistry) (name : Name) (distance : Nat) : List (Name × Nat) :=
  (r.superclasses name).map fun s => (s, distance + 1)

/-- Where a search stands: the classes to look at, and those listed already. -/
structure Search where
  queue : List (Name × Nat)
  order : List (Name × Nat)

/-- One turn of a search: a class listed before is passed over, and another one is listed. -/
inductive Turn (r : ClassRegistry) : Search → Search → Prop
  | again {name : Name} {distance : Nat} {queue order : List (Name × Nat)} (met : name ∈ order.map (·.1)) :
    Turn r ⟨(name, distance) :: queue, order⟩ ⟨queue, order⟩
  | visit {name : Name} {distance : Nat} {queue order : List (Name × Nat)} (new : name ∉ order.map (·.1)) :
    Turn r ⟨(name, distance) :: queue, order⟩
      ⟨queue ++ r.above name distance, order ++ [(name, distance)]⟩

/-- The declared links of the classes that are not listed. -/
def linksOutside (r : ClassRegistry) (order : List (Name × Nat)) : Nat :=
  (r.classes.entries.map fun e => if e.1 ∈ order.map (·.1) then 0 else e.2.length).sum

/-- What a search still has to look at, or may come to. -/
def Search.work (r : ClassRegistry) (s : Search) : Nat := s.queue.length + r.linksOutside s.order

theorem linksOutside_nil (r : ClassRegistry) : r.linksOutside [] = r.links := by
  simp [linksOutside, links, Table.values, List.sum_eq_foldl, Function.comp_def]

theorem linksOutside_append {order : List (Name × Nat)} (new : name ∉ order.map (·.1)) (distance : Nat) :
    (r.superclasses name).length + r.linksOutside (order ++ [(name, distance)]) ≤ r.linksOutside order := by
  unfold linksOutside superclasses get? Table.get?
  induction r.classes.entries with
  | nil => simp
  | cons e rest ih =>
    have shrinks : (rest.map fun e =>
        if e.1 ∈ (order ++ [(name, distance)]).map (·.1) then 0 else e.2.length).sum ≤
        (rest.map fun e => if e.1 ∈ order.map (·.1) then 0 else e.2.length).sum := by
      apply List.sum_le_sum
      intro e _
      by_cases listed : e.1 ∈ order.map (·.1)
      · have still : e.1 ∈ (order ++ [(name, distance)]).map (·.1) := by
          rw [List.map_append]
          exact List.mem_append_left _ listed
        rw [if_pos listed, if_pos still]
      · rw [if_neg listed]
        split <;> omega
    by_cases here : e.1 = name
    · subst here
      simp_all
    · have first : (e.1 ∈ (order ++ [(name, distance)]).map (·.1)) ↔ e.1 ∈ order.map (·.1) := by
        simp [here]
      simp only [List.map_cons, List.sum_cons, List.find?_cons, here, first, decide_false]
      omega

theorem Turn.work {s t : Search} (turn : r.Turn s t) : t.work r + 1 ≤ s.work r := by
  cases turn with
  | again met =>
    simp only [Search.work, List.length_cons]
    omega
  | @visit name distance queue order new =>
    have fewer := linksOutside_append (r := r) new distance
    simp only [Search.work, List.length_append, List.length_cons, above, List.length_map]
    omega

/-- A search that may take as many turns as there is work comes to an empty queue. -/
theorem search_turns (r : ClassRegistry) (n : Nat) (queue order : List (Name × Nat))
    (enough : Search.work r ⟨queue, order⟩ ≤ n) :
    Relation.ReflTransGen r.Turn ⟨queue, order⟩ ⟨[], r.search n queue order⟩ := by
  induction n generalizing queue order with
  | zero =>
    have empty : queue = [] := by
      simp only [Search.work] at enough
      apply List.eq_nil_of_length_eq_zero
      omega
    subst empty
    exact .refl
  | succ n ih =>
    cases queue with
    | nil => exact .refl
    | cons x queue =>
      obtain ⟨name, distance⟩ := x
      have listed : (order.any (·.1 = name)) = true ↔ name ∈ order.map (·.1) := by
        simp
      rw [search]
      split
      · rename_i met
        have turn : r.Turn ⟨(name, distance) :: queue, order⟩ ⟨queue, order⟩ := .again (listed.mp met)
        have less := turn.work
        exact .head turn (ih _ _ (by omega))
      · rename_i new
        have turn : r.Turn ⟨(name, distance) :: queue, order⟩
            ⟨queue ++ r.above name distance, order ++ [(name, distance)]⟩ :=
          .visit fun met => new (listed.mpr met)
        have less := turn.work
        exact .head turn (ih _ _ (by omega))

/-- A search from a class comes to an end. -/
theorem linearize_turns (r : ClassRegistry) (start : Name) :
    Relation.ReflTransGen r.Turn ⟨[(start, 0)], []⟩ ⟨[], r.linearize start⟩ := by
  apply search_turns
  simp only [Search.work, linksOutside_nil, List.length_singleton]
  omega

/-! What every turn keeps. -/

/-- The classes met lie on paths from the start. The distances of those listed and then those in the queue do
not fall, and in the queue they differ by one at most. What is above a listed class has been met. -/
structure Search.Explores (s : Search) (r : ClassRegistry) (start : Name) : Prop where
  paths : ∀ x ∈ s.order ++ s.queue, r.Path start x.1 x.2
  sorted : (s.order ++ s.queue).Pairwise fun x y => x.2 ≤ y.2
  near : ∀ x ∈ s.queue, ∀ y ∈ s.queue, y.2 ≤ x.2 + 1
  once : (s.order.map (·.1)).Nodup
  first : (s.order ++ s.queue).head? = some (start, 0)
  onward : ∀ x ∈ s.order, ∀ c ∈ r.superclasses x.1, ∃ d ≤ x.2 + 1, (c, d) ∈ s.order ++ s.queue

theorem explores_start (r : ClassRegistry) (start : Name) : Search.Explores ⟨[(start, 0)], []⟩ r start where
  paths := by simp [Path.here]
  sorted := by simp
  near := by simp
  once := by simp
  first := rfl
  onward := by simp

theorem mem_above : (b, n) ∈ r.above name distance ↔ b ∈ r.superclasses name ∧ n = distance + 1 := by
  simp [above, eq_comm]

theorem Search.Explores.again {queue order : List (Name × Nat)}
    (explores : Explores ⟨(name, distance) :: queue, order⟩ r start) (met : name ∈ order.map (·.1)) :
    Explores ⟨queue, order⟩ r start := by
  obtain ⟨paths, sorted, near, once, first, onward⟩ := explores
  dsimp only at paths sorted near once first onward
  have fewer : (order ++ queue).Sublist (order ++ (name, distance) :: queue) :=
    (List.Sublist.refl order).append (List.sublist_cons_self _ queue)
  refine ⟨?_, sorted.sublist fewer, ?_, once, ?_, ?_⟩
  · intro x member
    exact paths x (fewer.mem member)
  · intro x here y there
    exact near x (List.mem_cons_of_mem _ here) y (List.mem_cons_of_mem _ there)
  · cases order with
    | nil => simp at met
    | cons x order => exact first
  · intro x listed c declared
    obtain ⟨d, le, member⟩ := onward x listed c declared
    rcases List.mem_append.mp member with before | waiting
    · exact ⟨d, le, List.mem_append_left _ before⟩
    · rcases List.mem_cons.mp waiting with same | later
      · -- The class taken from the queue was listed before, at no greater distance.
        obtain ⟨rfl, rfl⟩ := Prod.mk.inj same
        obtain ⟨⟨c', e⟩, earlier, rfl⟩ := List.mem_map.mp met
        have closer : e ≤ d := (List.pairwise_append.mp sorted).2.2 _ earlier _ List.mem_cons_self
        exact ⟨e, closer.trans le, List.mem_append_left _ earlier⟩
      · exact ⟨d, le, List.mem_append_right _ later⟩

section Looking

variable {queue order : List (Name × Nat)} (explores : Search.Explores ⟨(name, distance) :: queue, order⟩ r start)

include explores

/-- No class met so far is farther than those above the one looked at. -/
theorem Search.Explores.ahead {x : Name × Nat} (met : x ∈ order ++ (name, distance) :: queue) :
    x.2 ≤ distance + 1 := by
  rcases List.mem_append.mp met with before | waiting
  · have le := (List.pairwise_append.mp explores.sorted).2.2 x before _ List.mem_cons_self
    exact Nat.le_succ_of_le le
  · exact explores.near _ List.mem_cons_self x waiting

theorem Search.Explores.behind {x : Name × Nat} (waiting : x ∈ queue) : distance ≤ x.2 :=
  (List.pairwise_cons.mp (List.pairwise_append.mp explores.sorted).2.1).1 x waiting

theorem Search.Explores.sorted_visit :
    ((order ++ (name, distance) :: queue) ++ r.above name distance).Pairwise fun x y => x.2 ≤ y.2 := by
  rw [List.pairwise_append]
  refine ⟨explores.sorted, ?_, ?_⟩
  · apply List.pairwise_of_forall_mem_list
    intro ⟨c, n⟩ left ⟨c', n'⟩ right
    have same := (mem_above.mp left).2
    have same' := (mem_above.mp right).2
    omega
  · intro x before ⟨c, n⟩ declared
    have here := explores.ahead before
    have same := (mem_above.mp declared).2
    omega

theorem Search.Explores.near_visit :
    ∀ x ∈ queue ++ r.above name distance, ∀ y ∈ queue ++ r.above name distance, y.2 ≤ x.2 + 1 := by
  intro x here y there
  have low : distance ≤ x.2 := by
    rcases List.mem_append.mp here with old | declared
    · exact explores.behind old
    · have same := (mem_above (n := x.2).mp declared).2
      omega
  have high : y.2 ≤ distance + 1 := by
    rcases List.mem_append.mp there with old | declared
    · exact explores.ahead (List.mem_append_right _ (List.mem_cons_of_mem _ old))
    · exact (mem_above (n := y.2).mp declared).2.le
  omega

theorem Search.Explores.visit (new : name ∉ order.map (·.1)) :
    Explores ⟨queue ++ r.above name distance, order ++ [(name, distance)]⟩ r start := by
  have sorted := explores.sorted_visit
  have near := explores.near_visit
  obtain ⟨paths, -, -, once, first, onward⟩ := explores
  dsimp only at paths once first onward
  have met : (order ++ [(name, distance)]) ++ (queue ++ r.above name distance) =
      (order ++ (name, distance) :: queue) ++ r.above name distance := by simp
  have path : r.Path start name distance :=
    paths (name, distance) (List.mem_append_right _ List.mem_cons_self)
  constructor
  · dsimp only
    rw [met]
    intro ⟨c, n⟩ member
    rcases List.mem_append.mp member with before | added
    · exact paths _ before
    · obtain ⟨declared, rfl⟩ := mem_above.mp added
      exact path.up declared
  · dsimp only
    rw [met]
    exact sorted
  · exact near
  · simp only [List.map_append, List.map_cons, List.map_nil]
    exact List.nodup_append_comm.mp (List.nodup_cons.mpr ⟨new, once⟩)
  · dsimp only
    rw [met, List.head?_append, first]
    rfl
  · dsimp only
    rw [met]
    intro x listed c declared
    rcases List.mem_append.mp listed with before | now
    · obtain ⟨d, le, member⟩ := onward x before c declared
      exact ⟨d, le, List.mem_append_left _ member⟩
    · rw [List.mem_singleton] at now
      subst now
      exact ⟨distance + 1, Nat.le_refl _, List.mem_append_right _ (mem_above.mpr ⟨declared, rfl⟩)⟩

end Looking

theorem Turn.explores {s t : Search} (turn : r.Turn s t) (explores : s.Explores r start) :
    t.Explores r start := by
  cases turn with
  | again met => exact explores.again met
  | visit new => exact explores.visit new

theorem explores_of_turns {s t : Search} (turns : Relation.ReflTransGen r.Turn s t)
    (explores : s.Explores r start) : t.Explores r start := by
  induction turns with
  | refl => exact explores
  | tail _ turn ih => exact turn.explores ih

theorem explores_linearize (r : ClassRegistry) (start : Name) :
    Search.Explores ⟨[], r.linearize start⟩ r start :=
  explores_of_turns (linearize_turns r start) (explores_start r start)

/-! What is listed in the end. -/

/-- Along each path the listed classes are no farther than the path is long. -/
theorem Path.listed (path : r.Path start a n) : ∃ d ≤ n, (a, d) ∈ r.linearize start := by
  obtain ⟨-, -, -, -, first, onward⟩ := explores_linearize r start
  simp only [List.append_nil] at first onward
  induction path with
  | here => exact ⟨0, Nat.le_refl _, List.mem_of_head? first⟩
  | up _ declared ih =>
    obtain ⟨d, le, member⟩ := ih
    obtain ⟨e, near, there⟩ := onward _ member _ declared
    exact ⟨e, near.trans (Nat.succ_le_succ le), there⟩

theorem linearize_nodup (r : ClassRegistry) (start : Name) : ((r.linearize start).map (·.1)).Nodup :=
  (explores_linearize r start).once

/-- The classes are listed with the lengths of shortest paths. -/
theorem mem_linearize_iff : (a, d) ∈ r.linearize start ↔ r.Distance start a d := by
  have unique {e e' : Nat} (here : (a, e) ∈ r.linearize start) (there : (a, e') ∈ r.linearize start) :
      e = e' := congrArg Prod.snd (List.inj_on_of_nodup_map (linearize_nodup r start) here there rfl)
  constructor
  · intro member
    constructor
    · exact (explores_linearize r start).paths (a, d) (List.mem_append_left _ member)
    · intro n path
      obtain ⟨e, le, there⟩ := Path.listed path
      rwa [unique member there]
  · intro ⟨path, least⟩
    obtain ⟨e, le, there⟩ := Path.listed path
    have other := (explores_linearize r start).paths (a, e) (List.mem_append_left _ there)
    rwa [Nat.le_antisymm (least other) le]

/-- The search ends, whatever the declarations are. It lists the classes that links lead to, each once and
with the length of a shortest path, in the order of these lengths, and the class itself first. -/
theorem linearize_breadth_first (r : ClassRegistry) (start : Name) :
    Relation.ReflTransGen r.Turn ⟨[(start, 0)], []⟩ ⟨[], r.linearize start⟩ ∧
      (∀ a, a ∈ (r.linearize start).map (·.1) ↔
        Relation.ReflTransGen (fun a b => b ∈ r.superclasses a) start a) ∧
      ((r.linearize start).map (·.1)).Nodup ∧
      (∀ a d, (a, d) ∈ r.linearize start → r.Distance start a d) ∧
      ((r.linearize start).Pairwise fun x y => x.2 ≤ y.2) ∧
      (r.linearize start).head? = some (start, 0) := by
  obtain ⟨-, sorted, -, once, first, -⟩ := explores_linearize r start
  simp only [List.append_nil] at sorted first
  refine ⟨linearize_turns r start, ?_, once, fun a d => mem_linearize_iff.mp, sorted, first⟩
  intro a
  rw [← exists_path_iff]
  constructor
  · intro member
    obtain ⟨⟨a, d⟩, listed, rfl⟩ := List.mem_map.mp member
    exact ⟨d, (mem_linearize_iff.mp listed).1⟩
  · intro ⟨n, path⟩
    obtain ⟨d, -, listed⟩ := path.listed
    exact List.mem_map_of_mem listed

/-- A cycle, a diamond and a class that is not declared. -/
example :
    let r := ((ClassRegistry.define {} "a" ["b", "c"]).define "b" ["d", "a"]).define "c" ["d", "e"]
    r.linearize "a" = [("a", 0), ("b", 1), ("c", 1), ("d", 2), ("e", 2)] := by
  decide

end CallByNeed.ClassRegistry
