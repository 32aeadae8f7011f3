import CallByNeed.Dispatch.Formal
import CallByNeed.Proofs.Linearization

/-!
The nearest method. An argument fits the classes that its class chain leads to, at the least sum of an index
in the chain and a distance from there, and the class for everything after all of these. What is inherited for
several arguments is a method for one such class each, and no other combination with a method has a smaller
total distance.
-/
namespace CallByNeed

variable {α β : Type}

theorem foldl_max_le_iff {l : List Nat} {m bound : Nat} :
    l.foldl max m ≤ bound ↔ m ≤ bound ∧ ∀ n ∈ l, n ≤ bound := by
  induction l generalizing m with
  | nil => simp
  | cons n l ih => simp [ih, and_assoc]

theorem mergeSort_sorted (rank : α → Nat) (l : List α) :
    (l.mergeSort fun x y => rank x ≤ rank y).Pairwise fun x y => rank x ≤ rank y := by
  have sorted : (l.mergeSort fun x y => rank x ≤ rank y).Pairwise fun x y => decide (rank x ≤ rank y) = true := by
    apply List.pairwise_mergeSort
    · intro x y z
      simpa using Nat.le_trans
    · intro x y
      simpa using Nat.le_total _ _
  simpa only [decide_eq_true_eq] using sorted

/-- The order of the combinations is that of the sum of their distances. -/
theorem totalDistance_eq_sum (c : List (Name × Nat)) : totalDistance c = (c.map (·.2)).sum := by
  rw [totalDistance, List.sum_eq_foldl]

/-- In a list in which the distances do not fall, the first pair of a name has its least distance. -/
theorem mem_firstOfEach_iff {l : List (Name × Nat)} (sorted : l.Pairwise fun x y => x.2 ≤ y.2) {a : Name}
    {d : Nat} : (a, d) ∈ firstOfEach l ↔ IsLeast {n | (a, n) ∈ l} d := by
  induction l with
  | nil => simp [firstOfEach, IsLeast]
  | cons x rest ih =>
    obtain ⟨name, e⟩ := x
    obtain ⟨least, later⟩ := List.pairwise_cons.mp sorted
    by_cases here : a = name
    · subst here
      have first : IsLeast {n | (a, n) ∈ (a, e) :: rest} e := by
        constructor
        · exact List.mem_cons_self
        · intro n member
          rcases List.mem_cons.mp member with same | there
          · exact (Prod.mk.inj same).2.ge
          · exact least _ there
      have only : (a, d) ∈ firstOfEach ((a, e) :: rest) ↔ d = e := by simp [firstOfEach]
      rw [only]
      constructor
      · rintro rfl
        exact first
      · intro other
        exact other.unique first
    · have same : {n | (a, n) ∈ (name, e) :: rest} = {n | (a, n) ∈ rest} := by simp [here]
      rw [same, ← ih later]
      simp [firstOfEach, here]

theorem firstOfEach_nodup (l : List (Name × Nat)) : ((firstOfEach l).map (·.1)).Nodup := by
  induction l with
  | nil => simp [firstOfEach]
  | cons x rest ih =>
    simp only [firstOfEach, List.map_cons, List.nodup_cons]
    constructor
    · simp
    · exact ih.sublist (List.filter_sublist.map _)

theorem mem_combinations_iff {xss : List (List α)} {c : List α} :
    c ∈ combinations xss ↔ List.Forall₂ (fun xs x => x ∈ xs) xss c := by
  induction xss generalizing c with
  | nil => simp [combinations]
  | cons xs rest ih =>
    cases c with
    | nil => simp [combinations]
    | cons x c => simp [combinations, ih]

/-- The first hit along a list in which the ranks do not fall has the least rank of all hits. -/
theorem findSome?_least {f : α → Option β} {rank : α → Nat} {l : List α} {b : β}
    (sorted : l.Pairwise fun x y => rank x ≤ rank y) (found : l.findSome? f = some b) :
    ∃ x ∈ l, f x = some b ∧ ∀ y ∈ l, (f y).isSome → rank x ≤ rank y := by
  obtain ⟨before, x, after, rfl, hit, passed⟩ := List.findSome?_eq_some_iff.mp found
  refine ⟨x, by simp, hit, ?_⟩
  intro y member some
  rcases List.mem_append.mp member with earlier | later
  · rw [passed y earlier] at some
    cases some
  · rcases List.mem_cons.mp later with rfl | behind
    · exact Nat.le_refl _
    · exact (List.pairwise_cons.mp (List.pairwise_append.mp sorted).2.1).1 y behind

namespace ClassRegistry

variable {r : ClassRegistry} {chain : List Name} {a : Name} {n d furthest : Nat}

/-- A member of a class chain leads to a class: its index and the length of a shortest path from it. -/
def Reaches (r : ClassRegistry) (chain : List Name) (a : Name) (n : Nat) : Prop :=
  ∃ i member d, chain[i]? = some member ∧ r.Distance member a d ∧ n = i + d

/-- The classes that fit an argument of a class chain, with their distances. The class for everything comes
one after the furthest of the others, unless the chain leads to it. -/
inductive Fits (r : ClassRegistry) (chain : List Name) : Name → Nat → Prop
  | inherited {a : Name} {d : Nat} (nearest : IsLeast {n | r.Reaches chain a n} d) : Fits r chain a d
  | any {furthest : Nat} (apart : ∀ n, ¬r.Reaches chain anyClass n)
    (bound : IsLUB {n | ∃ a, r.Reaches chain a n} furthest) : Fits r chain anyClass (furthest + 1)

/-- The classes that the members of a chain lead to. -/
def reached (r : ClassRegistry) (chain : List Name) : List (Name × Nat) :=
  chain.zipIdx.flatMap fun (name, i) => (r.linearize name).map fun (a, d) => (a, i + d)

theorem mem_reached_iff : (a, n) ∈ r.reached chain ↔ r.Reaches chain a n := by
  simp only [reached, Reaches, List.mem_flatMap, List.mem_map, Prod.exists, List.mem_zipIdx_iff_getElem?,
    mem_linearize_iff, Prod.mk.injEq]
  constructor
  · rintro ⟨member, i, there, a, d, distance, rfl, rfl⟩
    exact ⟨i, member, d, there, distance, rfl⟩
  · rintro ⟨i, member, d, there, distance, rfl⟩
    exact ⟨member, i, there, a, d, distance, rfl, rfl⟩

theorem furthest_isLUB (r : ClassRegistry) (chain : List Name) :
    IsLUB {n | ∃ a, r.Reaches chain a n} (((r.reached chain).map (·.2)).foldl max 0) := by
  rw [isLUB_iff_le_iff]
  intro bound
  rw [foldl_max_le_iff]
  simp only [upperBounds, Set.mem_ofPred_eq, List.mem_map, Prod.exists, mem_reached_iff]
  constructor
  · intro ⟨_, all⟩ n ⟨a, reaches⟩
    exact all n ⟨a, n, reaches, rfl⟩
  · intro all
    refine ⟨Nat.zero_le _, ?_⟩
    rintro _ ⟨a, n, reaches, rfl⟩
    exact all ⟨a, reaches⟩

/-- Fitting as a choice of the least of all distances, that of the class for everything among them. -/
theorem fits_iff (bound : IsLUB {n | ∃ a, r.Reaches chain a n} furthest) :
    r.Fits chain a d ↔ IsLeast {n | r.Reaches chain a n ∨ a = anyClass ∧ n = furthest + 1} d := by
  constructor
  · intro fits
    cases fits with
    | inherited nearest =>
      constructor
      · exact .inl nearest.1
      · rintro n (reaches | ⟨-, rfl⟩)
        · exact nearest.2 reaches
        · exact Nat.le_succ_of_le (bound.1 ⟨a, nearest.1⟩)
    | any apart bound' =>
      rw [bound.unique bound']
      constructor
      · exact .inr ⟨rfl, rfl⟩
      · rintro n (reaches | ⟨-, rfl⟩)
        · exact absurd reaches (apart n)
        · exact Nat.le_refl _
  · rintro ⟨reaches | ⟨rfl, rfl⟩, least⟩
    · exact .inherited ⟨reaches, fun n other => least (.inl other)⟩
    · apply Fits.any _ bound
      -- A class of the chain is nearer than the class for everything.
      intro n reaches
      have le := least (.inl reaches)
      have far := bound.1 ⟨anyClass, reaches⟩
      omega

theorem candidates_eq (r : ClassRegistry) (chain : List Name) : r.candidates chain =
    firstOfEach ((r.reached chain ++ [(anyClass, ((r.reached chain).map (·.2)).foldl max 0 + 1)]).mergeSort
      fun x y => x.2 ≤ y.2) := rfl

theorem mem_candidates_iff : (a, d) ∈ r.candidates chain ↔ r.Fits chain a d := by
  rw [fits_iff (furthest_isLUB r chain), candidates_eq, mem_firstOfEach_iff (mergeSort_sorted Prod.snd _)]
  simp only [List.mem_mergeSort, List.mem_append, List.mem_singleton, mem_reached_iff, Prod.mk.injEq]

theorem candidates_nodup (r : ClassRegistry) (chain : List Name) : ((r.candidates chain).map (·.1)).Nodup :=
  firstOfEach_nodup _

/-- One class for each argument, out of those that fit it. -/
def Combines (r : ClassRegistry) (chains : List (List Name)) (c : List (Name × Nat)) : Prop :=
  List.Forall₂ (fun chain x => r.Fits chain x.1 x.2) chains c

/-- The combinations in the order in which methods are looked for. -/
def ordered (r : ClassRegistry) (chains : List (List Name)) : List (List (Name × Nat)) :=
  (combinations (chains.map r.candidates)).mergeSort fun a b => totalDistance a ≤ totalDistance b

theorem mem_ordered_iff {chains : List (List Name)} {c : List (Name × Nat)} :
    c ∈ r.ordered chains ↔ r.Combines chains c := by
  simp only [ordered, List.mem_mergeSort, mem_combinations_iff, List.forall₂_map_left_iff, Combines,
    ← mem_candidates_iff]

theorem ordered_sorted (r : ClassRegistry) (chains : List (List Name)) :
    (r.ordered chains).Pairwise fun a b => totalDistance a ≤ totalDistance b :=
  mergeSort_sorted totalDistance _

end ClassRegistry

section Resolve

variable {r : ClassRegistry} {chains : List (List Name)} {table : MethodTable} {key : String}

/-- The method a table has for a combination of classes. -/
def MethodTable.methodFor? (t : MethodTable) (c : List (Name × Nat)) : Option Value :=
  t.peek? (dispatchKey (c.map (·.1)))

theorem resolve_nil : Resolver.resolve .superclasses r [] table key = none := rfl

theorem resolve_ordered (some : chains ≠ []) : Resolver.resolve .superclasses r chains table key =
    ((r.ordered chains).findSome? table.methodFor?).map (table.install key) := by
  have nonempty : chains.isEmpty = false := by simp [some]
  simp only [Resolver.resolve, nonempty]
  rfl

theorem resolve_eq_none_iff : Resolver.resolve .superclasses r chains table key = none ↔
    chains = [] ∨ ∀ c, r.Combines chains c → table.methodFor? c = none := by
  by_cases empty : chains = []
  · subst empty
    simp [resolve_nil]
  · simp [resolve_ordered empty, List.findSome?_eq_none_iff, ClassRegistry.mem_ordered_iff, empty]

/-- Something is inherited if and only if there are arguments, and the table has a method for one of the
combinations of classes that fit them. Then it is a method for which the distances have the least sum, and the
table gets it under the key it was looked for and is the same otherwise. The candidates of a class chain are
the classes that fit, each once. -/
theorem resolve_nearest (r : ClassRegistry) (chains : List (List Name)) (table : MethodTable) (key : String) :
    (∀ chain, ((r.candidates chain).map (·.1)).Nodup ∧ ∀ a d, (a, d) ∈ r.candidates chain ↔ r.Fits chain a d) ∧
      (Resolver.resolve .superclasses r chains table key = none ↔
        chains = [] ∨ ∀ c, r.Combines chains c → table.methodFor? c = none) ∧
      ∀ table', Resolver.resolve .superclasses r chains table key = some table' →
        ∃ c method, r.Combines chains c ∧ table.methodFor? c = some method ∧
          (∀ c', r.Combines chains c' → (table.methodFor? c').isSome →
            (c.map (·.2)).sum ≤ (c'.map (·.2)).sum) ∧
            table' = table.install key method ∧
              ∀ other, table'.peek? other = if key = other then some method else table.peek? other := by
  refine ⟨?_, resolve_eq_none_iff, ?_⟩
  · intro chain
    exact ⟨r.candidates_nodup chain, fun a d => ClassRegistry.mem_candidates_iff⟩
  · intro table' resolved
    have some : chains ≠ [] := by
      rintro rfl
      cases resolved
    rw [resolve_ordered some] at resolved
    obtain ⟨method, found, rfl⟩ := Option.map_eq_some_iff.mp resolved
    obtain ⟨c, member, hit, least⟩ := findSome?_least (r.ordered_sorted chains) found
    refine ⟨c, method, ClassRegistry.mem_ordered_iff.mp member, hit, ?_, rfl, ?_⟩
    · intro c' combines some
      simpa only [totalDistance_eq_sum] using least c' (ClassRegistry.mem_ordered_iff.mpr combines) some
    · intro other
      exact Table.get?_insert _ _ _ _

end Resolve
end CallByNeed
