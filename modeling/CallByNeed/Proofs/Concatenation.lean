import CallByNeed.Proofs.Conversion
import Mathlib.Order.Bounds.Basic

/-!
Concatenation. The type of the result is settled before anything is joined, as the highest of the arguments'
types, with a list above all where an argument is no vector. What is joined then has that type already, so
each element of each argument stands in the result, converted, and in order.
-/
namespace CallByNeed

open Elements

namespace Elements

/-- One after the other, parts of one type are joined to contents of that type. -/
inductive Joins : Elements → List Elements → Elements → Prop
  | done (xs : Elements) : Joins xs [] xs
  | step {xs ys zs : Elements} {parts : List Elements} (fits : xs.rank = ys.rank)
    (rest : Joins (xs.append ys) parts zs) : Joins xs (ys :: parts) zs

/-- Joining loses nothing exactly where the types agree: a part of another type is passed over. -/
theorem entries_append {xs ys : Elements} :
    (xs.append ys).rank = xs.rank ∧
      (xs.append ys).entries = xs.entries ++ if xs.rank = ys.rank then ys.entries else [] := by
  cases xs <;> cases ys <;> simp [append, entries, singletons, Elements.rank]

theorem joins_foldl {xs : Elements} {parts : List Elements} (fits : ∀ p ∈ parts, p.rank = xs.rank) :
    Joins xs parts (parts.foldl append xs) := by
  induction parts generalizing xs with
  | nil => exact .done xs
  | cons p rest ih =>
    obtain ⟨first, others⟩ := List.forall_mem_cons.mp fits
    exact .step first.symm (ih fun q member => (others q member).trans entries_append.1.symm)

/-- What was joined has the type it began with and the elements of all parts. -/
theorem Joins.entries {xs zs : Elements} {parts : List Elements} (joins : Joins xs parts zs) :
    zs.rank = xs.rank ∧ zs.entries = xs.entries ++ parts.flatMap Elements.entries := by
  induction joins with
  | done xs => simp
  | step fits rest ih =>
    obtain ⟨rank, entries⟩ := ih
    refine ⟨rank.trans entries_append.1, ?_⟩
    rw [entries, entries_append.2, if_pos fits, List.flatMap_cons, List.append_assoc]

theorem emptyOfRank_empty {rank : Nat} (le : rank ≤ listRank) :
    (emptyOfRank rank).rank = rank ∧ (emptyOfRank rank).entries = [] := by
  have cases : rank = 0 ∨ rank = 1 ∨ rank = 2 ∨ rank = 3 ∨ rank = 4 := by
    unfold listRank at le
    omega
  rcases cases with rfl | rfl | rfl | rfl | rfl <;> exact ⟨rfl, rfl⟩

end Elements

namespace Store

open Scope

/-- The type of an argument: what is no vector goes into a list. -/
def typeRank (s : Store) : Value → Nat
  | .vector c => (s.elements c).rank
  | _ => listRank

/-- The elements of an argument: what is no vector is one element. -/
def parts (s : Store) : Value → List Elements
  | .vector c => (s.elements c).entries
  | v => [.list [v]]

/-- The number of elements of an argument. -/
def size (s : Store) : Value → Nat
  | .vector c => (s.elements c).length
  | _ => 1

/-- An argument brought to an atomic type. -/
def widened (s : Store) (rank : Nat) : Value → Elements
  | .vector c => (s.elements c).widen rank
  | _ => emptyOfRank rank

/-- Some arguments one after the other, in contents of the highest of their types. Where these are atomic,
each argument is joined once it is of that type. -/
structure Concatenates (s t : Store) (values : List Value) (zs : Elements) : Prop where
  rank : IsGreatest {r | ∃ v ∈ values, s.typeRank v = r} zs.rank
  entries : List.Forall₂ (Converts s t zs.rank) (values.flatMap s.parts) zs.entries
  length : zs.length = (values.map s.size).sum
  joined : zs.rank < listRank → Joins (emptyOfRank zs.rank) (values.map (s.widened zs.rank)) zs

variable {s t u : Store}

theorem length_parts (s : Store) (v : Value) : (s.parts v).length = s.size v := by
  cases v with
  | vector c => exact length_entries _
  | _ => rfl

theorem typeRank_le (s : Store) (v : Value) : s.typeRank v ≤ listRank := by
  cases v with
  | vector c => exact rank_le_listRank _
  | _ => exact Nat.le_refl _

theorem isVector_of_typeRank {v : Value} (low : s.typeRank v < listRank) : ∃ c, v = .vector c := by
  cases v with
  | vector c => exact ⟨c, rfl⟩
  | _ => exact absurd low (Nat.lt_irrefl _)

theorem concatenates_of_entries {values : List Value} {zs : Elements}
    (rank : IsGreatest {r | ∃ v ∈ values, s.typeRank v = r} zs.rank)
    (entries : List.Forall₂ (Converts s t zs.rank) (values.flatMap s.parts) zs.entries)
    (joined : zs.rank < listRank → Joins (emptyOfRank zs.rank) (values.map (s.widened zs.rank)) zs) :
    Concatenates s t values zs := by
  refine ⟨rank, entries, ?_, joined⟩
  rw [← length_entries, ← entries.length_eq, List.length_flatMap]
  simp only [length_parts]

end Store

namespace Builtins

open Store Scope

variable {s t : Store}

theorem combinedRank_eq (s : Store) (values : List Value) :
    combinedRank s values = (values.map s.typeRank).foldl max 0 := by
  unfold combinedRank
  congr 1
  refine List.map_congr_left fun v _ => ?_
  cases v <;> rfl

theorem combinedRank_greatest {values : List Value} (some : values ≠ []) :
    IsGreatest {r | ∃ v ∈ values, s.typeRank v = r} (combinedRank s values) := by
  obtain ⟨m, highest⟩ := Option.isSome_iff_exists.mp
    (List.isSome_max?_of_ne_nil (fun none => some (List.map_eq_nil_iff.mp none)) :
      (values.map s.typeRank).max?.isSome)
  obtain ⟨member, above⟩ := List.max?_eq_some_iff.mp highest
  have same : combinedRank s values = m := by
    rw [combinedRank_eq, List.foldl_max, highest]
    exact Nat.max_eq_right (Nat.zero_le m)
  rw [same]
  refine ⟨List.mem_map.mp member, ?_⟩
  rintro r ⟨v, there, rfl⟩
  exact above _ (List.mem_map_of_mem there)

/-! Arguments for an atomic vector. -/

theorem mapM_atomicPart {rank : Nat} {values : List Value} (vectors : ∀ v ∈ values, ∃ c, v = .vector c)
    (s : Store) : values.mapM (atomicPart rank) s = (.ok (values.map (s.widened rank)), s) := by
  induction values with
  | nil => rfl
  | cons v rest ih =>
    obtain ⟨⟨c, rfl⟩, others⟩ := List.forall_mem_cons.mp vectors
    rw [List.mapM_cons, seq_apply]
    have first : atomicPart rank (.vector c) s = (.ok ((s.elements c).widen rank), s) := rfl
    rw [first]
    dsimp only
    rw [seq_apply, ih others]
    rfl

/-! Arguments for a list. -/

theorem coerce_items (xs : Elements) (s : Store) :
    coerce xs listRank s = (.list (items xs s).1, (items xs s).2) := by
  cases xs <;> rfl

theorem listPart_converts {v : Value} (known : ∀ c, v = .vector c → c.index < s.vectors.size)
    (grown : Grown s t) : ∃ fs u, listPart v t = (.ok fs, u) ∧ Grown t u ∧
      List.Forall₂ (Converts s u listRank) (s.parts v) (Elements.list fs).entries := by
  cases v with
  | vector c =>
    obtain ⟨-, same, -⟩ := grown.1 c (known c rfl)
    let xs := s.elements c
    let w := t.shareAll xs.children
    have shared : Grown t w := shareAll_moves xs.children t
    have moved : Grown w (coerce xs listRank w).2 := moves_coerce xs listRank w
    obtain ⟨-, each⟩ := converts_coerce (rank_le_listRank xs) (Nat.le_refl _) w
    rw [coerce_items] at moved each
    refine ⟨(items xs w).1, (items xs w).2, ?_, Chained.trans shared moved, ?_⟩
    · have run : listPart (.vector c) t = (.ok (items (t.elements c) (t.shareAll (t.elements c).children)).1,
          (items (t.elements c) (t.shareAll (t.elements c).children)).2) := rfl
      rw [run, show t.elements c = xs from same]
    · exact each.imp fun _ _ converts => converts.earlier (Nat.le_trans grown.2 shared.2)
  | _ => exact ⟨_, t, rfl, Chained.refl t, .cons (.plain (.same (Nat.le_refl _))) .nil⟩

theorem mapM_listPart {values : List Value} (known : ∀ c, .vector c ∈ values → c.index < s.vectors.size)
    (grown : Grown s t) : ∃ parts u, values.mapM listPart t = (.ok parts, u) ∧ Grown t u ∧
      List.Forall₂ (Converts s u listRank) (values.flatMap s.parts) (Elements.list parts.flatten).entries := by
  induction values generalizing t with
  | nil => exact ⟨[], t, rfl, Chained.refl t, .nil⟩
  | cons v rest ih =>
    obtain ⟨fs, w, first, made, each⟩ :=
      listPart_converts (fun c same => known c (same ▸ List.mem_cons_self)) grown
    obtain ⟨parts, u, others, more, all⟩ :=
      ih (fun c member => known c (List.mem_cons_of_mem _ member)) (Chained.trans grown made)
    refine ⟨fs :: parts, u, ?_, Chained.trans made more, ?_⟩
    · rw [List.mapM_cons, seq_apply, first]
      dsimp only
      rw [seq_apply, others]
      rfl
    · have kept := each.imp fun _ _ converts => converts.later fun f _ => more.1 f
      have split : (Elements.list (fs :: parts).flatten).entries =
          (Elements.list fs).entries ++ (Elements.list parts.flatten).entries := by
        simp [entries]
      rw [List.flatMap_cons, split]
      exact List.rel_append kept all

/-- Below lists every argument is a vector, and each is joined in the type they all have by then. -/
theorem concatenates_atomic {values : List Value} (some : values ≠ [])
    (low : combinedRank s values < listRank) (s' : Store) :
    Concatenates s s' values ((values.map (s.widened (combinedRank s values))).foldl append
      (emptyOfRank (combinedRank s values))) := by
  set rank := combinedRank s values
  have highest := combinedRank_greatest (s := s) some
  have below (v : Value) (member : v ∈ values) : s.typeRank v ≤ rank := highest.2 ⟨v, member, rfl⟩
  have typed (v : Value) (member : v ∈ values) : (s.widened rank v).rank = rank ∧
      (s.widened rank v).entries = (s.parts v).map (·.widen rank) := by
    obtain ⟨c, rfl⟩ := isVector_of_typeRank (Nat.lt_of_le_of_lt (below v member) low)
    have le : (s.elements c).rank ≤ rank := below _ member
    have atomic : (s.elements c).isList = false :=
      Bool.eq_false_iff.mpr fun list =>
        absurd ((isList_iff_rank _).mp list) (Nat.ne_of_lt (Nat.lt_of_le_of_lt le low))
    exact ⟨rank_widen le low, entries_widen atomic low⟩
  obtain ⟨emptyRank, nothing⟩ := emptyOfRank_empty (Nat.le_of_lt low)
  have fits : ∀ p ∈ values.map (s.widened rank), p.rank = (emptyOfRank rank).rank := by
    intro p member
    obtain ⟨v, there, rfl⟩ := List.mem_map.mp member
    exact (typed v there).1.trans emptyRank.symm
  have joins := joins_foldl fits
  obtain ⟨joinedRank, entries⟩ := joins.entries
  rw [emptyRank] at joinedRank
  have all : values.flatMap (fun v => (s.widened rank v).entries) =
      (values.flatMap s.parts).map (·.widen rank) := by
    rw [List.map_flatMap]
    exact List.flatMap_congr fun v member => (typed v member).2
  rw [nothing, List.nil_append, List.flatMap_map, all] at entries
  have each : List.Forall₂ (Converts s s' rank) (values.flatMap s.parts)
      ((values.flatMap s.parts).map (·.widen rank)) := by
    refine List.forall₂_map_right_iff.mpr (List.forall₂_same.mpr fun e member => .plain ?_)
    obtain ⟨v, there, inside⟩ := List.mem_flatMap.mp member
    obtain ⟨c, rfl⟩ := isVector_of_typeRank (Nat.lt_of_le_of_lt (below v there) low)
    exact becomes_widen inside (below _ there) low
  exact concatenates_of_entries (by rwa [joinedRank]) (by rwa [joinedRank, entries])
    (by rw [joinedRank]; exact fun _ => joins)

/-- A result is a new temporary vector, and what was there before has grown at most. -/
structure Returns (s t : Store) (v : Value) (zs : Elements) : Prop where
  result : ∃ c, v = .vector c ∧ s.vectors.size ≤ c.index ∧ t.container c = ⟨zs, {}, .temporary⟩
  grown : Grown s t

theorem returns_vector (grown : Grown s t) (zs : Elements) :
    Returns s (Store.vector zs t).2 (Store.vector zs t).1 zs := by
  refine ⟨⟨⟨t.vectors.size⟩, rfl, grown.2, ?_⟩, Chained.trans grown (moves_vector zs t)⟩
  exact (container_addVector t _ _).trans (if_pos rfl)

/-- Concatenation loses nothing. Where an argument other than `NULL` is left, a new vector is given, of the
highest of the types and with each element of each argument in its turn; it never fails. -/
theorem combine_loses_nothing {args : Arguments}
    (known : ∀ c, .vector c ∈ args.values → c.index < s.vectors.size) :
    let values := args.values.filter (!·.isNull)
    (values = [] ∧ combine args s = (.ok .null, s)) ∨
      ∃ v t zs, combine args s = (.ok v, t) ∧ Returns s t v zs ∧ Concatenates s t values zs := by
  intro values
  by_cases none : values = []
  · refine .inl ⟨none, ?_⟩
    unfold combine
    dsimp only
    rw [if_pos (List.isEmpty_iff.mpr none)]
    rfl
  refine .inr ?_
  have known' (c : VectorId) (member : .vector c ∈ values) : c.index < s.vectors.size :=
    known c (List.mem_of_mem_filter member)
  unfold combine
  dsimp only
  rw [if_neg fun empty => none (List.isEmpty_iff.mp empty), read_apply]
  have highest := combinedRank_greatest (s := s) none
  by_cases top : combinedRank s values = listRank
  · obtain ⟨parts, u, run, grown, each⟩ := mapM_listPart known' (Chained.refl s : Grown s s)
    refine ⟨_, (Store.vector (.list parts.flatten) u).2, .list parts.flatten, ?_,
      returns_vector grown _, concatenates_of_entries ?_ ?_ ?_⟩
    · rw [if_pos top, seq_apply, run]
      rfl
    · rw [top] at highest
      exact highest
    · have kept : Grown u (Store.vector (.list parts.flatten) u).2 := moves_vector _ u
      exact each.imp fun _ _ converts => converts.later fun f _ => kept.1 f
    · exact fun low => absurd low (Nat.lt_irrefl _)
  · have low : combinedRank s values < listRank := by
      obtain ⟨v, -, same⟩ := highest.1
      exact Nat.lt_of_le_of_ne (same ▸ typeRank_le s v) top
    have vectors (v : Value) (member : v ∈ values) : ∃ c, v = .vector c :=
      isVector_of_typeRank (Nat.lt_of_le_of_lt (highest.2 ⟨v, member, rfl⟩) low)
    refine ⟨_, _, _, ?_, returns_vector (Chained.refl s) _, concatenates_atomic none low _⟩
    rw [if_neg top, seq_apply, mapM_atomicPart vectors]
    rfl

/-- An integer, `NULL`, a list of one and a builtin become a list of three. -/
theorem combine_integer_list_builtin :
    let s : Store := { vectors := #[⟨.integer [7], {}, .nonShared⟩, ⟨.list [.missing], {}, .shared⟩] }
    let args : Arguments := ⟨[none, none, none, none], [.vector ⟨0⟩, .null, .vector ⟨1⟩, .builtin "c" 0]⟩
    (∀ c, .vector c ∈ args.values → c.index < s.vectors.size) ∧
      ∃ v t zs, combine args s = (.ok v, t) ∧ Returns s t v zs ∧
        Concatenates s t [.vector ⟨0⟩, .vector ⟨1⟩, .builtin "c" 0] zs := by
  intro s args
  have known : ∀ c, .vector c ∈ args.values → c.index < s.vectors.size := by
    intro c member
    simp only [args, List.mem_cons, Value.vector.injEq, reduceCtorEq, List.not_mem_nil, or_false,
      false_or] at member
    rcases member with rfl | rfl <;> decide
  refine ⟨known, ?_⟩
  rcases combine_loses_nothing known with ⟨none, -⟩ | found
  · cases none
  · exact found

end Builtins
end CallByNeed
