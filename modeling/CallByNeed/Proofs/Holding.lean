import CallByNeed.Interpreter

/-!
What tables, contents and arguments hold after an operation: what they held before and what was put in, and
nothing else.
-/
namespace CallByNeed

namespace Table

variable {κ α : Type} [DecidableEq κ] {t : Table κ α} {k : κ} {a b : α}

theorem mem_insert {entry : κ × α} (member : entry ∈ (t.insert k a).entries) :
    entry = (k, a) ∨ entry ∈ t.entries := by
  obtain ⟨entries⟩ := t
  change entry ∈ put k a entries at member
  induction entries with
  | nil => exact .inl (List.mem_singleton.mp member)
  | cons first rest ih =>
    unfold put at member
    split at member
    · rcases List.mem_cons.mp member with new | old
      · exact .inl new
      · exact .inr (List.mem_cons_of_mem _ old)
    · rcases List.mem_cons.mp member with rfl | later
      · exact .inr List.mem_cons_self
      · exact (ih later).imp_right (List.mem_cons_of_mem _)

theorem mem_values_insert (member : b ∈ (t.insert k a).values) : b = a ∨ b ∈ t.values := by
  obtain ⟨entry, there, rfl⟩ := List.mem_map.mp member
  rcases mem_insert there with rfl | old
  · exact .inl rfl
  · exact .inr (List.mem_map_of_mem old)

theorem mem_values_erase (member : b ∈ (t.erase k).values) : b ∈ t.values := by
  obtain ⟨entry, there, rfl⟩ := List.mem_map.mp member
  exact List.mem_map_of_mem (List.mem_of_mem_eraseP there)

theorem mem_of_get? (found : t.get? k = some a) : (k, a) ∈ t.entries := by
  obtain ⟨⟨key, b⟩, there, rfl⟩ := Option.map_eq_some_iff.mp found
  have same : key = k := by simpa using List.find?_some there
  exact same ▸ List.mem_of_find?_eq_some there

theorem mem_values_of_get? (found : t.get? k = some a) : a ∈ t.values :=
  List.mem_map_of_mem (mem_of_get? found)

theorem length_insert_fresh (fresh : t.get? k = none) (a : α) :
    (t.insert k a).entries.length = t.entries.length + 1 := by
  obtain ⟨entries⟩ := t
  change (put k a entries).length = entries.length + 1
  have absent : entries.find? (·.1 = k) = none := by simpa [get?] using fresh
  clear fresh
  induction entries with
  | nil => rfl
  | cons e rest ih =>
    obtain ⟨other, b⟩ := e
    have apart : other ≠ k := by
      intro same
      simp [same] at absent
    have below : rest.find? (·.1 = k) = none := by simpa [apart] using absent
    simp [put, apart, ih below]

/-- Entries put in one after the other. -/
theorem mem_values_foldl_insert {entries : List (κ × α)}
    (member : a ∈ (entries.foldl (fun t e => t.insert e.1 e.2) t).values) :
    a ∈ entries.map (·.2) ∨ a ∈ t.values := by
  induction entries generalizing t with
  | nil => exact .inr member
  | cons e rest ih =>
    rcases ih member with later | here
    · exact .inl (List.mem_cons_of_mem _ later)
    · rcases mem_values_insert here with rfl | old
      · exact .inl List.mem_cons_self
      · exact .inr old

end Table

theorem MethodTable.mem_values_define {table : MethodTable} {key : String} {method v : Value}
    (member : v ∈ (table.define key method).methods.values) : v = method ∨ v ∈ table.methods.values := by
  have explicit (keys : List String) (t : Table String Value)
      (there : v ∈ (keys.foldl Table.erase t).values) : v ∈ t.values := by
    induction keys generalizing t with
    | nil => exact there
    | cons key rest ih => exact Table.mem_values_erase (ih _ there)
  exact (Table.mem_values_insert member).imp_right (explicit _ _)

namespace Session

variable {s : Session} {id : TableId}

/-- A table that is not there has no methods. -/
theorem mem_methods_tableAt {v : Value} (member : v ∈ (s.tableAt id).methods.values) :
    ∃ t ∈ s.tables, v ∈ t.methods.values := by
  unfold tableAt at member
  cases found : s.tables[id.index]? with
  | none =>
    rw [found] at member
    cases member
  | some t =>
    rw [found] at member
    exact ⟨t, Array.mem_of_getElem? found, member⟩

theorem mem_tables_setTable {t table : MethodTable} (member : t ∈ (s.setTable id table).tables) :
    t = table ∨ t ∈ s.tables := by
  obtain ⟨i, found⟩ := Array.mem_iff_getElem?.mp member
  change (s.tables.modify id.index fun _ => table)[i]? = some t at found
  rw [Array.getElem?_modify] at found
  split at found
  · obtain ⟨_, _, rfl⟩ := Option.map_eq_some_iff.mp found
    exact .inl rfl
  · exact .inr (Array.mem_of_getElem? found)

end Session

namespace Elements

variable {xs ys zs : Elements} {v w : Value} {i : Nat}

theorem mem_write {vs : List Value} (member : w ∈ write vs i v) : w = v ∨ w ∈ vs := by
  unfold write at member
  split at member
  · exact (List.mem_append.mp member).symm.imp_left List.mem_singleton.mp
  · exact (List.mem_or_eq_of_mem_set member).symm

/-- Contents converted up hold no values, if they were converted at all. -/
theorem mem_children_widen {rank : Nat} (member : v ∈ (xs.widen rank).children) : v ∈ xs.children := by
  unfold widen at member
  split at member
  · exact member
  · split at member
    · cases member
    · cases member
    · cases member
    · cases member

theorem mem_children_append (member : v ∈ (xs.append ys).children) : v ∈ xs.children ∨ v ∈ ys.children := by
  unfold append at member
  split at member
  · cases member
  · cases member
  · cases member
  · cases member
  · exact List.mem_append.mp member
  · exact .inl member

theorem mem_children_foldl {parts : List Elements} (member : v ∈ (parts.foldl append xs).children) :
    v ∈ xs.children ∨ ∃ ys ∈ parts, v ∈ ys.children := by
  induction parts generalizing xs with
  | nil => exact .inl member
  | cons ys rest ih =>
    rcases ih member with joined | ⟨zs, later, inside⟩
    · exact (mem_children_append joined).imp_right fun inside => ⟨ys, List.mem_cons_self, inside⟩
    · exact .inr ⟨zs, List.mem_cons_of_mem _ later, inside⟩

theorem mem_children_writeFirst (written : xs.writeFirst i ys = some zs) (member : v ∈ zs.children) :
    v ∈ ys.children ∨ v ∈ xs.children := by
  unfold writeFirst at written
  split at written
  · cases written
    cases member
  · cases written
    cases member
  · cases written
    cases member
  · cases written
    cases member
  · cases written
    rcases mem_write member with rfl | old
    · exact .inl List.mem_cons_self
    · exact .inr old
  · cases written

theorem children_emptyOfRank (rank : Nat) : (emptyOfRank rank).children = [] := by
  unfold emptyOfRank
  split <;> rfl

end Elements

theorem Store.mem_writeChild {vs : List Value} {i : Nat} {v w : Value} (member : w ∈ writeChild vs i v) :
    w = v ∨ w ∈ vs := by
  unfold writeChild at member
  split at member
  · exact .inr (List.eraseIdx_subset member)
  · exact Elements.mem_write member

namespace Arguments

variable {args : Arguments} {name : Name} {v : Value}

theorem mem_values_of_zip {entry : Option Name × Value} (member : entry ∈ args.names.zip args.values) :
    entry.2 ∈ args.values := (List.of_mem_zip member).2

theorem mem_values_of_rest {entry : Option Name × Value} (member : entry ∈ args.rest name) :
    entry.2 ∈ args.values := mem_values_of_zip (List.mem_filter.mp member).1

theorem mem_values_of_get? {position : Nat} (found : args.get? name position = some v) : v ∈ args.values := by
  have found := (Option.filter_eq_some_iff.mp found).1
  split at found
  · obtain ⟨i, _, there⟩ := Option.bind_eq_some_iff.mp found
    exact List.mem_of_getElem? there
  · obtain ⟨entry, member, rfl⟩ := List.mem_map.mp (List.mem_of_getElem? found)
    exact mem_values_of_zip (List.mem_filter.mp member).1

theorem mem_values_of_slots (member : v ∈ (Builtins.slots args).map (·.2)) : v ∈ args.values := by
  obtain ⟨entry, there, rfl⟩ := List.mem_map.mp member
  unfold Builtins.slots at there
  dsimp only at there
  split at there
  · exact mem_values_of_rest there
  · exact mem_values_of_rest (List.mem_of_mem_eraseP there)

end Arguments

theorem Supplied.mem_values_add {supplied : Supplied} {name : Option Name} {v w : Value}
    (member : w ∈ (supplied.add name v).values) : w = v ∨ w ∈ supplied.values := by
  unfold add at member
  split at member
  · exact (List.mem_or_eq_of_mem_set member).symm
  · exact (List.mem_append.mp member).symm.imp_left List.mem_singleton.mp

end CallByNeed
