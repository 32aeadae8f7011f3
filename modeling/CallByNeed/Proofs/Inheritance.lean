import CallByNeed.Dispatch.Formal
import Mathlib

/-!
Methods found by inheritance. A dispatch leaves what it found in the table, under the first classes of its
arguments, and in the cache of its call site. Later dispatches read both, so that one for other classes may
stop at such an entry where the methods that were defined have a nearer one. The outcome is that of the
defined methods alone as long as no such entry is met on the way to it, or those met agree with it.
-/
namespace CallByNeed

namespace Table

variable {κ α : Type} [DecidableEq κ] {t : Table κ α} {k q : κ} {a : α}

theorem mem_keys_put {entries : List (κ × α)} :
    q ∈ (put k a entries).map (·.1) ↔ q = k ∨ q ∈ entries.map (·.1) := by
  induction entries with
  | nil => simp [put]
  | cons e rest ih =>
    by_cases same : e.1 = k
    · simp [put, same]
    · simp only [put, same, if_false, List.map_cons, List.mem_cons, ih]
      grind

theorem nodup_keys_insert (nodup : t.keys.Nodup) : (t.insert k a).keys.Nodup := by
  obtain ⟨entries⟩ := t
  simp only [keys, insert] at nodup ⊢
  induction entries with
  | nil => simp [put]
  | cons e rest ih =>
    obtain ⟨new, old⟩ := List.nodup_cons.mp nodup
    by_cases same : e.1 = k
    · rw [put, if_pos same]
      exact List.nodup_cons.mpr ⟨same ▸ new, old⟩
    · rw [put, if_neg same]
      refine List.nodup_cons.mpr ⟨fun member => ?_, ih old⟩
      rcases mem_keys_put.mp member with equal | there
      · exact same equal
      · exact new there

theorem nodup_keys_erase (nodup : t.keys.Nodup) : (t.erase k).keys.Nodup :=
  nodup.sublist (List.Sublist.map _ List.eraseP_sublist)

theorem get?_eq_none_of_notMem (absent : q ∉ t.keys) : t.get? q = none := by
  unfold get?
  rw [Option.map_eq_none_iff, List.find?_eq_none]
  intro e member same
  refine absent (List.mem_map.mpr ⟨e, member, ?_⟩)
  simpa using same

theorem get?_erase (nodup : t.keys.Nodup) : (t.erase k).get? q = if k = q then none else t.get? q := by
  obtain ⟨entries⟩ := t
  induction entries with
  | nil => simp [erase, get?]
  | cons e rest ih =>
    obtain ⟨new, old⟩ := List.nodup_cons.mp nodup
    by_cases same : e.1 = k
    · have rest : (erase ⟨e :: rest⟩ k : Table κ α) = ⟨rest⟩ := by simp [erase, same]
      rw [rest]
      split
      · rename_i equal
        exact get?_eq_none_of_notMem (equal ▸ same ▸ new)
      · rename_i other
        have skipped : e.1 ≠ q := fun there => other (same.symm.trans there)
        simp [get?, skipped]
    · have step : (erase ⟨e :: rest⟩ k : Table κ α) = ⟨e :: (erase ⟨rest⟩ k : Table κ α).entries⟩ := by
        simp [erase, same]
      have inner := ih old
      rw [step]
      by_cases here : e.1 = q
      · have other : k ≠ q := fun equal => same (here.trans equal.symm)
        simp [get?, here, other]
      · simpa [get?, here] using inner

theorem get?_foldl_erase {ks : List κ} (nodup : t.keys.Nodup) :
    (ks.foldl erase t).keys.Nodup ∧
      (ks.foldl erase t).get? q = if q ∈ ks then none else t.get? q := by
  induction ks generalizing t with
  | nil => exact ⟨nodup, by simp⟩
  | cons k ks ih =>
    obtain ⟨after, found⟩ := ih (t := t.erase k) (nodup_keys_erase nodup)
    refine ⟨after, ?_⟩
    rw [List.foldl_cons, found, get?_erase nodup]
    grind

end Table

namespace DispatchCache

variable {c : DispatchCache} {generic g : Name} {classes : List ClassView} {names : List (List Name)}
  {stamp at' : Stamp} {m m' : CachedMethod}

/-- The cache holds a method for a generic and class names, stored with a stamp. -/
def Recalls (c : DispatchCache) (generic : Name) (names : List (List Name)) (stamp : Stamp)
    (m : CachedMethod) : Prop :=
  (∃ entry, c.last = some entry ∧ entry.generic = generic ∧ entry.names = names ∧ entry.stamp = stamp ∧
    entry.method = m) ∨ c.byNames.get? (generic, names) = some (stamp, m)

theorem not_recalls_empty : ¬({} : DispatchCache).Recalls generic names stamp m := by
  rintro (⟨entry, none, -⟩ | none) <;> cases none

theorem nameLists_of_fits {entry : IdentityEntry} (fits : IdentityEntry.fits entry generic classes stamp) :
    entry.generic = generic ∧ entry.names = nameLists classes ∧ entry.stamp = stamp := by
  simp only [IdentityEntry.fits, Bool.and_eq_true, beq_iff_eq] at fits
  obtain ⟨⟨⟨-, names⟩, generic⟩, stamp⟩ := fits
  refine ⟨generic, ?_, stamp⟩
  have lists : nameLists classes = (classes.map (·.names)).map (·.getD []) := by simp [nameLists]
  rw [lists, ← names, List.map_map]
  exact (List.map_id _).symm

theorem recalls_remember (held : (c.remember generic classes stamp m).Recalls g names at' m') :
    (g = generic ∧ names = nameLists classes ∧ at' = stamp ∧ m' = m) ∨ c.Recalls g names at' m' := by
  rcases held with ⟨entry, some, rfl, rfl, rfl, rfl⟩ | named
  · cases some
    exact .inl ⟨rfl, rfl, rfl, rfl⟩
  · exact .inr (.inr named)

/-- A lookup answers with what the cache holds for the names, stored with this very stamp, and makes it
hold nothing else. -/
theorem lookup_recalls {found : Option CachedMethod} {c' : DispatchCache}
    (run : c.lookup generic classes stamp = (found, c')) :
    (∀ m, found = some m → c.Recalls generic (nameLists classes) stamp m) ∧
      ∀ g names at' m, c'.Recalls g names at' m → c.Recalls g names at' m := by
  unfold lookup at run
  split at run
  · rename_i entry fits
    cases run
    obtain ⟨there, fits⟩ := Option.filter_eq_some_iff.mp fits
    obtain ⟨generic, names, stamped⟩ := nameLists_of_fits fits
    refine ⟨?_, fun _ _ _ _ held => held⟩
    intro m some
    cases some
    exact .inl ⟨entry, there, generic, names, stamped, rfl⟩
  · split at run
    · rename_i m named
      cases run
      obtain ⟨⟨at', m'⟩, kept, rfl⟩ := Option.map_eq_some_iff.mp named
      obtain ⟨there, same⟩ := Option.filter_eq_some_iff.mp kept
      have stamped : at' = stamp := by simpa using same
      subst stamped
      have known : c.Recalls generic (nameLists classes) at' m' := .inr there
      refine ⟨?_, fun g names at' m held => ?_⟩
      · intro m some
        cases some
        exact known
      · rcases recalls_remember held with ⟨rfl, rfl, rfl, rfl⟩ | before
        · exact known
        · exact before
    · cases run
      exact ⟨nofun, fun _ _ _ _ held => held⟩

theorem recalls_insert (held : (c.insert generic classes stamp m).Recalls g names at' m') :
    (g = generic ∧ names = nameLists classes ∧ at' = stamp ∧ m' = m) ∨ c.Recalls g names at' m' := by
  rcases held with ⟨entry, some, rfl, rfl, rfl, rfl⟩ | named
  · cases some
    exact .inl ⟨rfl, rfl, rfl, rfl⟩
  · have found : ((c.remember generic classes stamp m).byNames.insert (key generic classes) (stamp, m)).get?
        (g, names) = some (at', m') := named
    rw [Table.get?_insert] at found
    split at found
    · rename_i same
      obtain ⟨rfl, rfl⟩ := Prod.mk.inj (show (generic, nameLists classes) = (g, names) from same)
      cases found
      exact .inl ⟨rfl, rfl, rfl, rfl⟩
    · exact .inr (.inr found)

end DispatchCache

/-- The key a dispatch looks up first and installs what it inherits under. -/
def firstKey (names : List (List Name)) : String :=
  dispatchKey (names.map fun chain => chain.head?.getD anyClass)

/-- The keys a dispatch tries in turn. -/
def triedKeys (r : ClassRegistry) (names : List (List Name)) : List String :=
  firstKey names ::
    if names.isEmpty then []
    else ((combinations (names.map r.candidates)).mergeSort fun a b =>
      totalDistance a ≤ totalDistance b).map fun c => dispatchKey (c.map (·.1))

def DispatchResult.ofSearch : Option Value → DispatchResult
  | none => .notFound
  | some method => .of method (isBuiltin method)

theorem DispatchResult.ofSearch_some_ne (method : Value) :
    DispatchResult.ofSearch (some method) ≠ .notFound := by
  cases deferred : isBuiltin method <;> simp [ofSearch, of, deferred]

namespace MethodTable

variable {t : MethodTable} {r : ClassRegistry} {names : List (List Name)} {key : String}

/-- What a search of a table for some classes finds. -/
def search (t : MethodTable) (r : ClassRegistry) (names : List (List Name)) : Option Value :=
  (triedKeys r names).findSome? t.peek?

/-- The tables a dispatch may leave: one with the same entries, or one with the entry it inherited. -/
inductive Searched (t : MethodTable) (r : ClassRegistry) (names : List (List Name)) : MethodTable → Prop
  | same {after : MethodTable} (methods : after.methods = t.methods) (inherited : after.inherited = t.inherited)
    (version : after.version = t.version) : Searched t r names after
  | installed {after : MethodTable} {method : Value} (absent : t.peek? (firstKey names) = none)
    (found : t.search r names = some method)
    (methods : after.methods = t.methods.insert (firstKey names) method)
    (inherited : ∀ k, k ∈ after.inherited ↔ k = firstKey names ∨ k ∈ t.inherited)
    (version : after.version = t.version) : Searched t r names after

/-- Inheriting takes the first entry among the keys tried after the first one. -/
theorem resolve_superclasses (absent : t.peek? (firstKey names) = none) :
    Resolver.resolve .superclasses r names t key = (t.search r names).map (t.install key) := by
  simp only [Resolver.resolve, search, triedKeys, List.findSome?_cons, absent]
  by_cases empty : names.isEmpty
  · simp [empty]
  · simp only [empty, Bool.false_eq_true, if_false, List.findSome?_map]
    rfl

theorem tableMethod_searched (t : MethodTable) (r : ClassRegistry) (names : List (List Name)) :
    (tableMethod .superclasses r names t (firstKey names)).1 = t.search r names ∧
    t.Searched r names (tableMethod .superclasses r names t (firstKey names)).2 := by
  unfold tableMethod
  cases own : t.peek? (firstKey names) with
  | some method =>
    simp only [lookup, own]
    exact ⟨by simp [search, triedKeys, own], .same rfl rfl rfl⟩
  | none =>
    simp only [lookup, own]
    have absent : ({ t with lookups := t.lookups + 1 } : MethodTable).recordSlowPath.peek? (firstKey names) =
        none := own
    have same : ({ t with lookups := t.lookups + 1 } : MethodTable).recordSlowPath.search r names =
        t.search r names := rfl
    rw [resolve_superclasses absent, same]
    cases found : t.search r names with
    | none => exact ⟨rfl, .same rfl rfl rfl⟩
    | some method =>
      refine ⟨?_, .installed own found rfl ?_ rfl⟩
      · simp [peek?, install, Table.get?_insert]
      · intro k
        simp only [Option.map_some, install, recordSlowPath]
        split <;> simp_all

end MethodTable

section Dispatch

variable {r : ClassRegistry} {generic : Name} {classes : List ClassView} {t : MethodTable} {c : DispatchCache}

/-- A dispatch answers from the cache of its site, with the table as it was, or it searches the table and
stores what it finds. -/
theorem formalDispatch_cases {result : DispatchResult} {t' : MethodTable} {c' : DispatchCache}
    (run : formalDispatch .superclasses r generic classes t c = (result, t', c')) :
    (∃ m, c.Recalls generic (DispatchCache.nameLists classes) ⟨t.version, []⟩ m ∧
      result = .of m.method m.deferred ∧ t' = t ∧
      ∀ g names stamp m, c'.Recalls g names stamp m → c.Recalls g names stamp m) ∨
    (c.lookup generic classes ⟨t.version, []⟩).1 = none ∧
      result = .ofSearch (t.search r (DispatchCache.nameLists classes)) ∧
      t.Searched r (DispatchCache.nameLists classes) t' ∧
      ∀ g names stamp m, c'.Recalls g names stamp m → c.Recalls g names stamp m ∨
        g = generic ∧ names = DispatchCache.nameLists classes ∧ stamp = ⟨t.version, []⟩ ∧
          result = .of m.method m.deferred := by
  rcases looked : c.lookup generic classes ⟨t.version, []⟩ with ⟨found, c₁⟩
  obtain ⟨hit, keeps⟩ := DispatchCache.lookup_recalls looked
  simp only [formalDispatch, looked] at run
  cases found with
  | some m =>
    cases run
    exact .inl ⟨m, hit m rfl, rfl, rfl, keeps⟩
  | none =>
    refine .inr ⟨rfl, ?_⟩
    obtain ⟨searched, leaves⟩ :=
      MethodTable.tableMethod_searched t r (DispatchCache.nameLists classes)
    rcases tried : tableMethod .superclasses r (DispatchCache.nameLists classes) t
      (firstKey (DispatchCache.nameLists classes)) with ⟨method, t₁⟩
    rw [tried] at searched leaves
    unfold firstKey at tried
    simp only [tried] at run searched leaves
    rw [← searched]
    cases method with
    | none =>
      cases run
      exact ⟨rfl, leaves, fun g names stamp m held => .inl (keeps g names stamp m held)⟩
    | some method =>
      cases run
      refine ⟨rfl, leaves, ?_⟩
      intro g names stamp m held
      rcases DispatchCache.recalls_insert held with ⟨rfl, rfl, rfl, rfl⟩ | before
      · exact .inr ⟨rfl, rfl, rfl, rfl⟩
      · exact .inl (keeps g names stamp m before)

end Dispatch

/-! What dispatches leave behind. -/

/-- Class names that were dispatched on since the last definition, with what that came to. -/
abbrev DispatchLog := List (List (List Name) × DispatchResult)

/-- A table is that of the defined methods, but for entries that recent dispatches inherited under the
first classes of their arguments. -/
structure MethodTable.Stems (t defined : MethodTable) (recent : DispatchLog) : Prop where
  distinct : t.methods.keys.Nodup
  version : t.version = defined.version
  own : ∀ key, key ∉ t.inherited → t.peek? key = defined.peek? key
  inherited : ∀ key, key ∈ t.inherited → defined.peek? key = none ∧
    ∀ method, t.peek? key = some method →
      ∃ names, firstKey names = key ∧ (names, .ofSearch (some method)) ∈ recent

/-- What a cache holds for a version of the table stems from recent dispatches. -/
def DispatchCache.Stems (c : DispatchCache) (generic : Name) (version : Nat) (recent : DispatchLog) : Prop :=
  ∀ names stamp m, c.Recalls generic names stamp m → stamp.version ≤ version ∧
    (stamp = ⟨version, []⟩ → (names, .of m.method m.deferred) ∈ recent)

section Stems

variable {r : ClassRegistry} {generic : Name} {names : List (List Name)} {defined t t' : MethodTable}
  {recent : DispatchLog} {c : DispatchCache}

theorem MethodTable.Stems.mono {more : DispatchLog} (stems : t.Stems defined recent) :
    t.Stems defined (recent ++ more) where
  distinct := stems.distinct
  version := stems.version
  own := stems.own
  inherited key member := by
    obtain ⟨absent, known⟩ := stems.inherited key member
    refine ⟨absent, fun method found => ?_⟩
    obtain ⟨names, first, there⟩ := known method found
    exact ⟨names, first, List.mem_append_left _ there⟩

theorem MethodTable.Stems.define (stems : t.Stems defined recent) (plain : defined.inherited = [])
    (key : String) (method : Value) : (t.define key method).Stems (defined.define key method) [] := by
  have explicit (k : String) : (t.inherited.foldl Table.erase t.methods).get? k = defined.methods.get? k := by
    rw [(Table.get?_foldl_erase stems.distinct).2]
    split
    · rename_i member
      exact (stems.inherited k member).1.symm
    · rename_i other
      exact stems.own k other
  refine ⟨?_, congrArg (· + 1) stems.version, ?_, fun k member => by cases member⟩
  · exact Table.nodup_keys_insert (Table.get?_foldl_erase (q := key) stems.distinct).1
  · intro k _
    simp only [MethodTable.define, MethodTable.peek?, plain, List.foldl_nil, Table.get?_insert, explicit k]

/-- A search leaves a table that stems from the same methods and the search itself. -/
theorem MethodTable.Stems.searched (stems : t.Stems defined recent) (searched : t.Searched r names t') :
    t'.Stems defined (recent ++ [(names, .ofSearch (t.search r names))]) := by
  cases searched with
  | same methods inherited version =>
    have peek (key : String) : t'.peek? key = t.peek? key := by
      unfold MethodTable.peek?
      rw [methods]
    have more : t.Stems defined (recent ++ [(names, .ofSearch (t.search r names))]) := stems.mono
    refine ⟨methods ▸ more.distinct, version.trans more.version, ?_, ?_⟩
    · rw [inherited]
      intro key other
      rw [peek, more.own key other]
    · rw [inherited]
      intro key member
      rw [peek]
      exact more.inherited key member
  | @installed method absent found methods inherited version =>
    have peek (key : String) : t'.peek? key = if firstKey names = key then some method else t.peek? key := by
      unfold MethodTable.peek?
      rw [methods, Table.get?_insert]
    refine ⟨methods ▸ Table.nodup_keys_insert stems.distinct, version.trans stems.version, ?_, ?_⟩
    · intro key other
      have elsewhere : firstKey names ≠ key := fun same => other ((inherited key).mpr (.inl same.symm))
      rw [peek, if_neg elsewhere]
      exact stems.own key fun member => other ((inherited key).mpr (.inr member))
    · intro key member
      rw [peek]
      by_cases here : firstKey names = key
      · rw [if_pos here]
        -- The key had no entry, so none was defined for it.
        have undefined : defined.peek? key = none := by
          by_cases before : key ∈ t.inherited
          · exact (stems.inherited key before).1
          · rw [← stems.own key before, ← here, absent]
        refine ⟨undefined, fun m same => ⟨names, here, ?_⟩⟩
        cases same
        exact List.mem_append_right _ (by simp [found])
      · rw [if_neg here]
        have before : key ∈ t.inherited := by
          rcases (inherited key).mp member with same | before
          · exact absurd same.symm here
          · exact before
        exact stems.mono.inherited key before

theorem DispatchCache.Stems.mono {more : DispatchLog} {version : Nat} (stems : c.Stems generic version recent) :
    c.Stems generic version (recent ++ more) := by
  intro names stamp m held
  obtain ⟨le, member⟩ := stems names stamp m held
  exact ⟨le, fun current => List.mem_append_left _ (member current)⟩

theorem DispatchCache.Stems.define {version : Nat} (stems : c.Stems generic version recent) :
    c.Stems generic (version + 1) [] := by
  intro names stamp m held
  have old := (stems names stamp m held).1
  refine ⟨Nat.le_succ_of_le old, ?_⟩
  rintro rfl
  exact absurd old (Nat.not_succ_le_self _)

/-- The keys tried before the first one that a method was defined for. -/
def passed (defined : MethodTable) (r : ClassRegistry) (names : List (List Name)) : List String :=
  (triedKeys r names).takeWhile fun key => (defined.peek? key).isNone

/-- What a dispatch comes to with the defined methods alone. -/
def due (defined : MethodTable) (r : ClassRegistry) (names : List (List Name)) : DispatchResult :=
  .ofSearch (defined.search r names)

/-- Recent dispatches that left an entry on the way to the defined method have come to the same. -/
def Agreeing (recent : DispatchLog) (defined : MethodTable) (r : ClassRegistry) (names : List (List Name)) :
    Prop :=
  ∀ other result, (other, result) ∈ recent → firstKey other ∈ passed defined r names →
    result = .notFound ∨ result = due defined r names

/-- Along the keys, either table has the first method, or both pass on. -/
theorem findSome?_peek? {keys : List String}
    (own : ∀ key method, defined.peek? key = some method → t.peek? key = some method)
    (met : ∀ key ∈ keys.takeWhile (fun key => (defined.peek? key).isNone), ∀ method,
      t.peek? key = some method →
        DispatchResult.ofSearch (some method) = .ofSearch (keys.findSome? defined.peek?)) :
    DispatchResult.ofSearch (keys.findSome? t.peek?) = .ofSearch (keys.findSome? defined.peek?) := by
  induction keys with
  | nil => rfl
  | cons key keys ih =>
    cases explicit : defined.peek? key with
    | some method => simp only [List.findSome?_cons, explicit, own key method explicit]
    | none =>
      simp only [List.findSome?_cons, explicit, List.takeWhile_cons, Option.isNone_none, if_true,
        List.forall_mem_cons] at met ⊢
      cases here : t.peek? key with
      | some method => exact met.1 method here
      | none => exact ih met.2

theorem search_due (stems : t.Stems defined recent) (agreeing : Agreeing recent defined r names) :
    .ofSearch (t.search r names) = due defined r names := by
  refine findSome?_peek? ?_ ?_
  · intro key method explicit
    rw [← explicit]
    refine stems.own key fun member => ?_
    rw [(stems.inherited key member).1] at explicit
    cases explicit
  · intro key member method found
    have absent : defined.peek? key = none := by simpa using List.mem_takeWhile_imp member
    have inherited : key ∈ t.inherited := by
      by_contra own
      rw [stems.own key own, absent] at found
      cases found
    obtain ⟨other, first, there⟩ := (stems.inherited key inherited).2 method found
    rcases agreeing other _ there (first ▸ member) with none | same
    · exact absurd none (DispatchResult.ofSearch_some_ne method)
    · exact same

end Stems

/-! Histories of a table. -/

/-- What becomes of the table of a generic: a method is defined, or a call site dispatches on it. -/
inductive TableEvent where
  | define (key : String) (method : Value)
  | dispatch (site : NodeId) (classes : List ClassView)

/-- A table with the caches of its call sites, and the dispatches since the last definition. -/
structure TableHistory where
  table : MethodTable := {}
  caches : NodeId → DispatchCache := fun _ => {}
  recent : DispatchLog := []

namespace TableHistory

variable {r : ClassRegistry} {generic : Name} {names : List (List Name)} {defined : MethodTable}
  {s : TableHistory}

/-- A dispatch through the cache of a call site. -/
def dispatch (r : ClassRegistry) (generic : Name) (site : NodeId) (classes : List ClassView)
    (s : TableHistory) : DispatchResult × MethodTable × DispatchCache :=
  formalDispatch .superclasses r generic classes s.table (s.caches site)

def step (r : ClassRegistry) (generic : Name) (s : TableHistory) : TableEvent → TableHistory
  | .define key method => { s with table := s.table.define key method, recent := [] }
  | .dispatch site classes =>
    let (result, table, cache) := s.dispatch r generic site classes
    { table
      caches := Function.update s.caches site cache
      recent := s.recent ++ [(DispatchCache.nameLists classes, result)] }

theorem recent_dispatch {site : NodeId} {classes : List ClassView} :
    (step r generic s (.dispatch site classes)).recent =
      s.recent ++ [(DispatchCache.nameLists classes, (s.dispatch r generic site classes).1)] := rfl

/-- What becomes of an empty table on which new call sites dispatch. -/
def after (r : ClassRegistry) (generic : Name) (events : List TableEvent) : TableHistory :=
  events.foldl (step r generic) {}

/-- The table that holds only the methods that were defined. -/
def explicit (events : List TableEvent) : MethodTable :=
  events.foldl (fun t e => match e with | .define key method => t.define key method | .dispatch .. => t) {}

/-- No dispatch for other classes since the last definition has left an entry on the way to the method
defined for these, unless it has come to the same. -/
def Clear (s : TableHistory) (defined : MethodTable) (r : ClassRegistry) (names : List (List Name)) : Prop :=
  Agreeing (s.recent.filter (·.1 ≠ names)) defined r names

structure Faithful (s : TableHistory) (generic : Name) (defined : MethodTable) : Prop where
  plain : defined.inherited = []
  table : s.table.Stems defined s.recent
  caches : ∀ site, (s.caches site).Stems generic s.table.version s.recent

theorem Faithful.start : Faithful {} generic {} where
  plain := rfl
  table := ⟨.nil, rfl, fun _ _ => rfl, fun key member => by cases member⟩
  caches _ _ _ _ held := absurd held DispatchCache.not_recalls_empty

theorem Faithful.define (faithful : s.Faithful generic defined) (key : String) (method : Value) :
    (step r generic s (.define key method)).Faithful generic (defined.define key method) where
  plain := rfl
  table := faithful.table.define faithful.plain key method
  caches site := (faithful.caches site).define

/-- A dispatch comes to what a recent one for the same classes came to, or to what the table has; and it
leaves a table and caches that stem from the same methods and itself. -/
theorem Faithful.dispatch (faithful : s.Faithful generic defined) (site : NodeId)
    (classes : List ClassView) :
    ((DispatchCache.nameLists classes, (s.dispatch r generic site classes).1) ∈ s.recent ∨
      (s.dispatch r generic site classes).1 = .ofSearch (s.table.search r (DispatchCache.nameLists classes))) ∧
    (step r generic s (.dispatch site classes)).Faithful generic defined := by
  rcases run : s.dispatch r generic site classes with ⟨result, table, cache⟩
  have next : step r generic s (.dispatch site classes) =
      { table, caches := Function.update s.caches site cache,
        recent := s.recent ++ [(DispatchCache.nameLists classes, result)] } := by
    simp only [step, run]
  rw [next]
  have others (held : cache.Stems generic table.version
        (s.recent ++ [(DispatchCache.nameLists classes, result)])) (same : table.version = s.table.version) :
      ∀ place, (Function.update s.caches site cache place).Stems generic table.version
        (s.recent ++ [(DispatchCache.nameLists classes, result)]) := by
    intro place
    by_cases here : place = site
    · subst here
      rwa [Function.update_self]
    · rw [Function.update_of_ne here, same]
      exact (faithful.caches place).mono
  rcases formalDispatch_cases run with ⟨m, held, rfl, rfl, keeps⟩ | ⟨-, rfl, searched, keeps⟩
  · refine ⟨.inl ((faithful.caches site _ _ _ held).2 rfl), faithful.plain, faithful.table.mono, ?_⟩
    refine others ?_ rfl
    intro names stamp m held
    exact (faithful.caches site).mono names stamp m (keeps generic names stamp m held)
  · have same : table.version = s.table.version := by cases searched <;> assumption
    refine ⟨.inr rfl, faithful.plain, faithful.table.searched searched, others ?_ same⟩
    rw [same]
    intro names stamp m held
    rcases keeps generic names stamp m held with before | ⟨-, rfl, rfl, result⟩
    · exact (faithful.caches site).mono names stamp m before
    · exact ⟨Nat.le_refl _, fun _ => List.mem_append_right _ (by simp [result])⟩

theorem faithful_after (events : List TableEvent) :
    (after r generic events).Faithful generic (explicit events) := by
  unfold after explicit
  induction events using List.reverseRecOn with
  | nil => exact .start
  | append_singleton events e ih =>
    rw [List.foldl_append, List.foldl_append]
    cases e with
    | define key method => exact ih.define (r := r) key method
    | dispatch site classes => exact (ih.dispatch site classes).2

theorem Clear.agreeing (clear : s.Clear defined r names)
    (settled : ∀ result, (names, result) ∈ s.recent → result = due defined r names) :
    Agreeing s.recent defined r names := by
  intro other result member first
  by_cases same : other = names
  · subst same
    exact .inr (settled result member)
  · exact clear other result (List.mem_filter.mpr ⟨member, by simpa using same⟩) first

/-- Earlier dispatches for the same classes came to what the defined methods say. -/
theorem settled_of_clear {events : List TableEvent}
    (clear : (after r generic events).Clear (explicit events) r names) (result : DispatchResult)
    (member : (names, result) ∈ (after r generic events).recent) :
    result = due (explicit events) r names := by
  induction events using List.reverseRecOn generalizing result with
  | nil => cases member
  | append_singleton events e ih =>
    have next : after r generic (events ++ [e]) = step r generic (after r generic events) e := List.foldl_append
    rw [next] at clear member
    cases e with
    | define key method => cases member
    | dispatch site classes =>
      have same : explicit (events ++ [.dispatch site classes]) = explicit events := List.foldl_append
      rw [same] at clear ⊢
      have earlier : (after r generic events).Clear (explicit events) r names := by
        intro other result there
        refine clear other result ?_
        rw [recent_dispatch, List.filter_append]
        exact List.mem_append_left _ there
      rw [recent_dispatch] at member
      rcases List.mem_append.mp member with before | now
      · exact ih earlier result before
      · obtain ⟨rfl, rfl⟩ := Prod.mk.inj (List.mem_singleton.mp now)
        rcases ((faithful_after events).dispatch site classes).1 with before | searched
        · exact ih earlier _ before
        · rw [searched]
          exact search_due (faithful_after events).table (earlier.agreeing (ih earlier))

/-- On the table of the defined methods, with an empty cache, a dispatch comes to what they say. -/
theorem formalDispatch_due (classes : List ClassView) :
    (formalDispatch .superclasses r generic classes defined {}).1 =
      due defined r (DispatchCache.nameLists classes) := by
  rcases run : formalDispatch .superclasses r generic classes defined {} with ⟨result, table, cache⟩
  rcases formalDispatch_cases run with ⟨m, held, -⟩ | ⟨-, result, -⟩
  · exact absurd held DispatchCache.not_recalls_empty
  · exact result

/-- After any definitions and dispatches and through any call site, a dispatch comes to what it comes to on
the table of the defined methods alone, with an empty cache, unless a dispatch for other classes since the
last definition has left another method on the way there. -/
theorem dispatch_eq_explicit (r : ClassRegistry) (generic : Name) (events : List TableEvent) (site : NodeId)
    (classes : List ClassView)
    (clear : (after r generic events).Clear (explicit events) r (DispatchCache.nameLists classes)) :
    ((after r generic events).dispatch r generic site classes).1 =
      (formalDispatch .superclasses r generic classes (explicit events) {}).1 := by
  rw [formalDispatch_due]
  have faithful : (after r generic events).Faithful generic (explicit events) := faithful_after events
  rcases (faithful.dispatch (r := r) site classes).1 with before | searched
  · exact settled_of_clear clear _ before
  · rw [searched]
    exact search_due faithful.table (clear.agreeing (settled_of_clear clear))

/-- A dispatch for integers inherits the method for numbers, and one for doubles comes to it still. -/
theorem dispatch_double_explicit :
    let method : Value := .builtin "length" 0
    let events : List TableEvent :=
      [.define "numeric" method, .dispatch ⟨0⟩ [⟨⟨0⟩, some ["integer", "numeric"]⟩]]
    let double : List ClassView := [⟨⟨1⟩, some ["double", "numeric"]⟩]
    (after .basic "size" events).Clear (explicit events) .basic (DispatchCache.nameLists double) ∧
      ((after .basic "size" events).dispatch .basic "size" ⟨0⟩ double).1 =
        (formalDispatch .superclasses .basic "size" double (explicit events) {}).1 := by
  intro method events double
  have clear : (after .basic "size" events).Clear (explicit events) .basic (DispatchCache.nameLists double) := by
    have recent : (after .basic "size" events).recent.map (·.1) = [[["integer", "numeric"]]] := by
      decide +kernel
    have aside : firstKey [["integer", "numeric"]] ∉
        passed (explicit events) .basic (DispatchCache.nameLists double) := by decide_cbv
    intro other result member first
    have known := List.mem_map_of_mem (f := (·.1)) (List.mem_filter.mp member).1
    rw [recent, List.mem_singleton] at known
    exact absurd (known ▸ first) aside
  exact ⟨clear, dispatch_eq_explicit .basic "size" events ⟨0⟩ double clear⟩

/-- What a dispatch on the middle class inherits hides a nearer method from the class below. -/
example :
    let r := (((ClassRegistry.basic.define "root" []).define "other" []).define "mid" ["root"]).define "leaf"
      ["mid", "other"]
    let defined : List TableEvent := [.define "root" (.builtin "length" 0), .define "other" .null]
    let middle : TableEvent := .dispatch ⟨1⟩ [⟨⟨0⟩, some ["mid"]⟩]
    let leaf : List ClassView := [⟨⟨1⟩, some ["leaf"]⟩]
    ((after r "describe" defined).dispatch r "describe" ⟨0⟩ leaf).1 = .found .null ∧
      ((after r "describe" (defined ++ [middle])).dispatch r "describe" ⟨0⟩ leaf).1 =
        .deferred (.builtin "length" 0) := by
  cbv

end TableHistory
end CallByNeed
