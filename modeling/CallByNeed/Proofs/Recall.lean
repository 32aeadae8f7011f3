import CallByNeed.Proofs.Epoch
import CallByNeed.Proofs.Inheritance

/-!
What call sites remember, and where they have it from. A method that a cache holds at the end of a run was
there before, or a search found it on the way, or a dispatch on formal classes came to it and left it in the
method table too. A method table loses no entry while its version stands still.
-/
namespace CallByNeed

/-- A later state of a method table, or of one that took its place. -/
structure MethodTable.Since (t u : MethodTable) : Prop where
  version : t.version ≤ u.version
  entries : u.version = t.version → ∀ key method, t.peek? key = some method → u.peek? key = some method

namespace MethodTable

variable {t u w : MethodTable} {resolver : Resolver} {r : ClassRegistry} {names : List (List Name)}
  {key : String} {method : Value}

theorem Since.of_same (methods : u.methods = t.methods) (version : u.version = t.version) : t.Since u := by
  refine ⟨Nat.le_of_eq version.symm, fun _ key method found => ?_⟩
  unfold peek?
  rw [methods]
  exact found

theorem Since.refl (t : MethodTable) : t.Since t := .of_same rfl rfl

theorem Since.trans (first : t.Since u) (second : u.Since w) : t.Since w := by
  have le := first.version
  have le' := second.version
  refine ⟨Nat.le_trans le le', fun still key method found => ?_⟩
  exact second.entries (by omega) key method (first.entries (by omega) key method found)

theorem Since.empty (t : MethodTable) : ({} : MethodTable).Since t := ⟨Nat.zero_le _, nofun⟩

theorem Since.define (t : MethodTable) (key : String) (method : Value) : t.Since (t.define key method) :=
  ⟨Nat.le_succ _, fun still => absurd still (Nat.succ_ne_self _)⟩

theorem Since.install (absent : t.peek? key = none) (method : Value) : t.Since (t.install key method) := by
  refine ⟨Nat.le_refl _, fun _ other m found => ?_⟩
  have apart : key ≠ other := fun same => by rw [← same, absent] at found; cases found
  unfold peek? MethodTable.install
  rw [Table.get?_insert, if_neg apart]
  exact found

theorem resolve_eq_some (resolved : resolver.resolve r names t key = some u) :
    ∃ method, u = t.install key method := by
  unfold Resolver.resolve at resolved
  split at resolved
  · cases resolved
  · split at resolved
    · cases resolved
    · obtain ⟨method, -, rfl⟩ := Option.map_eq_some_iff.mp resolved
      exact ⟨method, rfl⟩

/-- A dispatch keeps the version and the entries of the table, and a method it finds is then the entry of
the key looked up first. -/
theorem tableMethod_since (run : tableMethod resolver r names t key = (found, u)) :
    t.Since u ∧ u.version = t.version ∧ ∀ method, found = some method → u.peek? key = some method := by
  unfold tableMethod at run
  cases own : t.peek? key with
  | some m =>
    simp only [lookup, own] at run
    cases run
    exact ⟨.of_same rfl rfl, rfl, fun method same => same ▸ own⟩
  | none =>
    let counted : MethodTable := { t with lookups := t.lookups + 1 }
    simp only [lookup, own] at run
    cases resolved : resolver.resolve r names counted.recordSlowPath key with
    | none =>
      simp only [resolved, counted] at run
      cases run
      exact ⟨.of_same rfl rfl, rfl, fun _ missing => by cases missing⟩
    | some v =>
      simp only [resolved, counted] at run
      cases run
      obtain ⟨method, rfl⟩ := resolve_eq_some resolved
      exact ⟨(Since.install own method).trans (.of_same rfl rfl), rfl, fun _ same => same⟩

end MethodTable

/-- A dispatch on formal classes keeps the version and the entries of the table. What the cache holds
afterwards it held before, or it is the outcome, and the table has it under the first classes. -/
theorem formalDispatch_since {resolver : Resolver} {r : ClassRegistry} {generic : Name}
    {classes : List ClassView} {t t' : MethodTable} {c c' : DispatchCache} {result : DispatchResult}
    (run : formalDispatch resolver r generic classes t c = (result, t', c')) :
    t.Since t' ∧ t'.version = t.version ∧ ∀ g names stamp m, c'.Recalls g names stamp m →
      c.Recalls g names stamp m ∨
        g = generic ∧ names = DispatchCache.nameLists classes ∧ stamp = ⟨t.version, []⟩ ∧
          result = .of m.method m.deferred ∧ t'.peek? (firstKey names) = some m.method ∧
            m.deferred = isBuiltin m.method := by
  rcases looked : c.lookup generic classes ⟨t.version, []⟩ with ⟨found, c₁⟩
  obtain ⟨-, keeps⟩ := DispatchCache.lookup_recalls looked
  simp only [formalDispatch, looked] at run
  cases found with
  | some hit =>
    cases run
    exact ⟨.refl _, rfl, fun g names stamp m held => .inl (keeps g names stamp m held)⟩
  | none =>
    rcases tried : tableMethod resolver r (DispatchCache.nameLists classes) t
      (firstKey (DispatchCache.nameLists classes)) with ⟨method, t₁⟩
    obtain ⟨since, version, entry⟩ := MethodTable.tableMethod_since tried
    unfold firstKey at tried
    simp only [tried] at run
    cases method with
    | none =>
      cases run
      exact ⟨since, version, fun g names stamp m held => .inl (keeps g names stamp m held)⟩
    | some method =>
      cases run
      refine ⟨since, version, fun g names stamp m held => ?_⟩
      rcases DispatchCache.recalls_insert held with ⟨rfl, rfl, rfl, rfl⟩ | before
      · exact .inr ⟨rfl, rfl, rfl, rfl, entry method rfl, rfl⟩
      · exact .inl (keeps g names stamp m before)

namespace Session

variable {o s t u : Session}

/-! Method tables. -/

theorem tableAt_setTable (s : Session) (id other : TableId) (table : MethodTable) :
    (s.setTable id table).tableAt other =
      if id = other ∧ id.index < s.tables.size then table else s.tableAt other := by
  unfold tableAt setTable
  dsimp only
  rw [Array.getElem?_modify]
  by_cases same : id.index = other.index
  · have equal : id = other := by cases id; cases other; simp_all
    subst equal
    by_cases inside : id.index < s.tables.size
    · simp [inside]
    · simp [inside]
  · have apart : id ≠ other := fun equal => same (by rw [equal])
    simp [same, apart]

/-- Every method table is a later state of the one in its place. -/
def TablesSince (s t : Session) : Prop := ∀ id, (s.tableAt id).Since (t.tableAt id)

theorem TablesSince.trans (first : s.TablesSince t) (second : t.TablesSince u) : s.TablesSince u :=
  fun id => (first id).trans (second id)

theorem TablesSince.of_same (tables : t.tables = s.tables) : s.TablesSince t := by
  intro id
  unfold tableAt
  rw [tables]
  exact .refl _

theorem TablesSince.setTable {id : TableId} {table : MethodTable} (since : (s.tableAt id).Since table) :
    s.TablesSince (s.setTable id table) := by
  intro other
  rw [tableAt_setTable]
  split
  · rename_i same
    exact same.1 ▸ since
  · exact .refl _

theorem Change.tablesSince (change : s.Change t) : s.TablesSince t := by
  cases change with
  | enters enters =>
    cases enters with
    | nothing same => exact .of_same same.tables
    | method => exact .of_same rfl
    | generic name signature table =>
      intro id
      unfold tableAt
      rw [Array.getElem?_push]
      split
      · rename_i new
        rw [Array.getElem?_eq_none (Nat.le_of_eq new.symm)]
        exact .empty _
      · exact .refl _
    | formal id key method => exact .setTable (.define _ key method)
  | consults => exact .of_same rfl
  | binds _ _ _ _ same | frames _ _ same | collects same | registers _ _ _ same => exact .of_same same.tables

/-! Dispatch on formal classes. -/

/-- What a dispatch on some class chains comes to, and the table and the cache it leaves. -/
def dispatchFormal (s : Session) (g : Generic) (chains : List VectorId) (cache : DispatchCache) :
    DispatchResult × MethodTable × DispatchCache :=
  formalDispatch s.resolver s.classes g.name (chains.map s.classView) (s.tableAt g.table) cache

theorem selectFormal_tables (g : Generic) (chains : List VectorId) (site : NodeId) (s : Session)
    (id : TableId) : (selectFormal g chains site s).2.tableAt id =
      (s.setTable g.table (s.dispatchFormal g chains (s.site site).cache).2.1).tableAt id := rfl

theorem selectFormal_cache (g : Generic) (chains : List VectorId) (site other : NodeId) (s : Session) :
    ((selectFormal g chains site s).2.site other).cache = if site = other then
      (s.dispatchFormal g chains (s.site site).cache).2.2 else (s.site other).cache := by
  change ((Session.setSite site ({ · with cache := (s.dispatchFormal g chains (s.site site).cache).2.2 })
    (s.setTable g.table (s.dispatchFormal g chains (s.site site).cache).2.1)).site other).cache = _
  rw [site_setSite]
  split <;> rfl

theorem dispatchFormal_since (s : Session) (g : Generic) (chains : List VectorId) (cache : DispatchCache) :
    (s.tableAt g.table).Since (s.dispatchFormal g chains cache).2.1 :=
  (formalDispatch_since rfl).1

theorem dispatchFormal_version (s : Session) (g : Generic) (chains : List VectorId) (cache : DispatchCache) :
    (s.dispatchFormal g chains cache).2.1.version = (s.tableAt g.table).version :=
  (formalDispatch_since rfl).2.1

theorem selectFormal_tablesSince (g : Generic) (chains : List VectorId) (site : NodeId) (s : Session) :
    s.TablesSince (selectFormal g chains site s).2 :=
  (TablesSince.setTable (s.dispatchFormal_since g chains (s.site site).cache)).trans
    fun id => selectFormal_tables g chains site s id ▸ .refl _

theorem Run.tablesSince (run : Run o s t) : s.TablesSince t := by
  induction run with
  | refl s => exact .of_same rfl
  | change _ change ih => exact ih.trans change.tablesSince
  | remembered generic chain scope _ site _ _ _ _ ih => exact ih.trans (.of_same rfl)
  | dispatched chains site _ _ _ _ ih => exact ih.trans (selectFormal_tablesSince _ chains site _)

/-! Where a method at a call site comes from. -/

/-- A search for the methods of a generic, from some environments, that found one. -/
structure Finding (generic : Name) (scope : List EnvId) (m : CachedMethod) where
  depth : Nat
  caller : RecordId
  chain : VectorId
  before : Session
  after : Session
  found : findMethod (eval depth) (before.methodSearch generic chain scope) 0 caller before = (.ok (some m), after)

namespace Finding

variable {generic : Name} {scope : List EnvId} {m : CachedMethod}

/-- The class names a method is stored for: those that the search leaves. -/
def names (f : Finding generic scope m) : List (List Name) := DispatchCache.nameLists [f.after.classView f.chain]

/-- The session after the search with the method stored at a call site. -/
def stored (f : Finding generic scope m) (site : NodeId) : Session :=
  f.after.setSite site fun known => { known with
    cache := known.cache.insert generic [f.after.classView f.chain] (f.before.stamp scope) m }

/-- A search in the history of `o` whose method was stored at a call site, some time before `t`. -/
structure Kept (f : Finding generic scope m) (o : Session) (site : NodeId) (t : Session) : Prop where
  begun : Run o o f.before
  ran : Run o f.before f.after
  onward : Run o (f.stored site) t

variable {f : Finding generic scope m} {site : NodeId}

theorem stored_run (somewhere : scope ≠ []) (begun : Run o o f.before) (ran : Run o f.before f.after) :
    Run o f.after (f.stored site) :=
  .remembered generic f.chain scope somewhere site (.refl _) begun ran f.found

theorem Kept.later (kept : f.Kept o site t) (somewhere : scope ≠ []) : Run o f.before t :=
  (kept.ran.trans (stored_run somewhere kept.begun kept.ran)).trans kept.onward

theorem Kept.mono (kept : f.Kept o site t) (run : Run o t u) : f.Kept o site u :=
  { kept with onward := kept.onward.trans run }

end Finding

/-- Earlier in the history of `o` a search found the method, which was stored at the call site with the stamp
that the search started from, for the class names that it left. -/
def Searched (o t : Session) (site : NodeId) (generic : Name) (names : List (List Name)) (stamp : Stamp)
    (m : CachedMethod) : Prop :=
  ∃ scope, scope ≠ [] ∧ ∃ f : Finding generic scope m, f.Kept o site t ∧ stamp = f.before.stamp scope ∧
    names = f.names

/-- Earlier in the history of `o` a generic was looked up and dispatched on with this outcome. The dispatch
left the method in the table of the generic. -/
def Dispatched (o t : Session) (generic : Name) (names : List (List Name)) (stamp : Stamp) (m : CachedMethod) :
    Prop :=
  ∃ (q p : Session) (name : Name) (g : Generic) (chains : List VectorId) (site : NodeId),
    let dispatch := p.dispatchFormal g chains (p.site site).cache
    Run o o q ∧ Run o q p ∧ Run o (selectFormal g chains site p).2 t ∧ q.generics.get? name = some g ∧
      generic = g.name ∧ names = DispatchCache.nameLists (chains.map p.classView) ∧
        stamp = ⟨(p.tableAt g.table).version, []⟩ ∧ dispatch.1 = .of m.method m.deferred ∧
          dispatch.2.1.peek? (firstKey names) = some m.method ∧ m.deferred = isBuiltin m.method

section Recalls

variable {site : NodeId} {generic : Name} {names : List (List Name)} {stamp : Stamp} {m : CachedMethod}

theorem Searched.onward (searched : Searched o t site generic names stamp m) (run : Run o t u) :
    Searched o u site generic names stamp m := by
  obtain ⟨scope, somewhere, f, kept, same⟩ := searched
  exact ⟨scope, somewhere, f, kept.mono run, same⟩

theorem Dispatched.onward (dispatched : Dispatched o t generic names stamp m) (run : Run o t u) :
    Dispatched o u generic names stamp m := by
  obtain ⟨q, p, name, g, chains, site, begun, between, before, rest⟩ := dispatched
  exact ⟨q, p, name, g, chains, site, begun, between, before.trans run, rest⟩

theorem Change.recalls (change : s.Change t) (held : (t.site site).cache.Recalls generic names stamp m) :
    (s.site site).cache.Recalls generic names stamp m := by
  cases change with
  | enters enters =>
    cases enters with
    | nothing same => exact same.caches site ▸ held
    | method | generic | formal => exact held
  | consults consulted generic classes stamp =>
    rw [site_setSite] at held
    split at held
    · rename_i same
      exact same ▸ (DispatchCache.lookup_recalls rfl).2 _ _ _ _ held
    · exact held
  | binds _ _ _ _ same | frames _ _ same | collects same | registers _ _ _ same =>
    exact same.caches site ▸ held

/-- What a call site remembers it remembered from the start, or it is from a search or a dispatch. -/
theorem Run.recalls (run : Run o s t) (held : (t.site site).cache.Recalls generic names stamp m) :
    (s.site site).cache.Recalls generic names stamp m ∨ Searched o t site generic names stamp m ∨
      Dispatched o t generic names stamp m := by
  induction run with
  | refl => exact .inl held
  | change _ change ih =>
    rcases ih (change.recalls held) with there | searched | dispatched
    · exact .inl there
    · exact .inr (.inl (searched.onward change.run))
    · exact .inr (.inr (dispatched.onward change.run))
  | remembered sought chain scope somewhere at' before begun search found ih =>
    -- What was remembered before the search ended stays; the entry that is new is the one it found.
    have next := Run.remembered sought chain scope somewhere at' (.refl _) begun search found
    have old : _ → _ := fun held => (ih held).imp id
      (Or.imp (Searched.onward · next) (Dispatched.onward · next))
    rw [site_setSite] at held
    split at held
    · rename_i same
      subst same
      rcases DispatchCache.recalls_insert held with ⟨rfl, rfl, rfl, rfl⟩ | there
      · let f : Finding generic scope m := ⟨_, _, chain, _, _, found⟩
        exact .inr (.inl ⟨scope, somewhere, f, ⟨begun, search, .refl (f.stored at')⟩, rfl, rfl⟩)
      · exact old there
    · exact old held
  | dispatched chains at' before begun known between ih =>
    have next := Run.dispatched chains at' (.refl _) begun known between
    have old : _ → _ := fun held => (ih held).imp id
      (Or.imp (Searched.onward · next) (Dispatched.onward · next))
    rw [selectFormal_cache] at held
    split at held
    · rename_i same
      rcases (formalDispatch_since rfl).2.2 _ _ _ _ held with there | ⟨rfl, rfl, rfl, result, entry, flag⟩
      · exact old (same ▸ there)
      · exact .inr (.inr ⟨_, _, _, _, chains, at', begun, between, .refl _, known, rfl, rfl, rfl, result, entry,
          flag⟩)
    · exact old held

theorem site_start (options : Options) (site : NodeId) : ((start options).site site).cache = {} := by
  unfold start
  generalize ImplicitClasses.make {} = made
  obtain ⟨implicit, store⟩ := made
  rfl

theorem Attained.recalls {options : Options} (attained : Attained options t)
    (held : (t.site site).cache.Recalls generic names stamp m) :
    Searched (start options) t site generic names stamp m ∨
      Dispatched (start options) t generic names stamp m := by
  rcases Run.recalls attained held with there | later
  · rw [site_start] at there
    exact absurd there DispatchCache.not_recalls_empty
  · exact later

end Recalls

end Session
end CallByNeed
