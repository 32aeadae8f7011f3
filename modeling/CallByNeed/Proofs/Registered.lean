import CallByNeed.Proofs.Recall

/-!
Methods remembered by formal classes. A generic keeps its table, and a table loses no entry while its version
stands still, so what a call site remembers of a dispatch on a table is what the table gives again. Entries
are told apart by the name of the generic and the version of its table, not by the table. A generic registered
again under its name starts a table with versions of its own, and a call site may then answer with what it
remembers of the earlier one.
-/
namespace CallByNeed

/-- Without an entry in the cache the outcome is that of the table alone. -/
theorem formalDispatch_miss {resolver : Resolver} {r : ClassRegistry} {generic : Name}
    {classes : List ClassView} {t : MethodTable} {c : DispatchCache}
    (miss : (c.lookup generic classes ⟨t.version, []⟩).1 = none) :
    (formalDispatch resolver r generic classes t c).1 = (formalDispatch resolver r generic classes t {}).1 := by
  have empty : (({} : DispatchCache).lookup generic classes ⟨t.version, []⟩).1 = none := rfl
  have searched {c : DispatchCache} (miss : (c.lookup generic classes ⟨t.version, []⟩).1 = none) :
      (formalDispatch resolver r generic classes t c).1 = .ofSearch
        (tableMethod resolver r (DispatchCache.nameLists classes) t
          (firstKey (DispatchCache.nameLists classes))).1 := by
    rcases looked : c.lookup generic classes ⟨t.version, []⟩ with ⟨found, c₁⟩
    rw [looked] at miss
    obtain rfl : found = none := miss
    rcases tried : tableMethod resolver r (DispatchCache.nameLists classes) t
      (firstKey (DispatchCache.nameLists classes)) with ⟨method, t₁⟩
    unfold firstKey at tried
    simp only [formalDispatch, looked, tried]
    cases method <;> rfl
  rw [searched miss, searched empty]

theorem formalDispatch_entry {resolver : Resolver} {r : ClassRegistry} {generic : Name}
    {classes : List ClassView} {t : MethodTable} {method : Value}
    (entry : t.peek? (firstKey (DispatchCache.nameLists classes)) = some method) :
    (formalDispatch resolver r generic classes t {}).1 = .of method (isBuiltin method) := by
  have looked : ({} : DispatchCache).lookup generic classes ⟨t.version, []⟩ =
      (none, { ({} : DispatchCache) with misses := 1 }) := rfl
  unfold firstKey at entry
  simp only [formalDispatch, looked, tableMethod, MethodTable.lookup, entry]

namespace Session

variable {o s t : Session}

/-- Every generic is registered under its own name with a table that is there. -/
def Registered (s : Session) : Prop :=
  ∀ name g, s.generics.get? name = some g → g.name = name ∧ g.table.index < s.tables.size

theorem Change.registered (change : s.Change t) (registered : s.Registered) :
    t.Registered ∧ s.tables.size ≤ t.tables.size := by
  have same (same : s.SameMemory t) : t.Registered ∧ s.tables.size ≤ t.tables.size := by
    unfold Registered
    rw [same.generics, same.tables]
    exact ⟨registered, Nat.le_refl _⟩
  cases change with
  | enters enters =>
    cases enters with
    | nothing kept => exact same kept
    | method => exact ⟨registered, Nat.le_refl _⟩
    | generic added signature table =>
      refine ⟨fun name g found => ?_, Array.size_push _ ▸ Nat.le_succ _⟩
      dsimp only at found ⊢
      rw [Array.size_push]
      rw [Table.get?_insert] at found
      split at found
      · rename_i equal
        cases found
        exact ⟨equal, Nat.lt_succ_self _⟩
      · obtain ⟨own, inside⟩ := registered name g found
        exact ⟨own, Nat.lt_succ_of_lt inside⟩
    | formal id key method =>
      have size : ((s.setTable id ((s.tableAt id).define key method))).tables.size = s.tables.size :=
        Array.size_modify
      unfold Registered
      rw [size]
      exact ⟨registered, Nat.le_refl _⟩
  | consults => exact ⟨registered, Nat.le_refl _⟩
  | binds _ _ _ _ kept | frames _ _ kept | collects kept | registers _ _ _ kept => exact same kept

theorem Run.registered (run : Run o s t) (registered : s.Registered) :
    t.Registered ∧ s.tables.size ≤ t.tables.size := by
  induction run with
  | refl => exact ⟨registered, Nat.le_refl _⟩
  | change _ change ih =>
    obtain ⟨before, size⟩ := ih registered
    obtain ⟨after, grown⟩ := change.registered before
    exact ⟨after, Nat.le_trans size grown⟩
  | remembered generic chain scope _ site _ _ _ _ ih => exact ih registered
  | @dispatched _ _ t _ g chains site _ _ _ _ ih =>
    obtain ⟨before, size⟩ := ih registered
    have kept : (selectFormal g chains site t).2.tables.size = t.tables.size := Array.size_modify
    unfold Registered
    rw [kept]
    exact ⟨before, size⟩

theorem registered_start (options : Options) : (start options).Registered := by
  unfold start
  generalize ImplicitClasses.make {} = made
  obtain ⟨implicit, store⟩ := made
  exact nofun

variable {options : Options} {q : Session} {name : Name} {g : Generic}

theorem Attained.own (attained : Attained options q) (known : q.generics.get? name = some g) : g.name = name :=
  ((Run.registered attained (registered_start options)).1 name g known).1

/-- The table of a generic that was looked up is there from then on. -/
theorem Attained.inside (attained : Attained options q) (known : q.generics.get? name = some g)
    (later : Run o q s) : g.table.index < s.tables.size := by
  have registered := (Run.registered attained (registered_start options)).1
  exact Nat.lt_of_lt_of_le (registered name g known).2 (later.registered registered).2

theorem selectFormal_result (g : Generic) (chains : List VectorId) (site : NodeId) (s : Session) :
    (selectFormal g chains site s).1 = .ok (s.dispatchFormal g chains (s.site site).cache).1 := rfl

theorem selectFormal_table {chains : List VectorId} {site : NodeId} (inside : g.table.index < s.tables.size) :
    (selectFormal g chains site s).2.tableAt g.table =
      (s.dispatchFormal g chains (s.site site).cache).2.1 := by
  rw [selectFormal_tables, tableAt_setTable, if_pos ⟨rfl, inside⟩]

/-- An earlier dispatch for the same class names came to the same result on another table: that of a generic
registered under the same name, with as many definitions made as the table of this one has now. -/
def Elsewhere (options : Options) (name : Name) (g : Generic) (chains : List VectorId) (s : Session)
    (result : Except Unwind DispatchResult) : Prop :=
  ∃ (q p : Session) (other : Generic) (chains' : List VectorId) (site : NodeId),
    Attained options q ∧ q.generics.get? name = some other ∧ (start options).Run q p ∧
      (start options).Run (selectFormal other chains' site p).2 s ∧ other.table ≠ g.table ∧
        (p.tableAt other.table).version = (s.tableAt g.table).version ∧
          DispatchCache.nameLists (chains'.map p.classView) = DispatchCache.nameLists (chains.map s.classView) ∧
            (selectFormal other chains' site p).1 = result

/-- A dispatch on a generic looked up before, through any call site, comes to what the table of the generic
gives with an empty cache, or to what an earlier dispatch got elsewhere. -/
theorem Attained.dispatch_eq_fresh (attained : Attained options q) (later : (start options).Run q s)
    (known : q.generics.get? name = some g) (chains : List VectorId) (site : NodeId) :
    (selectFormal g chains site s).1 = .ok (s.dispatchFormal g chains {}).1 ∨
      Elsewhere options name g chains s (selectFormal g chains site s).1 := by
  rw [selectFormal_result]
  rcases looked : (s.site site).cache.lookup g.name (chains.map s.classView) ⟨(s.tableAt g.table).version, []⟩
    with ⟨none | m, c⟩
  · exact .inl (congrArg Except.ok (formalDispatch_miss (by rw [looked])))
  have hit : (s.dispatchFormal g chains (s.site site).cache).1 = .of m.method m.deferred := by
    simp only [dispatchFormal, formalDispatch, looked]
  have held := (DispatchCache.lookup_recalls looked).1 m rfl
  have attained' : Attained options s := Run.trans attained later
  rw [hit]
  rcases attained'.recalls held with searched | dispatched
  · -- Searches by class are stored with the environments they started from.
    obtain ⟨scope, somewhere, f, -, stamp, -⟩ := searched
    exact absurd (congrArg Stamp.scope stamp).symm somewhere
  · obtain ⟨q', p, name', g', chains', site', begun, between, after, known', generic, names, stamp, result,
      entry, flag⟩ := dispatched
    have begun : Attained options q' := begun
    obtain rfl : name' = name := by rw [← begun.own known', ← generic, attained.own known]
    have version : (p.tableAt g'.table).version = (s.tableAt g.table).version :=
      (congrArg Stamp.version stamp).symm
    by_cases table : g'.table = g.table
    · -- The same table at the same version still has the entry, and gives it to an empty cache too.
      left
      have kept := after.tablesSince g'.table
      rw [selectFormal_table (begun.inside known' between)] at kept
      have still := (p.dispatchFormal_version g' chains' (p.site site').cache).trans version
      have there := kept.entries (table ▸ still.symm) _ _ entry
      rw [table] at there
      rw [show (s.dispatchFormal g chains {}).1 = _ from formalDispatch_entry there, flag]
    · exact .inr ⟨q', p, g', chains', site', begun, known', between, after, table, version, names.symm,
        by rw [selectFormal_result, result]⟩

/-- A generic with one method, and a call that leaves the method at the call site. -/
theorem null_method_eq_fresh :
    let named := Store.addVector ⟨.character ["g"], {}, .shared⟩ (start {}).store
    let classed := Store.addVector ⟨.character ["NULL"], {}, .shared⟩ named.2
    let dispatch : Expr :=
      .call ⟨0⟩ (.symbol ⟨1⟩ "standardGeneric") [⟨none, .constant ⟨2⟩ (.vector named.1)⟩]
    let setGeneric : Expr := .call ⟨3⟩ (.symbol ⟨4⟩ "setGeneric")
      [⟨none, .constant ⟨5⟩ (.vector named.1)⟩, ⟨none, .function ⟨⟨6⟩, [⟨"x", none⟩], dispatch⟩⟩]
    let setMethod : Expr := .call ⟨7⟩ (.symbol ⟨8⟩ "setMethod")
      [⟨none, .constant ⟨9⟩ (.vector named.1)⟩, ⟨none, .constant ⟨10⟩ (.vector classed.1)⟩,
        ⟨none, .function ⟨⟨11⟩, [⟨"x", none⟩], .constant ⟨12⟩ .null⟩⟩]
    let call : Expr := .call ⟨13⟩ (.symbol ⟨14⟩ "g") [⟨none, .constant ⟨15⟩ .null⟩]
    let generic := (evalIn setGeneric global { start {} with store := classed.2 }).2
    let s := (evalIn call global (evalIn setMethod global generic).2).2
    (∃ m : CachedMethod, m.target = "NULL" ∧
      ((s.site ⟨0⟩).cache.lookup "g" [s.classView (s.classOf .null)] ⟨1, []⟩).1 = some m) ∧
    ∃ g, s.generics.get? "g" = some g ∧
      ((selectFormal g [s.classOf .null] ⟨0⟩ s).1 = .ok (s.dispatchFormal g [s.classOf .null] {}).1 ∨
        Elsewhere {} "g" g [s.classOf .null] s (selectFormal g [s.classOf .null] ⟨0⟩ s).1) := by
  intro named classed dispatch setGeneric setMethod call generic s
  have storing (s : Session) (store : Store) : (start {}).Run s { s with store } := .of_same rfl rfl {}
  have first : Attained {} { start {} with store := classed.2 } := storing (start {}) classed.2
  have second : Attained {} generic := first.trans (run_evalIn first setGeneric global)
  have third : Attained {} (evalIn setMethod global generic).2 :=
    second.trans (run_evalIn second setMethod global)
  have last : Attained {} s := third.trans (run_evalIn third call global)
  have hit : ((s.site ⟨0⟩).cache.lookup "g" [s.classView (s.classOf .null)] ⟨1, []⟩).1.map (·.target) =
      some "NULL" := by decide +kernel
  obtain ⟨m, hit, target⟩ := Option.map_eq_some_iff.mp hit
  have known : (s.generics.get? "g").isSome = true := by decide +kernel
  obtain ⟨g, known⟩ := Option.isSome_iff_exists.mp known
  exact ⟨⟨m, target, hit⟩, g, known, last.dispatch_eq_fresh (.refl s) known _ _⟩

end Session
end CallByNeed
