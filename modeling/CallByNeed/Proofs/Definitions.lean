import CallByNeed.Proofs.Recall

/-!
Defined methods. A dispatch adds one entry to a method table at most, under a key that had none, and lists the
key as inherited. A definition drops the entries listed so and no others. What was defined for a key is
therefore there until it is defined anew, and everything else in the table is known to be inherited.
-/
namespace CallByNeed

namespace Table

variable {κ α : Type} [DecidableEq κ] {t : Table κ α} {k q : κ}

theorem get?_erase_of_ne (other : k ≠ q) : (t.erase k).get? q = t.get? q := by
  obtain ⟨entries⟩ := t
  induction entries with
  | nil => rfl
  | cons e rest ih =>
    simp only [erase, get?] at ih ⊢
    by_cases here : e.1 = k
    · simp [here, other]
    · by_cases found : e.1 = q
      · simp [found, Ne.symm other]
      · simpa [here, found] using ih

theorem get?_foldl_erase_of_notMem {ks : List κ} (outside : q ∉ ks) :
    (ks.foldl erase t).get? q = t.get? q := by
  induction ks generalizing t with
  | nil => rfl
  | cons k ks ih =>
    have other : k ≠ q := fun same => outside (same ▸ List.mem_cons_self)
    have later : q ∉ ks := fun member => outside (List.mem_cons_of_mem _ member)
    rw [List.foldl_cons, ih later, get?_erase_of_ne other]

end Table

namespace MethodTable

variable {t t' : MethodTable} {key q : String} {method m : Value}

theorem peek?_install : (t.install key method).peek? q = if key = q then some method else t.peek? q :=
  Table.get?_insert _ _ _ _

theorem mem_inherited_install : q ∈ (t.install key method).inherited ↔ q = key ∨ q ∈ t.inherited := by
  unfold install
  by_cases there : key ∈ t.inherited
  · simp only [List.contains_iff_mem, there, if_true]
    constructor
    · exact .inr
    · rintro (rfl | before)
      · exact there
      · exact before
  · simp [there]

/-- The tables that a dispatch may leave, however methods are inherited. -/
inductive Leaves (t : MethodTable) : MethodTable → Prop
  | same {after : MethodTable} (methods : after.methods = t.methods)
    (inherited : after.inherited = t.inherited) (version : after.version = t.version) : Leaves t after
  | inherits {after : MethodTable} (key : String) (method : Value) (absent : t.peek? key = none)
    (methods : after.methods = (t.install key method).methods)
    (inherited : after.inherited = (t.install key method).inherited) (version : after.version = t.version) :
    Leaves t after

theorem tableMethod_leaves (resolver : Resolver) (r : ClassRegistry) (names : List (List Name))
    (t : MethodTable) (key : String) : t.Leaves (tableMethod resolver r names t key).2 := by
  unfold tableMethod
  cases own : t.peek? key with
  | some method =>
    simp only [lookup, own]
    exact .same rfl rfl rfl
  | none =>
    simp only [lookup, own]
    split
    · rename_i resolved
      obtain ⟨method, rfl⟩ := resolve_eq_some resolved
      exact .inherits key method own rfl rfl rfl
    · exact .same rfl rfl rfl

theorem formalDispatch_leaves (resolver : Resolver) (r : ClassRegistry) (generic : Name)
    (classes : List ClassView) (t : MethodTable) (cache : DispatchCache) :
    t.Leaves (formalDispatch resolver r generic classes t cache).2.1 := by
  have searched := tableMethod_leaves resolver r (DispatchCache.nameLists classes) t
    (firstKey (DispatchCache.nameLists classes))
  unfold firstKey at searched
  unfold formalDispatch
  dsimp only
  split
  · exact .same rfl rfl rfl
  · split
    · rename_i tried
      rwa [tried] at searched
    · rename_i tried
      rwa [tried] at searched

/-! A defined entry stays. -/

/-- There is an entry for the key, and it is not inherited. -/
def Defined (t : MethodTable) (key : String) : Prop := (t.peek? key).isSome ∧ key ∉ t.inherited

theorem defined_define (t : MethodTable) (key : String) (method : Value) : (t.define key method).Defined key := by
  constructor
  · simp [define, peek?, Table.get?_insert]
  · exact List.not_mem_nil

theorem Defined.define (defined : t.Defined q) (key : String) (method : Value) :
    (t.define key method).Defined q := by
  constructor
  · unfold peek? MethodTable.define
    rw [Table.get?_insert]
    split
    · rfl
    · rw [Table.get?_foldl_erase_of_notMem defined.2]
      exact defined.1
  · exact List.not_mem_nil

theorem Defined.leaves (defined : t.Defined q) (leaves : t.Leaves t') : t'.Defined q := by
  obtain ⟨there, own⟩ := defined
  cases leaves with
  | same methods inherited =>
    unfold Defined peek?
    rw [methods, inherited]
    exact ⟨there, own⟩
  | inherits key method absent methods inherited =>
    have apart : q ≠ key := by
      rintro rfl
      rw [absent] at there
      cases there
    have peek : t'.peek? q = (t.install key method).peek? q := by
      unfold peek?
      rw [methods]
    constructor
    · rw [peek, peek?_install, if_neg (Ne.symm apart)]
      exact there
    · rw [inherited, mem_inherited_install]
      rintro (same | before)
      · exact apart same
      · exact own before

end MethodTable

/-! Definitions and dispatches in any order. -/

/-- What is done with a method table: a method is defined, or a call site dispatches on it, with any classes
and whatever it remembers. -/
inductive TableAction where
  | define (key : String) (method : Value)
  | dispatch (resolver : Resolver) (r : ClassRegistry) (generic : Name) (classes : List ClassView)
    (cache : DispatchCache)

namespace TableAction

def run (t : MethodTable) : TableAction → MethodTable
  | define key method => t.define key method
  | dispatch resolver r generic classes cache => (formalDispatch resolver r generic classes t cache).2.1

def definition? : TableAction → Option (String × Value)
  | define key method => some (key, method)
  | dispatch .. => none

/-- What becomes of an empty table. -/
def table (actions : List TableAction) : MethodTable := actions.foldl run {}

/-- The definitions among some actions. -/
def definitions (actions : List TableAction) : List (String × Value) := actions.filterMap definition?

end TableAction

/-- The method that was defined last for a key. -/
def lastDefined? (definitions : List (String × Value)) (key : String) : Option Value :=
  (definitions.reverse.find? (·.1 = key)).map (·.2)

theorem lastDefined?_append (definitions : List (String × Value)) (key q : String) (method : Value) :
    lastDefined? (definitions ++ [(key, method)]) q =
      if key = q then some method else lastDefined? definitions q := by
  by_cases same : key = q <;> simp [lastDefined?, same]

/-- A table has the last definition of each key, and lists all else it has as inherited. -/
structure MethodTable.Keeps (t : MethodTable) (definitions : List (String × Value)) : Prop where
  distinct : t.methods.keys.Nodup
  defined : ∀ key method, lastDefined? definitions key = some method → t.peek? key = some method
  inherited : ∀ key, key ∈ t.inherited ↔ (t.peek? key).isSome ∧ lastDefined? definitions key = none
  version : t.version = definitions.length

namespace MethodTable

variable {t t' : MethodTable} {definitions : List (String × Value)}

theorem keeps_new : ({} : MethodTable).Keeps [] := by
  constructor
  · exact .nil
  · intro key method last
    cases last
  · intro key
    constructor
    · intro member
      cases member
    · intro ⟨entry, _⟩
      cases entry
  · rfl

/-- After a definition the entries are exactly the last definitions. -/
theorem Keeps.peek?_define (keeps : t.Keeps definitions) (key : String) (method : Value) (q : String) :
    (t.define key method).peek? q = lastDefined? (definitions ++ [(key, method)]) q := by
  have dropped : (t.define key method).peek? q =
      if key = q then some method else if q ∈ t.inherited then none else t.peek? q := by
    unfold peek? MethodTable.define
    rw [Table.get?_insert, (Table.get?_foldl_erase keeps.distinct).2]
  rw [dropped, lastDefined?_append]
  split
  · rfl
  · cases last : lastDefined? definitions q with
    | some m =>
      have own : q ∉ t.inherited := by
        intro member
        have none := ((keeps.inherited q).mp member).2
        rw [last] at none
        cases none
      rw [if_neg own, keeps.defined q m last]
    | none =>
      split
      · rfl
      · rename_i own
        cases entry : t.peek? q with
        | none => rfl
        | some m => exact absurd ((keeps.inherited q).mpr ⟨by rw [entry]; rfl, last⟩) own

theorem Keeps.define (keeps : t.Keeps definitions) (key : String) (method : Value) :
    (t.define key method).Keeps (definitions ++ [(key, method)]) := by
  have peek := keeps.peek?_define key method
  constructor
  · exact Table.nodup_keys_insert (Table.get?_foldl_erase (q := key) keeps.distinct).1
  · intro q m last
    rw [peek, last]
  · intro q
    rw [peek]
    constructor
    · intro member
      cases member
    · intro ⟨entry, last⟩
      rw [last] at entry
      cases entry
  · simp [MethodTable.define, keeps.version]

/-- What a dispatch inherits is under a key without a definition. -/
theorem Keeps.leaves (keeps : t.Keeps definitions) (leaves : t.Leaves t') : t'.Keeps definitions := by
  cases leaves with
  | same methods inherited version =>
    have peek (q : String) : t'.peek? q = t.peek? q := by
      unfold peek?
      rw [methods]
    constructor
    · rw [methods]
      exact keeps.distinct
    · intro q m last
      rw [peek, keeps.defined q m last]
    · intro q
      rw [inherited, peek]
      exact keeps.inherited q
    · rw [version]
      exact keeps.version
  | inherits key method absent methods inherited version =>
    have peek (q : String) : t'.peek? q = if key = q then some method else t.peek? q := by
      rw [← peek?_install]
      unfold peek?
      rw [methods]
    have undefined : lastDefined? definitions key = none := by
      cases last : lastDefined? definitions key with
      | none => rfl
      | some m =>
        rw [keeps.defined key m last] at absent
        cases absent
    constructor
    · rw [methods]
      exact Table.nodup_keys_insert keeps.distinct
    · intro q m last
      have apart : key ≠ q := by
        rintro rfl
        rw [undefined] at last
        cases last
      rw [peek, if_neg apart, keeps.defined q m last]
    · intro q
      rw [inherited, mem_inherited_install, peek]
      by_cases here : key = q
      · subst here
        simp [undefined]
      · simp [here, Ne.symm here, keeps.inherited q]
    · rw [version]
      exact keeps.version

end MethodTable

namespace TableAction

variable {t : MethodTable} {definitions : List (String × Value)}

theorem keeps_run (keeps : t.Keeps definitions) (action : TableAction) :
    (action.run t).Keeps (definitions ++ action.definition?.toList) := by
  cases action with
  | define key method => exact keeps.define key method
  | dispatch resolver r generic classes cache =>
    have same : definitions ++ (dispatch resolver r generic classes cache).definition?.toList = definitions :=
      List.append_nil _
    rw [same]
    exact keeps.leaves (MethodTable.formalDispatch_leaves resolver r generic classes t cache)

theorem keeps_table (actions : List TableAction) : (table actions).Keeps (TableAction.definitions actions) := by
  induction actions using List.reverseRecOn with
  | nil => exact MethodTable.keeps_new
  | append_singleton actions action ih =>
    have next : table (actions ++ [action]) = action.run (table actions) := List.foldl_append
    have more : TableAction.definitions (actions ++ [action]) =
        TableAction.definitions actions ++ action.definition?.toList := by
      unfold TableAction.definitions
      rw [List.filterMap_append]
      cases action <;> rfl
    rw [next, more]
    exact keeps_run ih action

/-- In any order of definitions and dispatches, each key that a method was defined for has the one defined
last, the other keys of the table are those listed as inherited, and the version is the number of definitions.
Right after a definition none is inherited, and the table has the definitions alone. -/
theorem defined_methods_kept (actions : List TableAction) :
    (∀ key method, lastDefined? (TableAction.definitions actions) key = some method →
        (table actions).peek? key = some method) ∧
      (∀ key, key ∈ (table actions).inherited ↔ ((table actions).peek? key).isSome ∧
        lastDefined? (TableAction.definitions actions) key = none) ∧
      (table actions).version = (TableAction.definitions actions).length ∧
      ∀ key method, (table (actions ++ [.define key method])).inherited = [] ∧
        ∀ q, (table (actions ++ [.define key method])).peek? q =
          lastDefined? (TableAction.definitions actions ++ [(key, method)]) q := by
  have keeps := keeps_table actions
  refine ⟨keeps.defined, keeps.inherited, keeps.version, ?_⟩
  intro key method
  have next : table (actions ++ [.define key method]) = (table actions).define key method := List.foldl_append
  rw [next]
  exact ⟨rfl, keeps.peek?_define key method⟩

end TableAction
end CallByNeed
