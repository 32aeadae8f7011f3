import CallByNeed.Proofs.Standing

/-!
The order of a search for methods. A search tries names one after the other: for each class the name of the
generic and then that of its group, and after the classes the default method. The first name that a function
is found under decides; without one, the builtin of the generic's name does. A search that knows of no group
tries the same names, those of the group left out.
-/
namespace CallByNeed

/-- A name that a search tries, and where the search stands at it. -/
structure Candidate where
  target : Name
  position : Nat
  /-- The group whose method it is. -/
  group : Option Name

/-- Whether a search that knows of a group tries the name. -/
def Candidate.within (k : Candidate) (group : Option Name) : Bool := k.group = none ∨ k.group = group

/-- A function found under a name. -/
def Candidate.method (k : Candidate) (f : Value) : CachedMethod := ⟨f, k.target, k.position, k.group, false⟩

namespace MethodSearch

variable {search : MethodSearch} {start : Nat} {k : Candidate}

/-- The names tried for one class. -/
def forClass (search : MethodSearch) (className : Name) (position : Nat) : List Candidate :=
  ⟨search.generic ++ "." ++ className, position, none⟩ ::
    search.group.toList.map fun group => ⟨group ++ "." ++ className, position, some group⟩

/-- The name of the default method, unless the search starts after it. -/
def forDefault (search : MethodSearch) (start : Nat) : List Candidate :=
  if start ≤ search.classes.length then
    [⟨search.generic ++ ".default", search.classes.length, none⟩]
  else []

/-- The names tried for some classes. -/
def forClasses (search : MethodSearch) (classes : List (Name × Nat)) : List Candidate :=
  classes.flatMap fun entry => search.forClass entry.1 entry.2

/-- All names that a search tries from a position on, in order. -/
def candidates (search : MethodSearch) (start : Nat) : List Candidate :=
  search.forClasses (search.classes.zipIdx.drop start) ++ search.forDefault start

theorem mem_forClasses {classes : List (Name × Nat)} (member : k ∈ search.forClasses classes) :
    ∃ entry ∈ classes, k ∈ search.forClass entry.1 entry.2 := List.mem_flatMap.mp member

theorem mem_forDefault (member : k ∈ search.forDefault start) :
    k = ⟨search.generic ++ ".default", search.classes.length, none⟩ := by
  unfold forDefault at member
  split at member
  · exact List.mem_singleton.mp member
  · cases member

theorem target_mem_targets (member : k ∈ search.candidates start) : k.target ∈ search.targets := by
  rcases List.mem_append.mp member with some_class | default
  · obtain ⟨entry, later, found⟩ := mem_forClasses some_class
    have known := List.fst_mem_of_mem_zipIdx (List.mem_of_mem_drop later)
    refine List.mem_cons_of_mem _ (List.mem_flatMap.mpr ⟨entry.1, known, ?_⟩)
    rcases List.mem_cons.mp found with rfl | grouped
    · exact List.mem_cons_self
    · obtain ⟨group, known, rfl⟩ := List.mem_map.mp grouped
      exact List.mem_cons_of_mem _ (List.mem_map.mpr ⟨group, known, rfl⟩)
  · rw [mem_forDefault default]
    exact List.mem_cons_self

theorem group_of_candidate (member : k ∈ search.candidates start) :
    k.group = none ∨ k.group = search.group := by
  rcases List.mem_append.mp member with some_class | default
  · obtain ⟨entry, -, found⟩ := mem_forClasses some_class
    rcases List.mem_cons.mp found with rfl | grouped
    · exact .inl rfl
    · obtain ⟨group, known, rfl⟩ := List.mem_map.mp grouped
      exact .inr (Option.mem_toList.mp known).symm
  · rw [mem_forDefault default]
    exact .inl rfl

theorem position_of_candidate (member : k ∈ search.candidates start) :
    start ≤ k.position ∧ k.position ≤ search.classes.length := by
  rcases List.mem_append.mp member with some_class | default
  · obtain ⟨entry, later, found⟩ := mem_forClasses some_class
    have same : k.position = entry.2 := by
      rcases List.mem_cons.mp found with rfl | grouped
      · rfl
      · obtain ⟨group, -, rfl⟩ := List.mem_map.mp grouped
        rfl
    obtain ⟨i, at_i⟩ := List.mem_iff_getElem?.mp later
    rw [List.getElem?_drop, List.getElem?_zipIdx] at at_i
    obtain ⟨name, there, rfl⟩ := Option.map_eq_some_iff.mp at_i
    obtain ⟨inside, -⟩ := List.getElem?_eq_some_iff.mp there
    omega
  · have same := mem_forDefault default
    unfold forDefault at default
    split at default
    · rw [same]
      exact ⟨‹_›, Nat.le_refl _⟩
    · cases default

/-! Leaving the group out. -/

theorem forClass_ungrouped (className : Name) (position : Nat) :
    (search.forClass className position).filter (·.within none) =
      { search with group := none }.forClass className position := by
  cases grouped : search.group <;> simp [forClass, Candidate.within, grouped]

theorem candidates_ungrouped (search : MethodSearch) (start : Nat) :
    (search.candidates start).filter (·.within none) =
      { search with group := none }.candidates start := by
  have default : (search.forDefault start).filter (·.within none) = search.forDefault start := by
    refine List.filter_eq_self.mpr fun k member => ?_
    rw [mem_forDefault member]
    rfl
  rw [candidates, List.filter_append, default, forClasses, List.filter_flatMap]
  simp only [forClass_ungrouped]
  rfl

theorem candidates_grouped (search : MethodSearch) (start : Nat) :
    (search.candidates start).filter (·.within search.group) = search.candidates start :=
  List.filter_eq_self.mpr fun _ member => decide_eq_true (group_of_candidate member)

end MethodSearch

/-! Searching by names. -/

/-- What was found, or else what a further search finds. -/
def orFind (further : EvalM (Option CachedMethod)) : Option CachedMethod → EvalM (Option CachedMethod)
  | some m => pure (some m)
  | none => further

/-- The method found under the first of some names that there is a function for. -/
def findNamed (ev : Evaluator) (scope : List EnvId) (caller : RecordId) :
    List Candidate → EvalM (Option CachedMethod)
  | [] => pure none
  | k :: rest => do
    match ← findMethodFunction ev k.target caller scope with
    | some f => pure (some (k.method f))
    | none => findNamed ev scope caller rest

/-- The method found under the first of some names, else the builtin of the generic's name. -/
def findFirst (ev : Evaluator) (search : MethodSearch) (caller : RecordId) (names : List Candidate) :
    EvalM (Option CachedMethod) :=
  findNamed ev search.scope caller names >>= orFind (builtinMethod search)

section Search

variable {ev ev' : Evaluator} {search : MethodSearch} {scope : List EnvId} {caller caller' : RecordId}
  {names later : List Candidate} {s : Session} {m : CachedMethod}

theorem findNamed_append : findNamed ev scope caller (names ++ later) =
    findNamed ev scope caller names >>= orFind (findNamed ev scope caller later) := by
  induction names with
  | nil => exact (pure_bind _ _).symm
  | cons k rest ih =>
    rw [List.cons_append, findNamed, findNamed, bind_assoc, ih]
    refine bind_congr fun found => ?_
    cases found with
    | some f => exact (pure_bind _ _).symm
    | none => rfl

theorem findForClass_eq (position : Nat) (className : Name) :
    findForClass ev search caller position className =
      findNamed ev search.scope caller (search.forClass className position) := by
  refine bind_congr fun found => ?_
  cases found with
  | some f => rfl
  | none =>
    cases search.group with
    | none => rfl
    | some group =>
      refine bind_congr fun found => ?_
      cases found <;> rfl

theorem findAmong_eq (classes : List (Name × Nat)) :
    findAmong ev search caller classes =
      findNamed ev search.scope caller (search.forClasses classes) := by
  induction classes with
  | nil => rfl
  | cons entry rest ih =>
    have names : search.forClasses (entry :: rest) =
        search.forClass entry.1 entry.2 ++ search.forClasses rest := List.flatMap_cons
    rw [names, findNamed_append, ← findForClass_eq, ← ih]
    refine bind_congr fun found => ?_
    cases found <;> rfl

theorem defaultMethod_eq (start : Nat) : defaultMethod ev search start caller =
    findNamed ev search.scope caller (search.forDefault start) := by
  unfold defaultMethod MethodSearch.forDefault
  dsimp only
  split
  · refine bind_congr fun found => ?_
    cases found <;> rfl
  · rfl

/-- A search tries its names in order. -/
theorem findMethod_eq (start : Nat) :
    findMethod ev search start caller = findFirst ev search caller (search.candidates start) := by
  have stages : findMethod ev search start caller = findClassMethod ev search start caller >>=
      orFind (defaultMethod ev search start caller >>= orFind (builtinMethod search)) := by
    refine bind_congr fun found => ?_
    cases found with
    | some m => rfl
    | none =>
      refine bind_congr fun found => ?_
      cases found <;> rfl
  rw [stages, findFirst, MethodSearch.candidates, findNamed_append, bind_assoc, findClassMethod,
    findAmong_eq, defaultMethod_eq]
  refine bind_congr fun found => ?_
  cases found with
  | some m => exact (pure_bind _ _).symm
  | none => rfl

/-- A method found for a class is the one that the whole search finds. -/
theorem findMethod_of_class {start : Nat} {t : Session}
    (found : findClassMethod ev search start caller s = (.ok (some m), t)) :
    findMethod ev search start caller s = (.ok (some m), t) := by
  unfold findMethod
  rw [bind_apply, found]
  rfl

theorem exists_name_of_findNamed {t : Session}
    (found : findNamed ev scope caller names s = (.ok (some m), t)) :
    ∃ k ∈ names, ∃ f, m = k.method f := by
  induction names generalizing s with
  | nil => cases found
  | cons k rest ih =>
    obtain ⟨f, u, -, next⟩ := parts_of_bind found
    cases f with
    | some f =>
      cases next
      exact ⟨k, List.mem_cons_self, f, rfl⟩
    | none =>
      obtain ⟨k', member, same⟩ := ih next
      exact ⟨k', List.mem_cons_of_mem _ member, same⟩

theorem builtinMethod_group {t : Session} (found : builtinMethod search s = (.ok (some m), t)) :
    m.group = none := by
  obtain ⟨v, u, -, next⟩ := parts_of_bind found
  split at next
  · cases next
    rfl
  · cases next

/-- A method is found at a class from where the search starts, or it is the default or, as a last resort, the
builtin. -/
theorem findMethod_position {start : Nat} (found : (findMethod ev search start caller s).1 = .ok (some m)) :
    start ≤ m.position ∧ m.position ≤ search.classes.length ∨
      (∃ name id, m.method = .builtin name id) ∧ m.position = search.classes.length + 1 := by
  rw [findMethod_eq] at found
  obtain ⟨n, t, named, next⟩ := parts_of_bind (Prod.ext found rfl : _ = (Except.ok (some m), _))
  cases n with
  | some n =>
    cases next
    obtain ⟨k, member, f, rfl⟩ := exists_name_of_findNamed named
    exact .inl (MethodSearch.position_of_candidate member)
  | none =>
    obtain ⟨v, u, -, last⟩ := parts_of_bind next
    split at last
    · cases last
      exact .inr ⟨⟨_, _, rfl⟩, rfl⟩
    · cases last

/-- A method is found through no group or through that of the search. -/
theorem findMethod_group {start : Nat} (found : (findMethod ev search start caller s).1 = .ok (some m)) :
    m.group = none ∨ m.group = search.group := by
  rw [findMethod_eq] at found
  obtain ⟨n, t, named, next⟩ := parts_of_bind (Prod.ext found rfl : _ = (Except.ok (some m), _))
  cases n with
  | some n =>
    cases next
    obtain ⟨k, member, f, rfl⟩ := exists_name_of_findNamed named
    exact MethodSearch.group_of_candidate member
  | none => exact .inl (builtinMethod_group next)

end Search

namespace Session.Stands

variable {p s : Session} (stands : p.Stands s) {ev ev' : Evaluator} {caller caller' : RecordId}
  {search : MethodSearch} (before : p.Direct search) (now : s.Direct search)
include stands before now

/-- What stands under some of the names of a search is found again. -/
theorem findNamed {names : List Candidate} (tried : ∀ k ∈ names, k.target ∈ search.targets) :
    Repeats p s (findNamed ev search.scope caller names) (findNamed ev' search.scope caller' names) := by
  induction names with
  | nil => exact Repeats.value _
  | cons k rest ih =>
    refine Repeats.andThen (stands.findTarget before now (tried k List.mem_cons_self)) fun found => ?_
    cases found with
    | some f => exact Repeats.value _
    | none => exact ih fun other member => tried other (List.mem_cons_of_mem _ member)

theorem findFirst {names : List Candidate} (tried : ∀ k ∈ names, k.target ∈ search.targets) :
    Repeats p s (findFirst ev search caller names) (findFirst ev' search caller' names) := by
  refine Repeats.andThen (stands.findNamed before now tried) fun found => ?_
  cases found with
  | some m => exact Repeats.value _
  | none => exact stands.builtinMethod

end Session.Stands
end CallByNeed
