import CallByNeed.Proofs.ArgumentMatching
import CallByNeed.Proofs.EarlyArguments
import Mathlib.Data.Set.Card

/-!
When arguments do not match. The failures are said of the names alone, in the order in which they are looked
for: a formal named twice, an argument that is short for two formals or for one that is taken, and arguments that
are left over. Each pass stops at the first argument it cannot bind, and the arguments before that one have bound
what the rules of matching call for. A closure call that does not match leaves the session as it was.
-/
namespace CallByNeed

namespace Signature

variable {formals supplied : Signature} {allowPartial : Bool} {i j f g : Nat} {name : Name} {e e' : MatchError}

/-- The argument is written with the name of a formal that an earlier argument is written with. -/
def Repeats (formals supplied : Signature) (i : Nat) (name : Name) : Prop :=
  supplied.writtenName? i = some name ∧ (∃ f, formals.Names f name) ∧
    ∃ j < i, supplied.writtenName? j = some name

/-- The formal is the only one that the argument, which names none in full, is short for. -/
def ShortFor (formals supplied : Signature) (i f : Nat) : Prop :=
  ∃ name, supplied.writtenName? i = some name ∧ (∀ g, ¬formals.Names g name) ∧
    ∀ g, formals.Abbreviates supplied name g ↔ g = f

/-- How an argument that is short for formals fails: there are two of them, or an earlier argument that is short
for the same one has taken it. -/
inductive Clashes (formals supplied : Signature) (i : Nat) : MatchError → Prop
  | ambiguous {name : Name} {f g : Nat} (written : supplied.writtenName? i = some name)
      (inexact : ∀ g, ¬formals.Names g name) (first : formals.Abbreviates supplied name f)
      (second : formals.Abbreviates supplied name g) (apart : f ≠ g) :
      Clashes formals supplied i (.ambiguousPartialMatch i)
  | taken {f j : Nat} {formal : Name} (only : formals.ShortFor supplied i f) (earlier : j < i)
      (taken : formals.ShortFor supplied j f) (there : formals.name? f = some formal) :
      Clashes formals supplied i (.formalMatchedMultiple formal)

/-- The formals before `...` that no argument fills by name. -/
def Open (formals supplied : Signature) (allowPartial : Bool) : Set Nat :=
  {f | f < formals.before ∧ ∀ i, ¬formals.ByName supplied allowPartial f i}

/-- There is no formal for the argument: none by its name, or none left by position, as there are no more of them
than unnamed arguments before it. -/
def LeftOver (formals supplied : Signature) (allowPartial : Bool) (i : Nat) : Prop :=
  i < supplied.length ∧ (∀ f, ¬formals.ByName supplied allowPartial f i) ∧
    (supplied.writtenName? i = none →
      (formals.Open supplied allowPartial).ncard ≤ {j | j < i ∧ supplied.writtenName? j = none}.ncard)

/-- The failures of matching, in the order in which they are looked for. -/
inductive Fails (formals supplied : Signature) (allowPartial : Bool) : MatchError → Prop
  | repeated {i : Nat} {name : Name} (repeats : formals.Repeats supplied i name)
      (first : ∀ j < i, ∀ other, ¬formals.Repeats supplied j other) :
      Fails formals supplied allowPartial (.formalMatchedMultiple name)
  | clash {i : Nat} {e : MatchError} (once : ∀ j other, ¬formals.Repeats supplied j other)
      (partly : allowPartial) (clash : formals.Clashes supplied i e)
      (first : ∀ j < i, ∀ other, ¬formals.Clashes supplied j other) :
      Fails formals supplied allowPartial e
  | leftOver {left : List Nat} (once : ∀ j other, ¬formals.Repeats supplied j other)
      (clear : allowPartial → ∀ j other, ¬formals.Clashes supplied j other) (closed : formals.varargs = none)
      (some : left ≠ []) (inOrder : left.Pairwise (· < ·))
      (all : ∀ i, i ∈ left ↔ formals.LeftOver supplied allowPartial i) :
      Fails formals supplied allowPartial
        (if ∃ i ∈ left, supplied.writtenName? i ≠ none then .unused left else .tooManyPositional left)

/-! One failure at most. -/

theorem Repeats.unique {name' : Name} (repeats : formals.Repeats supplied i name)
    (first : ∀ j < i, ∀ other, ¬formals.Repeats supplied j other) (repeats' : formals.Repeats supplied j name')
    (first' : ∀ k < j, ∀ other, ¬formals.Repeats supplied k other) : name = name' := by
  rcases Nat.lt_trichotomy i j with lt | rfl | lt
  · exact absurd repeats (first' i lt name)
  · exact Option.some.inj (repeats.1.symm.trans repeats'.1)
  · exact absurd repeats' (first j lt name')

theorem ShortFor.unique (only : formals.ShortFor supplied i f) (only' : formals.ShortFor supplied i g) :
    f = g := by
  obtain ⟨name, written, -, short⟩ := only
  obtain ⟨name', written', -, short'⟩ := only'
  cases written.symm.trans written'
  exact (short' f).mp ((short f).mpr rfl)

theorem ShortFor.abbreviates (only : formals.ShortFor supplied i f)
    (written : supplied.writtenName? i = some name) (short : formals.Abbreviates supplied name g) : g = f := by
  obtain ⟨name', written', -, same⟩ := only
  cases written.symm.trans written'
  exact (same g).mp short

theorem Clashes.unique (clash : formals.Clashes supplied i e) (clash' : formals.Clashes supplied i e') :
    e = e' := by
  cases clash with
  | ambiguous written inexact first second apart =>
    cases clash' with
    | ambiguous => rfl
    | taken only' =>
      exact absurd ((only'.abbreviates written first).trans (only'.abbreviates written second).symm) apart
  | taken only earlier taken there =>
    cases clash' with
    | ambiguous written' inexact' first' second' apart' =>
      exact absurd ((only.abbreviates written' first').trans (only.abbreviates written' second').symm) apart'
    | taken only' earlier' taken' there' =>
      cases only.unique only'
      cases there.symm.trans there'
      rfl

/-- At most one failure is the first. -/
theorem Fails.unique (fails : formals.Fails supplied allowPartial e)
    (fails' : formals.Fails supplied allowPartial e') : e = e' := by
  cases fails with
  | repeated repeats first =>
    cases fails' with
    | repeated repeats' first' => rw [repeats.unique first repeats' first']
    | clash once' => exact absurd repeats (once' _ _)
    | leftOver once' => exact absurd repeats (once' _ _)
  | @clash i _ once partly clash first =>
    cases fails' with
    | repeated repeats' => exact absurd repeats' (once _ _)
    | @clash j _ _ _ clash' first' =>
      rcases Nat.lt_trichotomy i j with lt | rfl | lt
      · exact absurd clash (first' i lt e)
      · exact clash.unique clash'
      · exact absurd clash' (first j lt e')
    | leftOver _ clear' => exact absurd clash (clear' partly _ _)
  | leftOver once clear _ _ inOrder all =>
    cases fails' with
    | repeated repeats' => exact absurd repeats' (once _ _)
    | clash _ partly' clash' => exact absurd clash' (clear partly' _ _)
    | leftOver _ _ _ _ inOrder' all' =>
      have same : ∀ i, i ∈ _ ↔ i ∈ _ := fun i => (all i).trans (all' i).symm
      rw [List.Pairwise.eq_of_mem_iff inOrder inOrder' same]

end Signature

/-! Where a pass stops. -/

variable {formals supplied : Signature} {allowPartial : Bool} {i j f m : Nat} {name : Name} {args : Named}
  {b c fixed : Bound} {e : MatchError}

/-- A pass that takes the arguments one by one fails at the first that it fails at. -/
theorem pass_error {pass : Named → Bound → Except MatchError Bound} (nil : ∀ b, pass [] b = .ok b)
    (cons : ∀ a rest b, pass (a :: rest) b = pass [a] b >>= pass rest) (run : pass args b = .error e) :
    ∃ before a after c, args = before ++ a :: after ∧ pass before b = .ok c ∧ pass [a] c = .error e := by
  induction args generalizing b with
  | nil =>
    rw [nil] at run
    cases run
  | cons a rest ih =>
    rw [cons] at run
    cases first : pass [a] b with
    | error e' =>
      rw [first] at run
      cases run
      exact ⟨[], a, rest, b, rfl, nil b, first⟩
    | ok d =>
      rw [first] at run
      obtain ⟨before, a', after, c, rfl, passed, failed⟩ := ih run
      refine ⟨a :: before, a', after, c, rfl, ?_, failed⟩
      rw [cons, first]
      exact passed

theorem bindExact_cons (a : Nat × Option Name) (rest : Named) (b : Bound) :
    bindExact formals (a :: rest) b = bindExact formals [a] b >>= bindExact formals rest := by
  obtain ⟨i, _ | name⟩ := a
  · rfl
  · rw [bindExact, bindExact]
    split
    · rfl
    · split <;> rfl

theorem bindPartial_cons (a : Nat × Option Name) (rest : Named) (b : Bound) :
    bindPartial formals m fixed (a :: rest) b =
      bindPartial formals m fixed [a] b >>= bindPartial formals m fixed rest := by
  obtain ⟨i, _ | name⟩ := a
  · rfl
  · rw [bindPartial, bindPartial]
    split
    · rfl
    · split
      · rfl
      · split <;> rfl
      · rfl

theorem bindExact_singleton {written : Option Name} (run : bindExact formals [(i, written)] c = .error e) :
    ∃ name f, written = some name ∧ exactChoice formals (i, some name) = some f ∧ c.isFilled f ∧
      e = .formalMatchedMultiple name := by
  cases written with
  | none => cases run
  | some name =>
    rw [bindExact] at run
    split at run
    · cases run
    · rename_i f chosen
      split at run
      · rename_i filled
        cases run
        exact ⟨name, f, rfl, chosen, filled, rfl⟩
      · cases run

theorem bindPartial_singleton {written : Option Name}
    (run : bindPartial formals formals.before fixed [(i, written)] c = .error e) :
    ∃ name, written = some name ∧ fixed.isUsed i = false ∧
      ((∃ f, partialCandidates formals formals.before fixed name = [f] ∧ c.isFilled f ∧
        e = .formalMatchedMultiple ((formals.name? f).getD name)) ∨
      (∃ f g rest, partialCandidates formals formals.before fixed name = f :: g :: rest ∧
        e = .ambiguousPartialMatch i)) := by
  cases written with
  | none => cases run
  | some name =>
    rw [bindPartial] at run
    split at run
    · cases run
    · rename_i unused
      refine ⟨name, rfl, Bool.not_eq_true _ ▸ unused, ?_⟩
      split at run
      · cases run
      · rename_i f only
        split at run
        · rename_i filled
          cases run
          exact .inl ⟨f, only, filled, rfl⟩
        · cases run
      · rename_i several none one
        cases run
        rcases candidates : partialCandidates formals formals.before fixed name with
          _ | ⟨f, _ | ⟨g, rest⟩⟩
        · exact absurd candidates none
        · exact absurd candidates (one f)
        · exact .inr ⟨f, g, rest, rfl, rfl⟩

theorem numbered_index {k : Nat} {a : Nat × Option Name} (there : (numbered supplied)[k]? = some a) : a.1 = k := by
  have indices : (numbered supplied).map (·.1) = List.range supplied.length := numbered_indices
  have index := congrArg (·[k]?) indices
  simp only [List.getElem?_map, there, Option.map_some] at index
  exact (List.getElem?_eq_some_iff.mp index.symm).2.symm.trans (by simp)

theorem mem_take_numbered_iff {written : Option Name} : (i, written) ∈ (numbered supplied).take m ↔
    i < m ∧ (i, written) ∈ numbered supplied := by
  rw [List.mem_take_iff_getElem, List.mem_iff_getElem]
  constructor
  · rintro ⟨k, inside, here⟩
    have there := List.getElem?_eq_some_iff.mpr ⟨by omega, here⟩
    obtain rfl := numbered_index there
    exact ⟨by omega, i, by omega, here⟩
  · rintro ⟨lt, k, inside, here⟩
    have there := List.getElem?_eq_some_iff.mpr ⟨inside, here⟩
    obtain rfl := numbered_index there
    exact ⟨i, by omega, here⟩

/-- A pass has taken the arguments before the one it stops at. -/
theorem numbered_split {before after : Named} {a : Nat × Option Name}
    (split : numbered supplied = before ++ a :: after) :
    before = (numbered supplied).take a.1 ∧ supplied.writtenName? a.1 = a.2 := by
  have there : (numbered supplied)[before.length]? = some a := by simp [split]
  have index := numbered_index there
  constructor
  · rw [index, split, List.take_left]
  · exact (mem_numbered_iff.mp (List.mem_of_getElem? there)).2

/-! Formals named twice. -/

/-- The arguments that the pass over names has taken name no formal twice. -/
theorem not_repeats_of_bindExact (distinct : formals.names.Nodup)
    (run : bindExact formals ((numbered supplied).take m) [] = .ok c) :
    ∀ i < m, ∀ name, ¬formals.Repeats supplied i name := by
  obtain ⟨mem, functional⟩ := bindExact_adds run
  rintro i lt name ⟨written, ⟨f, names⟩, j, earlier, written'⟩
  have chosen (i : Nat) : exactChoice formals (i, some name) = some f :=
    (exactChoice_eq_some_iff distinct).mpr names
  have bound {k : Nat} (before : k < m) (here : supplied.writtenName? k = some name) : (f, k) ∈ c := by
    apply (mem f k).mpr
    right
    have member := mem_numbered_iff.mpr ⟨lt_length_of_writtenName? here, here⟩
    exact ⟨some name, mem_take_numbered_iff.mpr ⟨before, member⟩, chosen k⟩
  have same := functional nofun f j i (bound (Nat.lt_trans earlier lt) written') (bound lt written)
  omega

theorem bindExact_error (distinct : formals.names.Nodup)
    (run : bindExact formals (numbered supplied) [] = .error e) :
    ∃ i name, formals.Repeats supplied i name ∧ (∀ j < i, ∀ other, ¬formals.Repeats supplied j other) ∧
      e = .formalMatchedMultiple name := by
  obtain ⟨before, ⟨i, written⟩, after, c, split, passed, failed⟩ := pass_error (fun _ => rfl) bindExact_cons run
  obtain ⟨name, f, rfl, chosen, filled, rfl⟩ := bindExact_singleton failed
  obtain ⟨rfl, here⟩ := numbered_split split
  have names := (exactChoice_eq_some_iff distinct).mp chosen
  refine ⟨i, name, ⟨here, ⟨f, names⟩, ?_⟩, not_repeats_of_bindExact distinct passed, rfl⟩
  -- The formal was filled by an earlier argument of the same name.
  obtain ⟨j, bound⟩ := Bound.isFilled_iff.mp filled
  rcases ((bindExact_adds passed).mem f j).mp bound with none | ⟨other, member, chosen'⟩
  · cases none
  · cases other with
    | none => cases chosen'
    | some other =>
      obtain ⟨earlier, member⟩ := mem_take_numbered_iff.mp member
      have names' := (exactChoice_eq_some_iff distinct).mp chosen'
      cases names.1.symm.trans names'.1
      exact ⟨j, earlier, (mem_numbered_iff.mp member).2⟩

/-! Arguments that are short for formals. -/

/-- The names bound in full are those that arguments are written with. -/
def Exact (formals supplied : Signature) (fixed : Bound) : Prop :=
  ∀ f i, (f, i) ∈ fixed ↔ ∃ name, supplied.writtenName? i = some name ∧ formals.Names f name

theorem partialCandidates_sorted (name : Name) :
    (partialCandidates formals formals.before fixed name).Pairwise (· < ·) :=
  List.pairwise_lt_range.filter _

theorem partialChoice_eq_some_iff (pairs : Exact formals supplied fixed)
    (written : supplied.writtenName? i = some name) :
    partialChoice formals fixed (i, some name) = some f ↔ formals.ShortFor supplied i f := by
  have unused := isUsed_eq_false_iff pairs written
  constructor
  · intro chosen
    simp only [partialChoice, Option.bind_some] at chosen
    split at chosen
    · cases chosen
    · rename_i free
      have inexact := unused.mp (Bool.not_eq_true _ ▸ free)
      split at chosen
      · rename_i only
        cases chosen
        refine ⟨name, written, inexact, fun g => ?_⟩
        rw [← mem_partialCandidates_iff_abbreviates inexact pairs, only, List.mem_singleton]
      · cases chosen
  · rintro ⟨name', written', inexact, short⟩
    cases written.symm.trans written'
    have member (g : Nat) : g ∈ partialCandidates formals formals.before fixed name ↔ g ∈ [f] := by
      rw [mem_partialCandidates_iff_abbreviates inexact pairs, short, List.mem_singleton]
    have only := List.Pairwise.eq_of_mem_iff (partialCandidates_sorted name) (List.pairwise_singleton _ f) member
    simp [partialChoice, unused.mpr inexact, only]

/-- What the second pass has bound: what it began with, and each argument that is short for one formal. -/
theorem mem_of_bindPartial (pairs : Exact formals supplied fixed)
    (run : bindPartial formals formals.before fixed ((numbered supplied).take m) fixed = .ok c) (f i : Nat) :
    (f, i) ∈ c ↔ (f, i) ∈ fixed ∨ i < m ∧ formals.ShortFor supplied i f := by
  rw [(bindPartial_adds run).1.mem]
  apply or_congr_right
  constructor
  · rintro ⟨name, member, chosen⟩
    cases name with
    | none => cases chosen
    | some name =>
      obtain ⟨lt, member⟩ := mem_take_numbered_iff.mp member
      exact ⟨lt, (partialChoice_eq_some_iff pairs (mem_numbered_iff.mp member).2).mp chosen⟩
  · rintro ⟨lt, short⟩
    have ⟨name, written, _⟩ := short
    have member := mem_numbered_iff.mpr ⟨lt_length_of_writtenName? written, written⟩
    exact ⟨some name, mem_take_numbered_iff.mpr ⟨lt, member⟩, (partialChoice_eq_some_iff pairs written).mpr short⟩

/-- The arguments that the second pass has taken do not clash. -/
theorem not_clashes_of_bindPartial (functional : fixed.Functional) (pairs : Exact formals supplied fixed)
    (run : bindPartial formals formals.before fixed ((numbered supplied).take m) fixed = .ok c) :
    ∀ i < m, ∀ e, ¬formals.Clashes supplied i e := by
  obtain ⟨adds, few⟩ := bindPartial_adds run
  have mem := mem_of_bindPartial pairs run
  intro i lt e clash
  cases clash with
  | @ambiguous name f g written inexact first second apart =>
    have member := mem_numbered_iff.mpr ⟨lt_length_of_writtenName? written, written⟩
    have short := few i name (mem_take_numbered_iff.mpr ⟨lt, member⟩)
      ((isUsed_eq_false_iff pairs written).mpr inexact)
    have only := eq_singleton_of_mem short ((mem_partialCandidates_iff_abbreviates inexact pairs).mpr first)
    have other := (mem_partialCandidates_iff_abbreviates inexact pairs).mpr second
    rw [only, List.mem_singleton] at other
    exact apart other.symm
  | @taken f j formal only earlier taken there =>
    have late := (mem f i).mpr (.inr ⟨lt, only⟩)
    have early := (mem f j).mpr (.inr ⟨Nat.lt_trans earlier lt, taken⟩)
    have same := adds.functional functional f i j late early
    omega

theorem bindPartial_error (functional : fixed.Functional) (pairs : Exact formals supplied fixed)
    (run : bindPartial formals formals.before fixed (numbered supplied) fixed = .error e) :
    ∃ i, formals.Clashes supplied i e ∧ ∀ j < i, ∀ other, ¬formals.Clashes supplied j other := by
  obtain ⟨before, ⟨i, written⟩, after, c, split, passed, failed⟩ :=
    pass_error (fun _ => rfl) bindPartial_cons run
  obtain ⟨name, rfl, unused, stop⟩ := bindPartial_singleton failed
  obtain ⟨rfl, here⟩ := numbered_split split
  have inexact := (isUsed_eq_false_iff pairs here).mp unused
  have short {f : Nat} := mem_partialCandidates_iff_abbreviates (f := f) inexact pairs
  refine ⟨i, ?_, not_clashes_of_bindPartial functional pairs passed⟩
  rcases stop with ⟨f, only, filled, rfl⟩ | ⟨f, g, rest, several, rfl⟩
  · have alone : formals.ShortFor supplied i f :=
      (partialChoice_eq_some_iff pairs here).mp (by simp [partialChoice, unused, only])
    obtain ⟨-, unnamed, formal, there, -⟩ := short.mp (only ▸ List.mem_cons_self)
    rw [there]
    obtain ⟨j, bound⟩ := Bound.isFilled_iff.mp filled
    rcases (mem_of_bindPartial pairs passed f j).mp bound with full | ⟨earlier, taken⟩
    · exact absurd ⟨j, (pairs f j).mp full⟩ unnamed
    · exact .taken alone earlier taken there
  · have sorted : (partialCandidates formals formals.before fixed name).Pairwise (· < ·) :=
      partialCandidates_sorted name
    rw [several] at sorted short
    have lt : f < g := (List.pairwise_cons.mp sorted).1 g List.mem_cons_self
    exact .ambiguous here inexact (short.mp List.mem_cons_self)
      (short.mp (List.mem_cons_of_mem _ List.mem_cons_self)) (Nat.ne_of_lt lt)

/-! Arguments left over. -/

theorem ncard_of_sorted {l : List Nat} (sorted : l.Pairwise (· < ·)) : {x | x ∈ l}.ncard = l.length := by
  have distinct : l.Nodup := sorted.imp Nat.ne_of_lt
  rw [← List.coe_toFinset, Set.ncard_coe_finset, List.toFinset_card_of_nodup distinct]

theorem ncard_open (byName : formals.BoundByName supplied allowPartial c) :
    (formals.Open supplied allowPartial).ncard = (vacant formals c).length := by
  rw [← ncard_of_sorted vacant_sorted]
  congr 1
  ext f
  rw [Set.mem_ofPred_eq, mem_vacant_iff]
  simp only [Signature.Open, Set.mem_ofPred_eq, byName.mem, not_exists]

theorem ncard_unnamed_before {k : Nat} (there : (unnamed (numbered supplied))[k]? = some i) :
    {j | j < i ∧ supplied.writtenName? j = none}.ncard = k := by
  have inside := (List.getElem?_eq_some_iff.mp there).1
  have count := ncard_of_sorted (unnamed_sorted.sublist (List.take_sublist k (unnamed (numbered supplied))))
  rw [List.length_take, Nat.min_eq_left (Nat.le_of_lt inside)] at count
  refine Eq.trans ?_ count
  congr 1
  ext j
  rw [Set.mem_ofPred_eq, Set.mem_ofPred_eq, List.mem_iff_getElem?]
  constructor
  · rintro ⟨lt, none⟩
    have within : i < supplied.length := (mem_unnamed_iff.mp (List.mem_of_getElem? there)).1
    obtain ⟨m, here⟩ := List.mem_iff_getElem?.mp (mem_unnamed_iff.mpr ⟨Nat.lt_trans lt within, none⟩)
    have before := (lt_iff_of_sorted unnamed_sorted here there).mpr lt
    exact ⟨m, by rw [List.getElem?_take_of_lt before, here]⟩
  · rintro ⟨m, here⟩
    rw [List.getElem?_take] at here
    split at here
    · rename_i before
      exact ⟨(lt_iff_of_sorted unnamed_sorted here there).mp before,
        (mem_unnamed_iff.mp (List.mem_of_getElem? here)).2⟩
    · cases here

/-- By position an unnamed argument is bound if there are more formals left than unnamed arguments before it. -/
theorem exists_bound_iff (bound : formals.BoundAll supplied allowPartial c b) (inside : i < supplied.length)
    (noName : supplied.writtenName? i = none) : (∃ f, (f, i) ∈ b) ↔
      {j | j < i ∧ supplied.writtenName? j = none}.ncard < (formals.Open supplied allowPartial).ncard := by
  obtain ⟨k, there⟩ := List.mem_iff_getElem?.mp (mem_unnamed_iff.mpr ⟨inside, noName⟩)
  rw [ncard_unnamed_before there, ncard_open bound.byName]
  constructor
  · rintro ⟨f, member⟩
    obtain ⟨m, formal, argument⟩ := bound.positional member noName
    rw [eq_of_sorted unnamed_sorted there argument]
    exact (List.getElem?_eq_some_iff.mp formal).1
  · intro lt
    exact ⟨_, (bound.mem _ i).mpr (.inl ⟨k, List.getElem?_eq_getElem lt, there⟩)⟩

/-- The arguments that are bound neither by name nor by position. -/
def remaining (formals supplied : Signature) (c : Bound) : List Nat :=
  leftover supplied (bindPositional formals.before (numbered supplied) c)

theorem mem_remaining_iff (byName : formals.BoundByName supplied allowPartial c) :
    i ∈ remaining formals supplied c ↔ formals.LeftOver supplied allowPartial i := by
  have bound : formals.BoundAll supplied allowPartial c (bindPositional formals.before (numbered supplied) c) :=
    ⟨byName, fun f i => mem_bindPositional_iff⟩
  unfold remaining
  rw [mem_leftover_iff]
  apply and_congr_right
  intro inside
  cases written : supplied.writtenName? i with
  | some name =>
    have named (f : Nat) : (f, i) ∈ bindPositional formals.before (numbered supplied) c ↔
        formals.ByName supplied allowPartial f i := by
      rw [bound.mem, bound.byName.mem]
      apply or_iff_right
      rintro ⟨k, formal, argument⟩
      rw [(bound_in_order formal argument).2.2] at written
      cases written
    simp [named]
  | none =>
    have unnamed (f : Nat) : ¬formals.ByName supplied allowPartial f i := by
      intro byName
      obtain ⟨name, written'⟩ := byName.written
      rw [written] at written'
      cases written'
    simp [exists_bound_iff bound inside written, unnamed]

theorem slotsOf_eq (formals supplied : Signature) (c : Bound) : slotsOf formals supplied c =
    if formals.varargs = none ∧ remaining formals supplied c ≠ [] then
      .error (if ∃ i ∈ remaining formals supplied c, supplied.writtenName? i ≠ none then
          .unused (remaining formals supplied c)
        else .tooManyPositional (remaining formals supplied c))
    else .ok (slotsFor formals supplied (bindPositional formals.before (numbered supplied) c)) := by
  let b := bindPositional formals.before (numbered supplied) c
  let rest := (numbered supplied).filter fun a => !b.isUsed a.1
  have indices : rest.map (·.1) = remaining formals supplied c := leftover_eq b
  have empty : (formals.varargs.isNone && !rest.isEmpty) =
      decide (formals.varargs = none ∧ remaining formals supplied c ≠ []) := by
    rw [← indices]
    cases formals.varargs <;> cases rest <;> rfl
  have named : rest.any (·.2.isSome) =
      decide (∃ i ∈ remaining formals supplied c, supplied.writtenName? i ≠ none) := by
    have written (a : Nat × Option Name) (member : a ∈ rest) : supplied.writtenName? a.1 = a.2 :=
      (mem_numbered_iff.mp (List.mem_filter.mp member).1).2
    rw [Bool.eq_iff_iff, decide_eq_true_iff, List.any_eq_true, ← indices]
    constructor
    · rintro ⟨a, member, some⟩
      refine ⟨a.1, List.mem_map_of_mem member, ?_⟩
      rw [written a member]
      exact Option.isSome_iff_ne_none.mp some
    · rintro ⟨i, index, some⟩
      obtain ⟨a, member, rfl⟩ := List.mem_map.mp index
      rw [written a member] at some
      exact ⟨a, member, Option.isSome_iff_ne_none.mpr some⟩
  have start : slotsOf formals supplied c = if (formals.varargs.isNone && !rest.isEmpty) = true then
      if rest.any (·.2.isSome) = true then .error (.unused (rest.map (·.1)))
      else .error (.tooManyPositional (rest.map (·.1)))
    else .ok ((List.range formals.length).map (slotOf formals b (rest.map (·.1)))) := rfl
  rw [start, empty, named, indices]
  simp only [decide_eq_true_eq]
  split
  · split <;> rfl
  · rfl

/-- The second pass fails at the first argument that clashes, and passes if there is none. -/
theorem bindLeft_error (distinct : formals.names.Nodup)
    (first : bindExact formals (numbered supplied) [] = .ok fixed)
    (run : bindLeft formals supplied allowPartial fixed = .error e) : allowPartial ∧
      ∃ i, formals.Clashes supplied i e ∧ ∀ j < i, ∀ other, ¬formals.Clashes supplied j other := by
  obtain ⟨functional, pairs⟩ := bindExact_pairs distinct first
  cases allowPartial with
  | false => cases run
  | true => exact ⟨rfl, bindPartial_error functional pairs run⟩

theorem take_numbered (supplied : Signature) : (numbered supplied).take supplied.length = numbered supplied := by
  have indices : (numbered supplied).map (·.1) = List.range supplied.length := numbered_indices
  have length : (numbered supplied).length = supplied.length := by simpa using congrArg List.length indices
  rw [← length, List.take_length]

theorem not_repeats (distinct : formals.names.Nodup)
    (run : bindExact formals (numbered supplied) [] = .ok fixed) (i : Nat) (name : Name) :
    ¬formals.Repeats supplied i name := by
  intro repeats
  rw [← take_numbered] at run
  exact not_repeats_of_bindExact distinct run i (lt_length_of_writtenName? repeats.1) name repeats

theorem not_clashes (distinct : formals.names.Nodup)
    (first : bindExact formals (numbered supplied) [] = .ok fixed)
    (run : bindLeft formals supplied true fixed = .ok c) (i : Nat) (e : MatchError) :
    ¬formals.Clashes supplied i e := by
  intro clash
  obtain ⟨functional, pairs⟩ := bindExact_pairs distinct first
  have inside : i < supplied.length := by
    cases clash with
    | ambiguous written => exact lt_length_of_writtenName? written
    | taken only =>
      obtain ⟨name, written, -⟩ := only
      exact lt_length_of_writtenName? written
  change bindPartial formals formals.before fixed (numbered supplied) fixed = .ok c at run
  rw [← take_numbered] at run
  exact not_clashes_of_bindPartial functional pairs run i inside e clash

/-! Matching. -/

theorem fails_of_error (distinct : formals.names.Nodup)
    (run : matchArguments formals supplied allowPartial = .error e) :
    formals.Fails supplied allowPartial e := by
  rw [matchArguments_eq] at run
  cases first : bindExact formals (numbered supplied) [] with
  | error e' =>
    rw [first] at run
    cases run
    obtain ⟨i, name, repeats, earliest, rfl⟩ := bindExact_error distinct first
    exact .repeated repeats earliest
  | ok fixed =>
    rw [first] at run
    have once := not_repeats distinct first
    change bindLeft formals supplied allowPartial fixed >>= slotsOf formals supplied = .error e at run
    cases second : bindLeft formals supplied allowPartial fixed with
    | error e' =>
      rw [second] at run
      cases run
      obtain ⟨partly, i, clash, earliest⟩ := bindLeft_error distinct first second
      exact .clash once partly clash earliest
    | ok c =>
      rw [second] at run
      change slotsOf formals supplied c = .error e at run
      rw [slotsOf_eq] at run
      split at run
      · rename_i left
        cases run
        refine .leftOver once ?_ left.1 left.2 (List.pairwise_lt_range.filter _)
          fun i => mem_remaining_iff (bindLeft_pairs distinct first second)
        rintro rfl
        exact not_clashes distinct first second
      · cases run

/-- A call that matches fails in none of the ways. -/
theorem not_fails_of_ok (distinct : formals.names.Nodup) {slots : List FormalSlot}
    (run : matchArguments formals supplied allowPartial = .ok slots) :
    ¬formals.Fails supplied allowPartial e := by
  rw [matchArguments_eq] at run
  obtain ⟨fixed, first, run⟩ := ok_of_bind run
  obtain ⟨c, second, run⟩ := ok_of_bind run
  intro fails
  cases fails with
  | repeated repeats => exact not_repeats distinct first _ _ repeats
  | clash once partly clash =>
    cases partly
    exact not_clashes distinct first second _ _ clash
  | @leftOver left once clear closed some inOrder all =>
    have byName := bindLeft_pairs distinct first second
    rw [slotsOf_eq] at run
    split at run
    · cases run
    · rename_i none
      apply none
      refine ⟨closed, ?_⟩
      obtain ⟨i, member⟩ := List.exists_mem_of_ne_nil left some
      exact List.ne_nil_of_mem ((mem_remaining_iff byName).mpr ((all i).mp member))

theorem matchArguments_error_iff (distinct : formals.names.Nodup) :
    matchArguments formals supplied allowPartial = .error e ↔ formals.Fails supplied allowPartial e := by
  constructor
  · exact fails_of_error distinct
  · intro fails
    cases run : matchArguments formals supplied allowPartial with
    | ok slots => exact absurd fails (not_fails_of_ok distinct run)
    | error e' => rw [(fails_of_error distinct run).unique fails]

/-! Calls. -/

namespace Session

variable {ev : Evaluator} {function : Function} {env definedIn : EnvId} {caller : RecordId} {s : Session}

theorem matchCall_failed {names : List (Option Name)} (labels : List String) (call : Expr)
    (failed : matchArguments (.ofFormals function.names) (.supplied names) s.options.partialMatching = .error e) :
    matchCall function names labels call s =
      (.error (.failure (e.toFailure names labels (s.store.exprText call))), s) := by
  rw [matchCall_apply, failed]
  rfl

/-- A call that does not match stops before any promise is made for its arguments. -/
theorem evalCall_failed {call target : Expr} {args : List Arg} {id : ClosureId} {t : Session}
    {names : List (Option Name)} {pending : List Pending} (uninterrupted : s.interrupt = false)
    (found : calledFunction ev target env caller s = (.ok (.closure id function definedIn), t))
    (lazily : t.records.eagerOnly caller = false)
    (expanded : (expandArgs env caller 0 args t).1 = .ok (names, pending))
    (failed : matchArguments (.ofFormals function.names) (.supplied names) t.options.partialMatching = .error e) :
    evalCall ev call target args env caller s = (.error (.failure
      (e.toFailure names (pending.map (Pending.label t.store)) (t.store.exprText call))), t) := by
  have polled : checkInterrupt s = (.ok (), s) := by
    unfold checkInterrupt
    rw [get_bind, uninterrupted]
    rfl
  have ensured : ensureLazy caller t = (.ok (), t) := by rw [ensureLazy_apply, lazily]; rfl
  have read : expandArgs env caller 0 args t = (.ok (names, pending), t) :=
    Prod.ext expanded (Reads.expandArgs env caller 0 args t)
  have matched := matchCall_failed (pending.map (Pending.label t.store)) call failed
  have arguments : closureArgs ev function call args env caller t = (.error (.failure
      (e.toFailure names (pending.map (Pending.label t.store)) (t.store.exprText call))), t) := by
    unfold closureArgs
    rw [bind_apply, read]
    change ((get >>= fun u : Session => _) : EvalM _) t = _
    rw [get_bind, bind_apply, matched]
  have called : (checkInterrupt >>= fun _ => calledFunction ev target env caller) s =
      (.ok (.closure id function definedIn), t) := by
    rw [bind_apply, polled]
    exact found
  rw [evalCall_closure called, bind_apply, ensured]
  dsimp only
  rw [bind_apply, arguments]

theorem invokeClosure_failed {call : Expr} {closure : Value} {supplied : Supplied}
    {dispatch : Option DispatchContext} (lazily : s.records.eagerOnly caller = false)
    (failed : matchArguments (.ofFormals function.names) (.supplied supplied.names) s.options.partialMatching =
      .error e) :
    invokeClosure ev closure function definedIn call supplied caller dispatch s = (.error (.failure
      (e.toFailure supplied.names (supplied.values.map (valueLabel s.store)) (s.store.exprText call))), s) := by
  have ensured : ensureLazy caller s = (.ok (), s) := by rw [ensureLazy_apply, lazily]; rfl
  have matched := matchCall_failed (supplied.values.map (valueLabel s.store)) call failed
  have run : matchSupplied function supplied call s = (.error (.failure
      (e.toFailure supplied.names (supplied.values.map (valueLabel s.store)) (s.store.exprText call))), s) := by
    rw [matchSupplied_eq]
    exact matched
  unfold invokeClosure
  rw [bind_apply, ensured]
  change (matchSupplied function supplied call >>= _) s = _
  rw [bind_apply, run]

end Session

theorem Signature.eq_ofFormals {names : List Name} (run : Signature.formals names = .ok formals) :
    formals = .ofFormals names := by
  unfold Signature.formals at run
  split at run
  · cases run
  · cases run
    rfl

/-- Matching fails in the ways of `Signature.Fails` and in no other. A call of a closure that does not match, be
it of expressions or of values, ends with the failure as a condition of the call and leaves the session as it was
when the function was found, whatever evaluates expressions: there is no frame for it, and none of its arguments
has been evaluated. -/
theorem matching_fails_iff (names : List Name) (signature : Signature.formals names = .ok formals) :
    (∀ supplied allowPartial e,
      matchArguments formals supplied allowPartial = .error e ↔ formals.Fails supplied allowPartial e) ∧
    ∀ (ev : Evaluator) (id : ClosureId) (function : Function) (definedIn : EnvId) (caller : RecordId)
      (call : Expr) (e : MatchError), function.names = names →
      (∀ target args env s t given pending, s.interrupt = false →
        calledFunction ev target env caller s = (.ok (.closure id function definedIn), t) →
        t.records.eagerOnly caller = false →
        (expandArgs env caller 0 args t).1 = .ok (given, pending) →
        formals.Fails (.supplied given) t.options.partialMatching e →
        evalCall ev call target args env caller s = (.error (.failure
          (e.toFailure given (pending.map (Pending.label t.store)) (t.store.exprText call))), t)) ∧
      ∀ supplied dispatch s, s.records.eagerOnly caller = false →
        formals.Fails (.supplied supplied.names) s.options.partialMatching e →
        invokeClosure ev (.closure id function definedIn) function definedIn call supplied caller dispatch s =
          (.error (.failure (e.toFailure supplied.names (supplied.values.map (valueLabel s.store))
            (s.store.exprText call))), s) := by
  obtain ⟨distinct, -⟩ := Signature.formals_distinct signature
  refine ⟨fun supplied allowPartial e => matchArguments_error_iff distinct, ?_⟩
  rintro ev id function definedIn caller call e rfl
  obtain rfl := Signature.eq_ofFormals signature
  constructor
  · intro target args env s t given pending uninterrupted found lazily expanded fails
    have failed := (matchArguments_error_iff distinct).mpr fails
    exact Session.evalCall_failed uninterrupted found lazily expanded failed
  · intro supplied dispatch s lazily fails
    exact Session.invokeClosure_failed lazily ((matchArguments_error_iff distinct).mpr fails)

/-- A name short for two formals, and a call that fails for it: the variable it would read is not even there. -/
theorem matching_fails_iff_ambiguous :
    let function : Function := ⟨⟨0⟩, [⟨"value", none⟩, ⟨"verbose", none⟩], .symbol ⟨1⟩ "value"⟩
    let target : Expr := .constant ⟨2⟩ (.closure ⟨0⟩ function Session.global)
    let args : List Arg := [⟨some "v", .symbol ⟨3⟩ "x"⟩]
    let s := Session.start {}
    ∃ formals, Signature.formals ["value", "verbose"] = .ok formals ∧
      matchArguments formals (.supplied [some "v"]) true = .error (.ambiguousPartialMatch 0) ∧
      formals.Fails (.supplied [some "v"]) true (.ambiguousPartialMatch 0) ∧
      ∃ failure, evalCall (eval 1) (.call ⟨4⟩ target args) target args Session.global ⟨0⟩ s =
        (.error (.failure failure), s) := by
  intro function target args s
  have run : matchArguments (.ofFormals ["value", "verbose"]) (.supplied [some "v"]) true =
      .error (.ambiguousPartialMatch 0) := by decide
  have signature : Signature.formals ["value", "verbose"] = .ok (.ofFormals ["value", "verbose"]) := rfl
  obtain ⟨iff, calls⟩ := matching_fails_iff ["value", "verbose"] signature
  have fails := (iff _ _ _).mp run
  obtain ⟨direct, -⟩ := calls (eval 1) ⟨0⟩ function Session.global ⟨0⟩ (.call ⟨4⟩ target args) _ rfl
  exact ⟨_, signature, run, fails, _,
    direct target args Session.global s s [some "v"] [.expr 0 (.symbol ⟨3⟩ "x")] rfl rfl rfl rfl fails⟩

end CallByNeed
