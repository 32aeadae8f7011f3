import CallByNeed.Proofs.History
import Mathlib.Data.List.Basic
import Mathlib.Data.List.Nodup
import Mathlib.Data.List.Perm.Basic
import Mathlib.Data.List.Sort

/-!
What the slots of a call are. The rules of matching are said of the slots alone, one for each way an argument
finds its formal, and no two lists of slots obey them for the same call. The three passes are then followed
through the pairs they bind: each adds pairs by a rule of its own, and none binds a formal twice.
-/
namespace CallByNeed

/-- The supplied arguments in a slot. -/
def FormalSlot.arguments : FormalSlot → List Nat
  | .supplied i => [i]
  | .varargs indices => indices
  | .unfilled => []

/-- The formal is filled with the argument. -/
def Fills (slots : List FormalSlot) (f i : Nat) : Prop := slots[f]? = some (FormalSlot.supplied i)

/-- The formal is left without an argument. -/
def Unfilled (slots : List FormalSlot) (f : Nat) : Prop := slots[f]? = some FormalSlot.unfilled

/-- The formal collects the arguments. -/
def Collects (slots : List FormalSlot) (f : Nat) (indices : List Nat) : Prop :=
  slots[f]? = some (FormalSlot.varargs indices)

namespace Signature

variable {formals supplied : Signature} {name : Name} {f g i : Nat}

/-- How many formals stand before `...`. -/
def before (formals : Signature) : Nat := formals.varargs.getD formals.length

/-- The name an argument is written with. -/
def writtenName? (supplied : Signature) (i : Nat) : Option Name := supplied.names[i]?.bind written

/-- The formal has this very name and is not `...`. -/
def Names (formals : Signature) (f : Nat) (name : Name) : Prop :=
  formals.name? f = some name ∧ formals.varargs ≠ some f

/-- An argument is written with the very name of the formal. -/
def NamedBy (formals supplied : Signature) (f : Nat) : Prop :=
  ∃ i name, supplied.writtenName? i = some name ∧ formals.Names f name

/-- The name is a proper prefix of that of the formal, which stands before `...` and which no argument is
written with in full. -/
def Abbreviates (formals supplied : Signature) (name : Name) (f : Nat) : Prop :=
  f < formals.before ∧ ¬formals.NamedBy supplied f ∧
    ∃ formal, formals.name? f = some formal ∧ name.toList <+: formal.toList ∧ name ≠ formal

/-- The rules of matching, said of the slots of a call. -/
structure Matched (formals supplied : Signature) (allowPartial : Bool) (slots : List FormalSlot) : Prop where
  length : slots.length = formals.length
  /-- Every argument is in one slot, once. -/
  once : (slots.flatMap FormalSlot.arguments).Perm (List.range supplied.length)
  /-- `...` holds what is matched nowhere else, in call order. -/
  varargs : ∀ f, formals.varargs = some f →
    Collects slots f ((List.range supplied.length).filter fun i => FormalSlot.supplied i ∉ slots)
  varargsOnly : ∀ f indices, Collects slots f indices → formals.varargs = some f
  /-- An argument named like a formal fills it. -/
  exact : ∀ i name f, supplied.writtenName? i = some name → formals.Names f name → Fills slots f i
  /-- Otherwise it fills the only formal it abbreviates. -/
  abbreviated : allowPartial → ∀ i name f, supplied.writtenName? i = some name →
    (∀ g, ¬formals.Names g name) → formals.Abbreviates supplied name f →
    Fills slots f i ∧ ∀ g, formals.Abbreviates supplied name g → g = f
  /-- Otherwise it goes to `...`. -/
  collected : ∀ i name, supplied.writtenName? i = some name → (∀ f, ¬formals.Names f name) →
    (allowPartial → ∀ f, ¬formals.Abbreviates supplied name f) →
    ∃ f indices, Collects slots f indices ∧ i ∈ indices
  /-- Unnamed arguments fill formals before `...` only. -/
  positional : ∀ i f, supplied.writtenName? i = none → Fills slots f i → f < formals.before
  /-- Those before one that fills a formal fill formals before it. -/
  argumentsInOrder : ∀ i j g, i < j → supplied.writtenName? i = none → supplied.writtenName? j = none →
    Fills slots g j → ∃ f < g, Fills slots f i
  /-- No formal is left out before one that they fill. -/
  formalsInOrder : ∀ i f g, f < g → supplied.writtenName? i = none → Fills slots g i → ¬Unfilled slots f
  /-- None is left over while a formal before `...` is unfilled. -/
  noneLeft : ∀ i f, i < supplied.length → supplied.writtenName? i = none → f < formals.before →
    Unfilled slots f → ∃ g, Fills slots g i
  /-- A formal after `...` is filled by its very name only. -/
  after : ∀ v f i, formals.varargs = some v → v < f → Fills slots f i →
    ∃ name, supplied.writtenName? i = some name ∧ formals.Names f name

namespace Matched

variable {allowPartial : Bool} {slots slots' : List FormalSlot} {i : Nat}

/-- No argument is in two slots. -/
theorem unique (matched : formals.Matched supplied allowPartial slots) {a b : FormalSlot}
    (first : slots[f]? = some a) (second : slots[g]? = some b) (here : i ∈ a.arguments)
    (there : i ∈ b.arguments) : f = g := by
  have distinct := (matched.once.nodup_iff.mpr List.nodup_range)
  have apart := List.pairwise_iff_getElem.mp (List.nodup_flatMap.mp distinct).2
  obtain ⟨ltF, rfl⟩ := List.getElem?_eq_some_iff.mp first
  obtain ⟨ltG, rfl⟩ := List.getElem?_eq_some_iff.mp second
  rcases Nat.lt_trichotomy f g with lt | same | lt
  · exact absurd there (apart f g ltF ltG lt here)
  · exact same
  · exact absurd here (apart g f ltG ltF lt there)

theorem unique_supplied (matched : formals.Matched supplied allowPartial slots)
    (first : Fills slots f i) (second : Fills slots g i) : f = g :=
  matched.unique first second List.mem_cons_self List.mem_cons_self

/-- A named argument fills the same formal by any slots that obey the rules. -/
theorem named (matched : formals.Matched supplied allowPartial slots)
    (matched' : formals.Matched supplied allowPartial slots') (written : supplied.writtenName? i = some name)
    (fills : Fills slots f i) : Fills slots' f i := by
  by_cases exact : ∃ g, formals.Names g name
  · obtain ⟨g, names⟩ := exact
    obtain rfl := matched.unique_supplied fills (matched.exact i name g written names)
    exact matched'.exact i name f written names
  · have exact : ∀ g, ¬formals.Names g name := not_exists.mp exact
    by_cases short : allowPartial ∧ ∃ g, formals.Abbreviates supplied name g
    · obtain ⟨partly, g, short⟩ := short
      obtain rfl := matched.unique_supplied fills (matched.abbreviated partly i name g written exact short).1
      exact (matched'.abbreviated partly i name f written exact short).1
    · obtain ⟨g, indices, there, member⟩ := matched.collected i name written exact fun partly g abbreviates =>
        short ⟨partly, g, abbreviates⟩
      obtain rfl := matched.unique fills there List.mem_cons_self member
      cases fills.symm.trans there

/-- No unnamed argument fills a formal that an earlier one fills by other slots, if these fill the formals
before it alike. -/
theorem not_before (matched : formals.Matched supplied allowPartial slots)
    (matched' : formals.Matched supplied allowPartial slots') {j : Nat} (lt : i < j)
    (agree : ∀ g < f, ∀ i, Fills slots g i ↔ Fills slots' g i) (unnamed : supplied.writtenName? i = none)
    (unnamed' : supplied.writtenName? j = none) (fills : Fills slots f i) : ¬Fills slots' f j := by
  intro fills'
  obtain ⟨g, earlier, there⟩ := matched'.argumentsInOrder i j f lt unnamed unnamed' fills'
  exact Nat.ne_of_lt earlier (matched.unique_supplied ((agree g earlier i).mpr there) fills)

/-- A formal that an unnamed argument fills is filled by any slots that fill the formals before it alike. -/
theorem filled (matched : formals.Matched supplied allowPartial slots)
    (matched' : formals.Matched supplied allowPartial slots')
    (agree : ∀ g < f, ∀ i, Fills slots g i ↔ Fills slots' g i) (unnamed : supplied.writtenName? i = none)
    (fills : Fills slots f i) : ¬Unfilled slots' f := by
  intro unfilled
  have member : i ∈ slots.flatMap FormalSlot.arguments :=
    List.mem_flatMap.mpr ⟨_, List.mem_of_getElem? fills, List.mem_cons_self⟩
  have inside : i < supplied.length := List.mem_range.mp (matched.once.mem_iff.mp member)
  obtain ⟨g, there⟩ := matched'.noneLeft i f inside unnamed (matched.positional i f unnamed fills) unfilled
  rcases Nat.lt_trichotomy g f with lt | rfl | lt
  · exact Nat.ne_of_lt lt (matched.unique_supplied ((agree g lt i).mpr there) fills)
  · cases unfilled.symm.trans there
  · exact matched'.formalsInOrder i f g lt unnamed there unfilled

theorem fills_of_fills (matched : formals.Matched supplied allowPartial slots)
    (matched' : formals.Matched supplied allowPartial slots')
    (agree : ∀ g < f, ∀ i, Fills slots g i ↔ Fills slots' g i) (fills : Fills slots f i) :
    Fills slots' f i := by
  cases written : supplied.writtenName? i with
  | some name => exact matched.named matched' written fills
  | none =>
    have before := matched.positional i f written fills
    have inside : f < slots'.length := by
      rw [matched'.length, ← matched.length]
      exact (List.getElem?_eq_some_iff.mp fills).1
    cases slot : slots'[f] with
    | supplied j =>
      have there : Fills slots' f j := List.getElem?_eq_some_iff.mpr ⟨inside, slot⟩
      cases written' : supplied.writtenName? j with
      | some name =>
        cases fills.symm.trans (matched'.named matched written' there)
        exact there
      | none =>
        rcases Nat.lt_trichotomy i j with lt | rfl | lt
        · exact absurd there (matched.not_before matched' lt agree written written' fills)
        · exact there
        · have agree' (g : Nat) (lt : g < f) (i : Nat) := (agree g lt i).symm
          exact absurd fills (matched'.not_before matched lt agree' written' written there)
    | varargs indices =>
      have here := matched'.varargsOnly f indices (List.getElem?_eq_some_iff.mpr ⟨inside, slot⟩)
      simp [Signature.before, here] at before
    | unfilled =>
      exact absurd (List.getElem?_eq_some_iff.mpr ⟨inside, slot⟩)
        (matched.filled matched' agree written fills)

theorem fills_iff (matched : formals.Matched supplied allowPartial slots)
    (matched' : formals.Matched supplied allowPartial slots') (f i : Nat) :
    Fills slots f i ↔ Fills slots' f i := by
  induction f using Nat.strongRecOn generalizing i with
  | ind f ih =>
    exact ⟨matched.fills_of_fills matched' ih,
      matched'.fills_of_fills matched fun g lt i => (ih g lt i).symm⟩

/-- The rules leave no choice. -/
theorem determined (matched : formals.Matched supplied allowPartial slots)
    (matched' : formals.Matched supplied allowPartial slots') : slots = slots' := by
  have fills := matched.fills_iff matched'
  have same (i : Nat) : FormalSlot.supplied i ∈ slots ↔ FormalSlot.supplied i ∈ slots' := by
    rw [List.mem_iff_getElem?, List.mem_iff_getElem?]
    exact exists_congr fun f => fills f i
  refine List.ext_getElem (matched.length.trans matched'.length.symm) fun f inside inside' => ?_
  have here := List.getElem?_eq_getElem inside
  have there := List.getElem?_eq_getElem inside'
  cases slot : slots[f] with
  | supplied i =>
    have fills' := (fills f i).mp (here.trans (congrArg some slot))
    exact (Option.some.inj (there.symm.trans fills')).symm
  | varargs indices =>
    have collects := matched.varargsOnly f indices (here.trans (congrArg some slot))
    have first := here.symm.trans (matched.varargs f collects)
    have second := there.symm.trans (matched'.varargs f collects)
    simp only [same] at first
    rw [← slot]
    exact Option.some.inj (first.trans second.symm)
  | unfilled =>
    cases slot' : slots'[f] with
    | supplied i =>
      have fills' := (fills f i).mpr (there.trans (congrArg some slot'))
      rw [← slot]
      exact Option.some.inj (here.symm.trans fills')
    | varargs indices =>
      have collects := matched'.varargsOnly f indices (there.trans (congrArg some slot'))
      have first := matched.varargs f collects
      cases (congrArg some slot).symm.trans (here.symm.trans first)
    | unfilled => rfl

end Matched
end Signature

/-! Pairs. -/

namespace Bound

variable {b c : Bound} {f i : Nat}

/-- No formal is bound twice. -/
def Functional (b : Bound) : Prop := ∀ f i j, (f, i) ∈ b → (f, j) ∈ b → i = j

theorem isFilled_iff : b.isFilled f ↔ ∃ i, (f, i) ∈ b := by
  simp [isFilled, argOf?, List.lookup_isSome_iff]

theorem isUsed_iff : b.isUsed i ↔ ∃ f, (f, i) ∈ b := by
  simp [isUsed]

theorem Functional.argOf?_eq_some_iff (functional : b.Functional) : b.argOf? f = some i ↔ (f, i) ∈ b := by
  have member {j : Nat} (bound : b.argOf? f = some j) : (f, j) ∈ b := by
    obtain ⟨before, after, rfl, -⟩ := List.lookup_eq_some_iff.mp bound
    exact List.mem_append_right _ List.mem_cons_self
  constructor
  · exact member
  · intro there
    obtain ⟨j, bound⟩ := Option.isSome_iff_exists.mp (isFilled_iff.mpr ⟨i, there⟩)
    rw [bound, functional f j i (member bound) there]

theorem Functional.cons (functional : b.Functional) (free : b.isFilled f = false) :
    Functional ((f, i) :: b) := by
  have unbound (j : Nat) : (f, j) ∉ b := fun there => by
    rw [isFilled_iff.mpr ⟨j, there⟩] at free
    cases free
  intro g j k first second
  rcases List.mem_cons.mp first with here | there <;> rcases List.mem_cons.mp second with here' | there'
  · cases here
    cases here'
    rfl
  · cases here
    exact absurd there' (unbound k)
  · cases here'
    exact absurd there (unbound j)
  · exact functional g j k there there'

/-- A pass over the arguments binds those that choose a formal, and no formal twice. -/
structure Adds (choice : Nat × Option Name → Option Nat) (args : Named) (b c : Bound) : Prop where
  mem : ∀ f i, (f, i) ∈ c ↔ (f, i) ∈ b ∨ ∃ name, (i, name) ∈ args ∧ choice (i, name) = some f
  functional : b.Functional → c.Functional

variable {choice : Nat × Option Name → Option Nat} {arg : Nat × Option Name} {args : Named}

theorem Adds.nil : Adds choice [] b b := ⟨fun f i => by simp, id⟩

theorem Adds.pass (none : choice arg = none) (adds : Adds choice args b c) :
    Adds choice (arg :: args) b c := by
  refine ⟨fun f i => ?_, adds.functional⟩
  rw [adds.mem]
  refine or_congr_right (exists_congr fun name => ?_)
  constructor
  · exact fun ⟨member, chosen⟩ => ⟨List.mem_cons_of_mem _ member, chosen⟩
  · rintro ⟨member, chosen⟩
    rcases List.mem_cons.mp member with rfl | there
    · rw [none] at chosen
      cases chosen
    · exact ⟨there, chosen⟩

theorem Adds.bind (some : choice arg = some f) (free : b.isFilled f = false)
    (adds : Adds choice args ((f, arg.1) :: b) c) : Adds choice (arg :: args) b c := by
  refine ⟨fun g i => ?_, fun functional => adds.functional (functional.cons free)⟩
  rw [adds.mem]
  constructor
  · rintro (member | ⟨name, member, chosen⟩)
    · rcases List.mem_cons.mp member with here | before
      · cases here
        exact .inr ⟨arg.2, List.mem_cons_self, some⟩
      · exact .inl before
    · exact .inr ⟨name, List.mem_cons_of_mem _ member, chosen⟩
  · rintro (before | ⟨name, member, chosen⟩)
    · exact .inl (List.mem_cons_of_mem _ before)
    · rcases List.mem_cons.mp member with rfl | there
      · cases some.symm.trans chosen
        exact .inl List.mem_cons_self
      · exact .inr ⟨name, there, chosen⟩

end Bound

/-! Passes. -/

variable {formals supplied : Signature} {name : Name} {f i : Nat} {b c fixed : Bound} {args : Named}

/-- The formal with the very name of an argument, `...` aside. -/
def exactChoice (formals : Signature) (arg : Nat × Option Name) : Option Nat :=
  arg.2.bind fun name => (formals.indexOf? name).filter fun f => some f ≠ formals.varargs

/-- The only formal that the name of an argument left over abbreviates. -/
def partialChoice (formals : Signature) (fixed : Bound) (arg : Nat × Option Name) : Option Nat :=
  arg.2.bind fun name =>
    if fixed.isUsed arg.1 then none
    else match partialCandidates formals formals.before fixed name with
      | [f] => some f
      | _ => none

theorem bindExact_adds (run : bindExact formals args b = .ok c) :
    Bound.Adds (exactChoice formals) args b c := by
  fun_induction bindExact formals args b with
  | case1 b =>
    cases run
    exact .nil
  | case2 i rest b ih => exact (ih run).pass rfl
  | case3 i name rest b none ih => exact (ih run).pass none
  | case4 => cases run
  | case5 i name rest b f chosen free ih => exact (ih run).bind chosen (Bool.not_eq_true _ ▸ free)

/-- When no argument is ambiguous the pass comes to an end. -/
theorem bindPartial_adds (run : bindPartial formals formals.before fixed args b = .ok c) :
    Bound.Adds (partialChoice formals fixed) args b c ∧
      ∀ i name, (i, some name) ∈ args → fixed.isUsed i = false →
        (partialCandidates formals formals.before fixed name).length ≤ 1 := by
  fun_induction bindPartial formals formals.before fixed args b with
  | case1 b =>
    cases run
    exact ⟨.nil, nofun⟩
  | case2 i rest b ih =>
    obtain ⟨adds, few⟩ := ih run
    refine ⟨adds.pass rfl, fun j other member => ?_⟩
    exact few j other (List.mem_of_ne_of_mem (by simp) member)
  | case3 i name rest b used ih =>
    obtain ⟨adds, few⟩ := ih run
    refine ⟨adds.pass (if_pos used), fun j other member unused => ?_⟩
    rcases List.mem_cons.mp member with here | there
    · cases here
      rw [used] at unused
      cases unused
    · exact few j other there unused
  | case4 i name rest b unused none ih =>
    obtain ⟨adds, few⟩ := ih run
    refine ⟨adds.pass (by simp [partialChoice, none]), fun j other member unused => ?_⟩
    rcases List.mem_cons.mp member with here | there
    · cases here
      rw [none]
      exact Nat.zero_le 1
    · exact few j other there unused
  | case5 => cases run
  | case6 i name rest b unused f only free ih =>
    obtain ⟨adds, few⟩ := ih run
    refine ⟨adds.bind (by simp [partialChoice, only, unused]) (Bool.not_eq_true _ ▸ free),
      fun j other member unused => ?_⟩
    rcases List.mem_cons.mp member with here | there
    · cases here
      rw [only]
      exact Nat.le_refl 1
    · exact few j other there unused
  | case7 => cases run

/-! The pass by position. -/

/-- The formals before `...` that are not filled. -/
def vacant (formals : Signature) (b : Bound) : List Nat :=
  (List.range formals.before).filter (!b.isFilled ·)

/-- The unnamed arguments. -/
def unnamed (args : Named) : List Nat := (args.filter (·.2.isNone)).map (·.1)

theorem mem_bindPositional_iff : (f, i) ∈ bindPositional formals.before args b ↔
    (∃ k : Nat, (vacant formals b)[k]? = some f ∧ (unnamed args)[k]? = some i) ∨ (f, i) ∈ b := by
  have pairs : bindPositional formals.before args b = (vacant formals b).zip (unnamed args) ++ b := rfl
  rw [pairs, List.mem_append, List.mem_iff_getElem?]
  simp only [List.getElem?_zip_eq_some]

theorem vacant_sorted : (vacant formals b).Pairwise (· < ·) := List.pairwise_lt_range.filter _

theorem mem_vacant_iff : f ∈ vacant formals b ↔ f < formals.before ∧ ¬∃ i, (f, i) ∈ b := by
  simp only [vacant, List.mem_filter, List.mem_range, Bool.not_eq_true', ← Bound.isFilled_iff,
    Bool.not_eq_true]

/-! Numbered arguments. -/

theorem mem_numbered_iff {name : Option Name} : (i, name) ∈ numbered supplied ↔
    i < supplied.length ∧ supplied.writtenName? i = name := by
  simp only [numbered, Signature.writtenName?, Signature.length, List.mem_map, Prod.mk.injEq, Prod.exists,
    List.mem_zipIdx_iff_getElem?, List.getElem?_map, Option.map_eq_some_iff]
  constructor
  · rintro ⟨other, j, ⟨first, there, rfl⟩, rfl, rfl⟩
    obtain ⟨inside, -⟩ := List.getElem?_eq_some_iff.mp there
    exact ⟨inside, by rw [there]; rfl⟩
  · rintro ⟨inside, rfl⟩
    have there := List.getElem?_eq_getElem inside
    exact ⟨_, i, ⟨_, there, rfl⟩, rfl, by rw [there]; rfl⟩

theorem numbered_indices : (numbered supplied).map (·.1) = List.range supplied.length := by
  simp [numbered, Function.comp_def, Signature.length, List.range_eq_range']

theorem unnamed_sorted : (unnamed (numbered supplied)).Pairwise (· < ·) := by
  have sublist : (unnamed (numbered supplied)).Sublist (List.range supplied.length) := by
    rw [← numbered_indices]
    exact List.filter_sublist.map _
  exact List.pairwise_lt_range.sublist sublist

theorem mem_unnamed_iff : i ∈ unnamed (numbered supplied) ↔
    i < supplied.length ∧ supplied.writtenName? i = none := by
  rw [← mem_numbered_iff]
  simp [unnamed]

/-! What the passes choose. -/

theorem Signature.lt_of_name? {f : Nat} (there : formals.name? f = some name) : f < formals.length := by
  by_contra outside
  rw [Signature.name?, List.getElem?_eq_none (Nat.le_of_not_lt outside)] at there
  cases there

theorem Signature.ne_varargs_of_lt_before {f : Nat} (lt : f < formals.before) : formals.varargs ≠ some f := by
  intro here
  simp [Signature.before, here] at lt

theorem Signature.name?_unique {f g : Nat} (distinct : formals.names.Nodup)
    (first : formals.name? f = some name) (second : formals.name? g = some name) : f = g := by
  have ltF := lt_of_name? first
  have ltG := lt_of_name? second
  have there := first.trans second.symm
  simp only [Signature.name?] at there
  rw [List.getElem?_eq_getElem ltF, List.getElem?_eq_getElem ltG] at there
  exact distinct.getElem_inj_iff.mp there

theorem exactChoice_eq_some_iff (distinct : formals.names.Nodup) :
    exactChoice formals (i, some name) = some f ↔ formals.Names f name := by
  have found {g : Nat} (first : formals.indexOf? name = some g) : formals.name? g = some name := by
    obtain ⟨lt, same, -⟩ := List.findIdx?_eq_some_iff_getElem.mp first
    rw [Signature.name?, List.getElem?_eq_getElem lt, of_decide_eq_true same]
    rfl
  simp only [exactChoice, Option.bind_some, Option.filter_eq_some_iff, decide_eq_true_eq]
  constructor
  · rintro ⟨first, apart⟩
    exact ⟨found first, Ne.symm apart⟩
  · intro names
    have present : (formals.indexOf? name).isSome := by
      rw [Signature.indexOf?, List.findIdx?_isSome, List.any_eq_true]
      have inside := Signature.lt_of_name? names.1
      refine ⟨_, List.getElem_mem inside, decide_eq_true ?_⟩
      have named := names.1
      rwa [Signature.name?, List.getElem?_eq_getElem inside] at named
    obtain ⟨g, first⟩ := Option.isSome_iff_exists.mp present
    cases Signature.name?_unique distinct (found first) names.1
    exact ⟨first, Ne.symm names.2⟩

theorem mem_partialCandidates_iff : f ∈ partialCandidates formals formals.before fixed name ↔
    f < formals.before ∧ (¬∃ i, (f, i) ∈ fixed) ∧
      ∃ formal, formals.name? f = some formal ∧ name.toList <+: formal.toList := by
  simp only [partialCandidates, List.mem_filter, List.mem_range, Bool.and_eq_true, Bool.not_eq_true',
    ← Bound.isFilled_iff, Bool.not_eq_true, Option.any_eq_true, List.isPrefixOf_iff_prefix]

/-- How a named argument finds the formal it fills. -/
def Signature.ByName (formals supplied : Signature) (allowPartial : Bool) (f i : Nat) : Prop :=
  ∃ name, supplied.writtenName? i = some name ∧ (formals.Names f name ∨
    allowPartial ∧ (∀ g, ¬formals.Names g name) ∧ formals.Abbreviates supplied name f)

variable {allowPartial : Bool}

/-- The pairs bound by name, by either pass: those that the rules call for. No name abbreviates two formals. -/
structure Signature.BoundByName (formals supplied : Signature) (allowPartial : Bool) (b : Bound) : Prop where
  functional : b.Functional
  mem : ∀ f i, (f, i) ∈ b ↔ formals.ByName supplied allowPartial f i
  single : allowPartial → ∀ i name, supplied.writtenName? i = some name → (∀ g, ¬formals.Names g name) →
    ∀ f g, formals.Abbreviates supplied name f → formals.Abbreviates supplied name g → g = f

theorem lt_length_of_writtenName? (written : supplied.writtenName? i = some name) : i < supplied.length := by
  by_contra outside
  rw [Signature.writtenName?, List.getElem?_eq_none (Nat.le_of_not_lt outside)] at written
  cases written

theorem bindExact_pairs (distinct : formals.names.Nodup)
    (run : bindExact formals (numbered supplied) [] = .ok fixed) : fixed.Functional ∧ ∀ f i,
      (f, i) ∈ fixed ↔ ∃ name, supplied.writtenName? i = some name ∧ formals.Names f name := by
  obtain ⟨mem, functional⟩ := bindExact_adds run
  refine ⟨functional nofun, fun f i => ?_⟩
  rw [mem]
  constructor
  · rintro (none | ⟨name, member, chosen⟩)
    · cases none
    · cases name with
      | none => cases chosen
      | some name =>
        exact ⟨name, (mem_numbered_iff.mp member).2, (exactChoice_eq_some_iff distinct).mp chosen⟩
  · rintro ⟨name, written, names⟩
    exact .inr ⟨some name, mem_numbered_iff.mpr ⟨lt_length_of_writtenName? written, written⟩,
      (exactChoice_eq_some_iff distinct).mpr names⟩

theorem mem_partialCandidates_iff_abbreviates (exact : ∀ g, ¬formals.Names g name)
    (pairs : ∀ f i, (f, i) ∈ fixed ↔ ∃ name, supplied.writtenName? i = some name ∧ formals.Names f name) :
    f ∈ partialCandidates formals formals.before fixed name ↔ formals.Abbreviates supplied name f := by
  rw [mem_partialCandidates_iff]
  simp only [pairs]
  refine and_congr_right fun lt => and_congr_right fun _ => exists_congr fun formal => ?_
  refine and_congr_right fun there => ⟨fun short => ⟨short, ?_⟩, fun short => short.1⟩
  rintro rfl
  exact exact f ⟨there, Signature.ne_varargs_of_lt_before lt⟩

theorem isUsed_eq_false_iff
    (pairs : ∀ f i, (f, i) ∈ fixed ↔ ∃ name, supplied.writtenName? i = some name ∧ formals.Names f name)
    (written : supplied.writtenName? i = some name) :
    fixed.isUsed i = false ↔ ∀ g, ¬formals.Names g name := by
  rw [← Bool.not_eq_true, Bound.isUsed_iff]
  simp only [pairs, written, Option.some.injEq, exists_eq_left', not_exists]

theorem eq_singleton_of_mem {l : List Nat} (few : l.length ≤ 1) (member : f ∈ l) : l = [f] := by
  match l, few, member with
  | [g], _, member => rw [List.mem_singleton.mp member]

theorem bindPartial_pairs (distinct : formals.names.Nodup)
    (first : bindExact formals (numbered supplied) [] = .ok fixed)
    (run : bindPartial formals formals.before fixed (numbered supplied) fixed = .ok c) :
    formals.BoundByName supplied true c := by
  obtain ⟨functional, pairs⟩ := bindExact_pairs distinct first
  obtain ⟨adds, few⟩ := bindPartial_adds run
  have unused {i : Nat} {name : Name} (written : supplied.writtenName? i = some name) :=
    isUsed_eq_false_iff pairs written
  have single {i : Nat} {name : Name} (written : supplied.writtenName? i = some name)
      (exact : ∀ g, ¬formals.Names g name) {f : Nat} (short : formals.Abbreviates supplied name f) :
      partialCandidates formals formals.before fixed name = [f] :=
    eq_singleton_of_mem
      (few i name (mem_numbered_iff.mpr ⟨lt_length_of_writtenName? written, written⟩) ((unused written).mpr exact))
      ((mem_partialCandidates_iff_abbreviates exact pairs).mpr short)
  refine ⟨adds.functional functional, fun f i => ?_, fun _ i name written exact f g short short' => ?_⟩
  · rw [adds.mem, pairs]
    constructor
    · rintro (⟨name, written, names⟩ | ⟨name, member, chosen⟩)
      · exact ⟨name, written, .inl names⟩
      · cases name with
        | none => cases chosen
        | some name =>
          have written := (mem_numbered_iff.mp member).2
          simp only [partialChoice, Option.bind_some] at chosen
          split at chosen
          · cases chosen
          · rename_i free
            split at chosen
            · rename_i only
              cases chosen
              have exact := (unused written).mp (Bool.not_eq_true _ ▸ free)
              refine ⟨name, written, .inr ⟨rfl, exact, ?_⟩⟩
              rw [← mem_partialCandidates_iff_abbreviates exact pairs, only]
              exact List.mem_cons_self
            · cases chosen
    · rintro ⟨name, written, names | ⟨-, exact, short⟩⟩
      · exact .inl ⟨name, written, names⟩
      · refine .inr ⟨some name, mem_numbered_iff.mpr ⟨lt_length_of_writtenName? written, written⟩, ?_⟩
        simp [partialChoice, (unused written).mpr exact, single written exact short]
  · have same := (single written exact short).symm.trans (single written exact short')
    cases same
    rfl

/-- The second pass, which may be left out. -/
def bindLeft (formals supplied : Signature) (allowPartial : Bool) (fixed : Bound) : Except MatchError Bound :=
  if allowPartial then bindPartial formals formals.before fixed (numbered supplied) fixed else .ok fixed

theorem bindLeft_pairs (distinct : formals.names.Nodup)
    (first : bindExact formals (numbered supplied) [] = .ok fixed)
    (second : bindLeft formals supplied allowPartial fixed = .ok c) :
    formals.BoundByName supplied allowPartial c := by
  cases allowPartial with
  | true => exact bindPartial_pairs distinct first second
  | false =>
    cases second
    obtain ⟨functional, pairs⟩ := bindExact_pairs distinct first
    refine ⟨functional, fun f i => ?_, nofun⟩
    rw [pairs]
    simp [Signature.ByName]

/-! What is bound in the end. -/

theorem lt_iff_of_sorted {l : List Nat} (sorted : l.Pairwise (· < ·)) {k m x y : Nat} (first : l[k]? = some x)
    (second : l[m]? = some y) : k < m ↔ x < y := by
  obtain ⟨ltK, rfl⟩ := List.getElem?_eq_some_iff.mp first
  obtain ⟨ltM, rfl⟩ := List.getElem?_eq_some_iff.mp second
  have ordered := List.pairwise_iff_getElem.mp sorted
  constructor
  · exact ordered k m ltK ltM
  · intro lt
    rcases Nat.lt_trichotomy k m with before | rfl | after
    · exact before
    · omega
    · have reverse := ordered m k ltM ltK after
      omega

theorem eq_of_sorted {l : List Nat} (sorted : l.Pairwise (· < ·)) {k m x : Nat} (first : l[k]? = some x)
    (second : l[m]? = some x) : k = m := by
  have before := lt_iff_of_sorted sorted first second
  have after := lt_iff_of_sorted sorted second first
  omega

theorem Signature.ByName.written (byName : formals.ByName supplied allowPartial f i) :
    ∃ name, supplied.writtenName? i = some name := by
  obtain ⟨name, written, -⟩ := byName
  exact ⟨name, written⟩

theorem Signature.ByName.within (byName : formals.ByName supplied allowPartial f i) :
    f < formals.length ∧ formals.varargs ≠ some f := by
  obtain ⟨name, -, names | ⟨-, -, lt, -, formal, there, -⟩⟩ := byName
  · exact ⟨lt_of_name? names.1, names.2⟩
  · exact ⟨lt_of_name? there, ne_varargs_of_lt_before lt⟩

/-- A named argument is bound once. -/
theorem Signature.BoundByName.unique (byName : formals.BoundByName supplied allowPartial b)
    (distinct : formals.names.Nodup) {g : Nat} (first : (f, i) ∈ b) (second : (g, i) ∈ b) : f = g := by
  obtain ⟨name, written, names | ⟨partly, exact, short⟩⟩ := (byName.mem f i).mp first <;>
    obtain ⟨name', written', names' | ⟨-, exact', short'⟩⟩ := (byName.mem g i).mp second <;>
    cases written.symm.trans written'
  · exact name?_unique distinct names.1 names'.1
  · exact absurd names (exact' f)
  · exact absurd names' (exact g)
  · exact (byName.single partly i name written exact f g short short').symm

theorem Signature.before_le (within : ∀ v, formals.varargs = some v → v < formals.length) :
    formals.before ≤ formals.length := by
  unfold before
  cases here : formals.varargs with
  | none => exact Nat.le_refl _
  | some v => exact Nat.le_of_lt (within v here)

/-- What is bound in the end: by name, or by position the unnamed arguments in order to the formals before
`...` that are left, in order. -/
structure Signature.BoundAll (formals supplied : Signature) (allowPartial : Bool) (c b : Bound) : Prop where
  byName : formals.BoundByName supplied allowPartial c
  mem : ∀ f i, (f, i) ∈ b ↔ (∃ k : Nat, (vacant formals c)[k]? = some f ∧
    (unnamed (numbered supplied))[k]? = some i) ∨ (f, i) ∈ c

theorem bound_in_order {k : Nat} (formal : (vacant formals c)[k]? = some f)
    (argument : (unnamed (numbered supplied))[k]? = some i) :
    (f < formals.before ∧ ¬∃ j, (f, j) ∈ c) ∧ i < supplied.length ∧ supplied.writtenName? i = none :=
  ⟨mem_vacant_iff.mp (List.mem_of_getElem? formal), mem_unnamed_iff.mp (List.mem_of_getElem? argument)⟩

namespace Signature.BoundAll

variable {g j : Nat}

theorem within (bound : formals.BoundAll supplied allowPartial c b)
    (within : ∀ v, formals.varargs = some v → v < formals.length) (there : (f, i) ∈ b) :
    f < formals.length ∧ formals.varargs ≠ some f ∧ i < supplied.length := by
  rcases (bound.mem f i).mp there with ⟨k, formal, argument⟩ | named
  · obtain ⟨⟨lt, -⟩, inside, -⟩ := bound_in_order formal argument
    exact ⟨Nat.lt_of_lt_of_le lt (before_le within), ne_varargs_of_lt_before lt, inside⟩
  · have byName := (bound.byName.mem f i).mp named
    obtain ⟨name, written⟩ := byName.written
    exact ⟨byName.within.1, byName.within.2, lt_length_of_writtenName? written⟩

/-- An unnamed argument is bound by position. -/
theorem positional (bound : formals.BoundAll supplied allowPartial c b) (there : (f, i) ∈ b)
    (noName : supplied.writtenName? i = none) : ∃ k : Nat, (vacant formals c)[k]? = some f ∧
      (unnamed (numbered supplied))[k]? = some i := by
  refine ((bound.mem f i).mp there).resolve_right fun named => ?_
  obtain ⟨name, written⟩ := ((bound.byName.mem f i).mp named).written
  rw [noName] at written
  cases written

theorem functional (bound : formals.BoundAll supplied allowPartial c b) : b.Functional := by
  intro f i j first second
  rcases (bound.mem f i).mp first with ⟨k, formal, argument⟩ | named <;>
    rcases (bound.mem f j).mp second with ⟨k', formal', argument'⟩ | named'
  · cases eq_of_sorted vacant_sorted formal formal'
    exact Option.some.inj (argument.symm.trans argument')
  · exact absurd ⟨j, named'⟩ (bound_in_order formal argument).1.2
  · exact absurd ⟨i, named⟩ (bound_in_order formal' argument').1.2
  · exact bound.byName.functional f i j named named'

theorem unique (bound : formals.BoundAll supplied allowPartial c b) (distinct : formals.names.Nodup)
    (first : (f, i) ∈ b) (second : (g, i) ∈ b) : f = g := by
  cases written : supplied.writtenName? i with
  | none =>
    obtain ⟨k, formal, argument⟩ := bound.positional first written
    obtain ⟨k', formal', argument'⟩ := bound.positional second written
    cases eq_of_sorted unnamed_sorted argument argument'
    exact Option.some.inj (formal.symm.trans formal')
  | some name =>
    have named {f : Nat} (there : (f, i) ∈ b) : (f, i) ∈ c := by
      refine ((bound.mem f i).mp there).resolve_left fun ⟨k, formal, argument⟩ => ?_
      rw [(bound_in_order formal argument).2.2] at written
      cases written
    exact bound.byName.unique distinct (named first) (named second)

/-- The formals before one that an unnamed argument fills are filled. -/
theorem formals_filled (bound : formals.BoundAll supplied allowPartial c b) (there : (g, i) ∈ b)
    (noName : supplied.writtenName? i = none) (lt : f < g) : ∃ j, (f, j) ∈ b := by
  obtain ⟨k, formal, argument⟩ := bound.positional there noName
  obtain ⟨⟨before, -⟩, -⟩ := bound_in_order formal argument
  by_cases named : ∃ j, (f, j) ∈ c
  · obtain ⟨j, named⟩ := named
    exact ⟨j, (bound.mem f j).mpr (.inr named)⟩
  · obtain ⟨m, formal'⟩ := List.mem_iff_getElem?.mp (mem_vacant_iff.mpr ⟨Nat.lt_trans lt before, named⟩)
    have earlier : m < k := (lt_iff_of_sorted vacant_sorted formal' formal).mpr lt
    have inside : m < (unnamed (numbered supplied)).length :=
      Nat.lt_trans earlier (List.getElem?_eq_some_iff.mp argument).1
    exact ⟨_, (bound.mem f _).mpr (.inl ⟨m, formal', List.getElem?_eq_getElem inside⟩)⟩

/-- The unnamed arguments before one that fills a formal fill formals before it. -/
theorem arguments_bound (bound : formals.BoundAll supplied allowPartial c b) (there : (g, j) ∈ b)
    (noName : supplied.writtenName? j = none) (lt : i < j) (noName' : supplied.writtenName? i = none) :
    ∃ f < g, (f, i) ∈ b := by
  obtain ⟨k, formal, argument⟩ := bound.positional there noName
  obtain ⟨-, inside, -⟩ := bound_in_order formal argument
  obtain ⟨m, argument'⟩ := List.mem_iff_getElem?.mp (mem_unnamed_iff.mpr ⟨Nat.lt_trans lt inside, noName'⟩)
  have earlier : m < k := (lt_iff_of_sorted unnamed_sorted argument' argument).mpr lt
  have inside : m < (vacant formals c).length :=
    Nat.lt_trans earlier (List.getElem?_eq_some_iff.mp formal).1
  have formal' := List.getElem?_eq_getElem inside
  exact ⟨_, (lt_iff_of_sorted vacant_sorted formal' formal).mp earlier,
    (bound.mem _ i).mpr (.inl ⟨m, formal', argument'⟩)⟩

/-- While a formal before `...` is left, every unnamed argument is bound. -/
theorem argument_bound (bound : formals.BoundAll supplied allowPartial c b) (inside : i < supplied.length)
    (noName : supplied.writtenName? i = none) (before : f < formals.before) (free : ∀ j, (f, j) ∉ b) :
    ∃ g, (g, i) ∈ b := by
  obtain ⟨k, argument⟩ := List.mem_iff_getElem?.mp (mem_unnamed_iff.mpr ⟨inside, noName⟩)
  have vacant := mem_vacant_iff.mpr ⟨before, fun ⟨j, named⟩ => free j ((bound.mem f j).mpr (.inr named))⟩
  obtain ⟨m, formal⟩ := List.mem_iff_getElem?.mp vacant
  -- The formal is left since its place among the vacant ones is past the end of the unnamed arguments.
  have past : (unnamed (numbered supplied)).length ≤ m := by
    by_contra less
    have argument' := List.getElem?_eq_getElem (Nat.lt_of_not_le less)
    exact free _ ((bound.mem f _).mpr (.inl ⟨m, formal, argument'⟩))
  have early : k < (CallByNeed.vacant formals c).length := by
    have ltK := (List.getElem?_eq_some_iff.mp argument).1
    have ltM := (List.getElem?_eq_some_iff.mp formal).1
    omega
  exact ⟨_, (bound.mem _ i).mpr (.inl ⟨k, List.getElem?_eq_getElem early, argument⟩)⟩

end Signature.BoundAll

/-! Slots. -/

/-- The slot of a formal, from what is bound and what is left over. -/
def slotOf (formals : Signature) (b : Bound) (leftover : List Nat) (f : Nat) : FormalSlot :=
  if formals.varargs = some f then .varargs leftover
  else ((b.argOf? f).map FormalSlot.supplied).getD .unfilled

/-- The arguments bound to no formal, in call order. -/
def leftover (supplied : Signature) (b : Bound) : List Nat :=
  (List.range supplied.length).filter (!b.isUsed ·)

/-- The slots for what is bound. -/
def slotsFor (formals supplied : Signature) (b : Bound) : List FormalSlot :=
  (List.range formals.length).map (slotOf formals b (leftover supplied b))

theorem leftover_eq (b : Bound) :
    ((numbered supplied).filter fun a => !b.isUsed a.1).map (·.1) = leftover supplied b := by
  rw [leftover, ← numbered_indices, List.filter_map]
  rfl

theorem mem_leftover_iff : i ∈ leftover supplied b ↔ i < supplied.length ∧ ¬∃ f, (f, i) ∈ b := by
  simp only [leftover, List.mem_filter, List.mem_range, Bool.not_eq_true', ← Bound.isUsed_iff,
    Bool.not_eq_true]

/-- The slots for what is bound by name, unless an argument is left over that no formal collects. -/
def slotsOf (formals supplied : Signature) (c : Bound) : Except MatchError (List FormalSlot) :=
  let b := bindPositional formals.before (numbered supplied) c
  let left := (numbered supplied).filter fun a => !b.isUsed a.1
  if formals.varargs.isNone && !left.isEmpty then
    if left.any (·.2.isSome) then .error (.unused (left.map (·.1)))
    else .error (.tooManyPositional (left.map (·.1)))
  else .ok ((List.range formals.length).map (slotOf formals b (left.map (·.1))))

theorem matchArguments_eq : matchArguments formals supplied allowPartial =
    bindExact formals (numbered supplied) [] >>= fun fixed =>
      bindLeft formals supplied allowPartial fixed >>= slotsOf formals supplied := by
  unfold matchArguments
  refine bind_congr fun fixed => ?_
  cases allowPartial <;> rfl

theorem matchArguments_slots {slots : List FormalSlot} (distinct : formals.names.Nodup)
    (run : matchArguments formals supplied allowPartial = .ok slots) :
    ∃ c b, formals.BoundAll supplied allowPartial c b ∧
      slots = slotsFor formals supplied b ∧ (formals.varargs = none → leftover supplied b = []) := by
  rw [matchArguments_eq] at run
  obtain ⟨fixed, first, run⟩ := ok_of_bind run
  obtain ⟨c, second, run⟩ := ok_of_bind run
  refine ⟨c, bindPositional formals.before (numbered supplied) c,
    ⟨bindLeft_pairs distinct first second, fun f i => mem_bindPositional_iff⟩, ?_⟩
  rw [slotsFor, ← leftover_eq]
  simp only [slotsOf] at run
  split at run
  · split at run <;> cases run
  · rename_i kept
    cases run
    refine ⟨rfl, fun none => ?_⟩
    simpa [none] using kept

theorem slotsFor_eq_some_iff {slot : FormalSlot} : (slotsFor formals supplied b)[f]? = some slot ↔
    f < formals.length ∧ slotOf formals b (leftover supplied b) f = slot := by
  by_cases inside : f < formals.length <;> simp [slotsFor, inside]

theorem slotOf_varargs {left : List Nat} (here : formals.varargs = some f) :
    slotOf formals b left f = .varargs left := if_pos here

theorem slotOf_other {left : List Nat} (elsewhere : formals.varargs ≠ some f) :
    slotOf formals b left f = ((b.argOf? f).map FormalSlot.supplied).getD .unfilled := if_neg elsewhere

namespace Signature.BoundAll

variable {indices : List Nat}

theorem fills_iff (bound : formals.BoundAll supplied allowPartial c b)
    (within : ∀ v, formals.varargs = some v → v < formals.length) :
    Fills (slotsFor formals supplied b) f i ↔ (f, i) ∈ b := by
  rw [Fills, slotsFor_eq_some_iff, ← bound.functional.argOf?_eq_some_iff]
  constructor
  · rintro ⟨-, slot⟩
    by_cases here : formals.varargs = some f
    · rw [slotOf_varargs here] at slot
      cases slot
    · rw [slotOf_other here] at slot
      cases there : b.argOf? f with
      | none =>
        rw [there] at slot
        cases slot
      | some j =>
        rw [there] at slot
        cases slot
        rfl
  · intro there
    obtain ⟨lt, elsewhere, -⟩ := bound.within within (bound.functional.argOf?_eq_some_iff.mp there)
    exact ⟨lt, by rw [slotOf_other elsewhere, there]; rfl⟩

theorem free_of_unfilled (bound : formals.BoundAll supplied allowPartial c b)
    (unfilled : Unfilled (slotsFor formals supplied b) f) (i : Nat) : (f, i) ∉ b := by
  obtain ⟨-, slot⟩ := slotsFor_eq_some_iff.mp unfilled
  intro there
  by_cases here : formals.varargs = some f
  · rw [slotOf_varargs here] at slot
    cases slot
  · rw [slotOf_other here, bound.functional.argOf?_eq_some_iff.mpr there] at slot
    cases slot

theorem of_collects (collects : Collects (slotsFor formals supplied b) f indices) :
    formals.varargs = some f ∧ indices = leftover supplied b := by
  obtain ⟨-, slot⟩ := slotsFor_eq_some_iff.mp collects
  by_cases here : formals.varargs = some f
  · rw [slotOf_varargs here] at slot
    cases slot
    exact ⟨here, rfl⟩
  · rw [slotOf_other here] at slot
    cases there : b.argOf? f <;> rw [there] at slot <;> cases slot

theorem collects (within : ∀ v, formals.varargs = some v → v < formals.length)
    (here : formals.varargs = some f) : Collects (slotsFor formals supplied b) f (leftover supplied b) :=
  slotsFor_eq_some_iff.mpr ⟨within f here, slotOf_varargs here⟩

/-- An argument is in a slot when it is bound to its formal, or left over and the formal is `...`. -/
theorem mem_slot_iff (bound : formals.BoundAll supplied allowPartial c b)
    (within : ∀ v, formals.varargs = some v → v < formals.length) :
    (∃ slot, (slotsFor formals supplied b)[f]? = some slot ∧ i ∈ slot.arguments) ↔
      (f, i) ∈ b ∨ formals.varargs = some f ∧ i ∈ leftover supplied b := by
  constructor
  · rintro ⟨slot, there, member⟩
    cases slot with
    | supplied j =>
      cases List.mem_singleton.mp member
      exact .inl ((bound.fills_iff within).mp there)
    | varargs indices =>
      obtain ⟨here, rfl⟩ := of_collects there
      exact .inr ⟨here, member⟩
    | unfilled => cases member
  · rintro (there | ⟨here, member⟩)
    · exact ⟨.supplied i, (bound.fills_iff within).mpr there, List.mem_cons_self⟩
    · exact ⟨.varargs (leftover supplied b), collects within here, member⟩

/-- No argument is in two slots, or twice in one. -/
theorem slots_nodup (bound : formals.BoundAll supplied allowPartial c b) (distinct : formals.names.Nodup)
    (within : ∀ v, formals.varargs = some v → v < formals.length) :
    ((slotsFor formals supplied b).flatMap FormalSlot.arguments).Nodup := by
  have place {f i : Nat} := bound.mem_slot_iff (f := f) (i := i) within
  refine List.nodup_flatMap.mpr ⟨fun slot member => ?_, List.pairwise_iff_getElem.mpr ?_⟩
  · obtain ⟨f, there⟩ := List.mem_iff_getElem?.mp member
    cases slot with
    | supplied i => exact List.nodup_singleton i
    | varargs indices =>
      obtain ⟨-, rfl⟩ := of_collects there
      exact List.nodup_range.filter _
    | unfilled => exact .nil
  · intro f g ltF ltG lt i here there
    have first := place.mp ⟨_, List.getElem?_eq_getElem ltF, here⟩
    have second := place.mp ⟨_, List.getElem?_eq_getElem ltG, there⟩
    rcases first with first | ⟨atF, leftF⟩ <;> rcases second with second | ⟨atG, leftG⟩
    · exact Nat.ne_of_lt lt (bound.unique distinct first second)
    · exact (mem_leftover_iff.mp leftG).2 ⟨f, first⟩
    · exact (mem_leftover_iff.mp leftF).2 ⟨g, second⟩
    · exact Nat.ne_of_lt lt (Option.some.inj (atF.symm.trans atG))

/-- Some slot has an argument when it is bound, or left over and there is `...`. -/
theorem mem_slots_iff (bound : formals.BoundAll supplied allowPartial c b)
    (within : ∀ v, formals.varargs = some v → v < formals.length) :
    i ∈ (slotsFor formals supplied b).flatMap FormalSlot.arguments ↔
      ∃ f, (f, i) ∈ b ∨ formals.varargs = some f ∧ i ∈ leftover supplied b := by
  rw [List.mem_flatMap]
  constructor
  · rintro ⟨slot, member, here⟩
    obtain ⟨f, there⟩ := List.mem_iff_getElem?.mp member
    exact ⟨f, (bound.mem_slot_iff within).mp ⟨slot, there, here⟩⟩
  · rintro ⟨f, place⟩
    obtain ⟨slot, there, here⟩ := (bound.mem_slot_iff within).mpr place
    exact ⟨slot, List.mem_of_getElem? there, here⟩

theorem once (bound : formals.BoundAll supplied allowPartial c b) (distinct : formals.names.Nodup)
    (within : ∀ v, formals.varargs = some v → v < formals.length)
    (taken : formals.varargs = none → leftover supplied b = []) :
    ((slotsFor formals supplied b).flatMap FormalSlot.arguments).Perm (List.range supplied.length) := by
  refine (List.perm_ext_iff_of_nodup (bound.slots_nodup distinct within) List.nodup_range).mpr fun i => ?_
  rw [bound.mem_slots_iff within, List.mem_range]
  constructor
  · rintro ⟨f, there | ⟨-, left⟩⟩
    · exact (bound.within within there).2.2
    · exact (mem_leftover_iff.mp left).1
  · intro inside
    by_cases there : ∃ f, (f, i) ∈ b
    · exact there.imp fun f there => .inl there
    · have left := mem_leftover_iff.mpr ⟨inside, there⟩
      cases here : formals.varargs with
      | none =>
        rw [taken here] at left
        cases left
      | some v => exact ⟨v, .inr ⟨rfl, left⟩⟩

/-- The arguments that are in no slot of their own are those left over. -/
theorem filter_slots_eq (bound : formals.BoundAll supplied allowPartial c b)
    (within : ∀ v, formals.varargs = some v → v < formals.length) :
    ((List.range supplied.length).filter fun i => FormalSlot.supplied i ∉ slotsFor formals supplied b) =
      leftover supplied b := by
  refine List.filter_congr fun i _ => ?_
  have member : FormalSlot.supplied i ∈ slotsFor formals supplied b ↔ b.isUsed i := by
    rw [List.mem_iff_getElem?, Bound.isUsed_iff]
    exact exists_congr fun f => bound.fills_iff within
  simp [member]

/-- An argument whose name is neither that of a formal nor short for one goes to `...`. -/
theorem collected (bound : formals.BoundAll supplied allowPartial c b)
    (within : ∀ v, formals.varargs = some v → v < formals.length)
    (taken : formals.varargs = none → leftover supplied b = []) {name : Name}
    (written : supplied.writtenName? i = some name) (exact : ∀ f, ¬formals.Names f name)
    (long : allowPartial → ∀ f, ¬formals.Abbreviates supplied name f) :
    ∃ f indices, Collects (slotsFor formals supplied b) f indices ∧ i ∈ indices := by
  have free : ¬∃ f, (f, i) ∈ b := by
    rintro ⟨f, there⟩
    rcases (bound.mem f i).mp there with ⟨k, formal, argument⟩ | named
    · rw [(bound_in_order formal argument).2.2] at written
      cases written
    · obtain ⟨name', written', names | ⟨partly, -, short⟩⟩ := (bound.byName.mem f i).mp named <;>
        cases written.symm.trans written'
      · exact exact f names
      · exact long partly f short
  have left := mem_leftover_iff.mpr ⟨lt_length_of_writtenName? written, free⟩
  cases here : formals.varargs with
  | none =>
    rw [taken here] at left
    cases left
  | some v => exact ⟨v, _, collects within here, left⟩

/-- A formal after `...` is bound by its very name only. -/
theorem named_after (bound : formals.BoundAll supplied allowPartial c b) {v : Nat}
    (here : formals.varargs = some v) (lt : v < f) (there : (f, i) ∈ b) :
    ∃ name, supplied.writtenName? i = some name ∧ formals.Names f name := by
  have past : ¬f < formals.before := by
    rw [before, here, Option.getD_some]
    omega
  rcases (bound.mem f i).mp there with ⟨k, formal, argument⟩ | named
  · exact absurd (bound_in_order formal argument).1.1 past
  · obtain ⟨name, written, names | ⟨-, -, lt, -⟩⟩ := (bound.byName.mem f i).mp named
    · exact ⟨name, written, names⟩
    · exact absurd lt past

theorem matched (bound : formals.BoundAll supplied allowPartial c b) (distinct : formals.names.Nodup)
    (within : ∀ v, formals.varargs = some v → v < formals.length)
    (taken : formals.varargs = none → leftover supplied b = []) :
    formals.Matched supplied allowPartial (slotsFor formals supplied b) := by
  have fills {f i : Nat} : Fills (slotsFor formals supplied b) f i ↔ (f, i) ∈ b := bound.fills_iff within
  have byName {f i : Nat} (rule : formals.ByName supplied allowPartial f i) : (f, i) ∈ b :=
    (bound.mem f i).mpr (.inr ((bound.byName.mem f i).mpr rule))
  refine
    { length := by simp [slotsFor]
      once := bound.once distinct within taken
      varargs := fun f here => ?_
      varargsOnly := fun f indices collects => (of_collects collects).1
      exact := fun i name f written names => fills.mpr (byName ⟨name, written, .inl names⟩)
      abbreviated := fun partly i name f written exact short =>
        ⟨fills.mpr (byName ⟨name, written, .inr ⟨partly, exact, short⟩⟩),
          fun g short' => bound.byName.single partly i name written exact f g short short'⟩
      collected := fun i name written exact long => bound.collected within taken written exact long
      positional := fun i f noName there => ?_
      argumentsInOrder := fun i j g lt noName noName' there => ?_
      formalsInOrder := fun i f g lt noName there unfilled => ?_
      noneLeft := fun i f inside noName before unfilled => ?_
      after := fun v f i here lt there => bound.named_after here lt (fills.mp there) }
  · rw [bound.filter_slots_eq within]
    exact collects within here
  · obtain ⟨k, formal, argument⟩ := bound.positional (fills.mp there) noName
    exact (bound_in_order formal argument).1.1
  · obtain ⟨f, earlier, there⟩ := bound.arguments_bound (fills.mp there) noName' lt noName
    exact ⟨f, earlier, fills.mpr there⟩
  · obtain ⟨j, there⟩ := bound.formals_filled (fills.mp there) noName lt
    exact bound.free_of_unfilled unfilled j there
  · obtain ⟨g, there⟩ := bound.argument_bound inside noName before (bound.free_of_unfilled unfilled)
    exact ⟨g, fills.mpr there⟩

end Signature.BoundAll

/-! Formals. -/

theorem not_mem_of_firstRepeated? {seen names : List Name}
    (none : Signature.firstRepeated? seen names = none) : names.Nodup ∧ ∀ name ∈ names, name ∉ seen := by
  induction names generalizing seen with
  | nil => exact ⟨.nil, nofun⟩
  | cons name rest ih =>
    rw [Signature.firstRepeated?] at none
    split at none
    · cases none
    · rename_i new
      obtain ⟨distinct, apart⟩ := ih none
      refine ⟨List.nodup_cons.mpr ⟨fun later => apart name later List.mem_cons_self, distinct⟩, ?_⟩
      intro other member seen
      rcases List.mem_cons.mp member with rfl | later
      · exact new (List.contains_iff_mem.mpr seen)
      · exact apart other later (List.mem_cons_of_mem _ seen)

theorem Signature.formals_distinct {names : List Name} (run : Signature.formals names = .ok formals) :
    formals.names.Nodup ∧ ∀ v, formals.varargs = some v → v < formals.length := by
  unfold Signature.formals at run
  split at run
  · cases run
  · rename_i none
    cases run
    obtain ⟨distinct, -⟩ := not_mem_of_firstRepeated? none
    refine ⟨distinct.map (Option.some_injective Name), fun v first => ?_⟩
    obtain ⟨inside, -⟩ := List.findIdx?_eq_some_iff_getElem.mp first
    simpa [ofFormals, Signature.length] using inside

/-- The slots of a call that matches obey the rules, and no other slots do. -/
theorem matchArguments_matched (names : List Name) {slots : List FormalSlot}
    (signature : Signature.formals names = .ok formals)
    (run : matchArguments formals supplied allowPartial = .ok slots) :
    formals.Matched supplied allowPartial slots ∧
      ∀ slots', formals.Matched supplied allowPartial slots' → slots' = slots := by
  obtain ⟨distinct, within⟩ := Signature.formals_distinct signature
  obtain ⟨c, b, bound, rfl, taken⟩ := matchArguments_slots distinct run
  have matched := bound.matched distinct within taken
  exact ⟨matched, fun slots' matched' => matched'.determined matched⟩

/-- Two unnamed arguments, one by its full name, one by a prefix and one with an empty name. -/
theorem matchArguments_matched_mixed : ∃ formals,
    Signature.formals ["value", "x", "...", "sep"] = .ok formals ∧
      ∃ slots, matchArguments formals (.supplied [none, some "sep", some "val", none, some ""]) true = .ok slots ∧
        slots = [.supplied 2, .supplied 0, .varargs [3, 4], .supplied 1] ∧
        formals.Matched (.supplied [none, some "sep", some "val", none, some ""]) true slots :=
  ⟨.ofFormals ["value", "x", "...", "sep"], by rfl, _, by rfl, by rfl,
    (matchArguments_matched ["value", "x", "...", "sep"] (by rfl) (by rfl)).1⟩

end CallByNeed
