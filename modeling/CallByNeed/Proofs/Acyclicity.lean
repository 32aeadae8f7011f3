import CallByNeed.Proofs.Circles
import Mathlib.Data.Finset.Card
import Mathlib.Data.Finset.Range

/-!
Programs whose vectors hold one another in no circle. They hold one another in none unless some evaluation
of the program comes to a call that stores a vector into one that it leads to and that stays unshared. Where
there is no circle, comparing vectors comes to an end.
-/
namespace CallByNeed

open Relation

/-! How far a vector leads. -/

/-- All vectors that a vector leads to exist, and none of them is in a circle. -/
def BottomsOut (vs : Array Container) (a : VectorId) : Prop :=
  ∀ b, TransGen (Holds vs) a b → b.index < vs.size ∧ ¬TransGen (Holds vs) b b

theorem BottomsOut.held {vs : Array Container} {a b : VectorId} (bottoms : BottomsOut vs a)
    (holds : Holds vs a b) : BottomsOut vs b :=
  fun c path => bottoms c (.head holds path)

theorem Acyclic.bottomsOut {vs : Array Container} (acyclic : Acyclic vs) (closed : Closed vs) (a : VectorId) :
    BottomsOut vs a := by
  intro b path
  obtain ⟨_, _, last⟩ := TransGen.tail'_iff.mp path
  exact ⟨(holds_inside closed last).2, acyclic b⟩

section Rank

variable {vs : Array Container}

open Classical

/-- The number of vectors that a vector leads to. -/
noncomputable def rank (vs : Array Container) (a : VectorId) : Nat :=
  ((Finset.range vs.size).filter fun i => TransGen (Holds vs) a ⟨i⟩).card

theorem rank_le (vs : Array Container) (a : VectorId) : rank vs a ≤ vs.size := by
  have le := Finset.card_filter_le (Finset.range vs.size) fun i => TransGen (Holds vs) a ⟨i⟩
  rwa [Finset.card_range] at le

theorem rank_lt {a b : VectorId} (bottoms : BottomsOut vs a) (holds : Holds vs a b) : rank vs b < rank vs a := by
  obtain ⟨known, apart⟩ := bottoms b (.single holds)
  refine Finset.card_lt_card (Finset.ssubset_iff_of_subset ?_ |>.mpr ⟨b.index, ?_, ?_⟩)
  · intro i member
    obtain ⟨inside, leads⟩ := Finset.mem_filter.mp member
    exact Finset.mem_filter.mpr ⟨inside, .head holds leads⟩
  · exact Finset.mem_filter.mpr ⟨Finset.mem_range.mpr known, .single holds⟩
  · exact fun member => apart (Finset.mem_filter.mp member).2

end Rank

/-! Where vectors are acyclic, comparing them comes to an end. -/

namespace Store

variable {s : Store} {a b : VectorId}

theorem allSame_congr {α : Type} {same same' : α → α → Bool} {xs ys : List α}
    (agree : ∀ x ∈ xs, ∀ y ∈ ys, same x y = same' x y) :
    Elements.allSame same xs ys = Elements.allSame same' xs ys := by
  induction xs generalizing ys with
  | nil => cases ys <;> rfl
  | cons x xs ih =>
    cases ys with
    | nil => rfl
    | cons y ys =>
      unfold Elements.allSame
      rw [agree x List.mem_cons_self y List.mem_cons_self,
        ih fun x' member y' member' =>
          agree x' (List.mem_cons_of_mem _ member) y' (List.mem_cons_of_mem _ member')]

theorem elements_congr {same same' : Value → Value → Bool} {xs ys : Elements}
    (agree : ∀ x ∈ xs.children, ∀ y ∈ ys.children, same x y = same' x y) :
    Elements.identical same xs ys = Elements.identical same' xs ys := by
  cases xs <;> cases ys <;> first | rfl | exact allSame_congr agree

theorem attributes_congr {same same' : Value → Value → Bool} {xs ys : Attributes}
    (agree : ∀ x ∈ xs.values, ∀ y ∈ ys.values, same y x = same' y x) :
    Attributes.identical same xs ys = Attributes.identical same' xs ys := by
  unfold Attributes.identical
  congr 1
  rw [Bool.eq_iff_iff, List.all_eq_true, List.all_eq_true]
  refine forall₂_congr fun entry member => ?_
  dsimp only
  cases found : ys.get? entry.1 with
  | none => rfl
  | some w =>
    rw [Option.any_some, Option.any_some,
      agree entry.2 (List.mem_map_of_mem member) w (Table.mem_values_of_get? found)]

/-- Beyond the lengths of the ways down from two vectors, more depth makes no difference. -/
theorem vectorsIdentical_of_bottomsOut (bottoms : BottomsOut s.vectors a ∧ BottomsOut s.vectors b)
    {depth more : Nat} (enough : rank s.vectors a < depth ∧ rank s.vectors b < depth) (le : depth ≤ more) :
    s.vectorsIdentical more a b = s.vectorsIdentical depth a b := by
  induction depth generalizing a b more with
  | zero => exact absurd enough.1 (Nat.not_lt_zero _)
  | succ depth ih =>
    obtain ⟨more, rfl⟩ := Nat.exists_eq_add_of_le' (Nat.le_trans (Nat.le_add_left 1 depth) le)
    -- What is left of the depth is enough for what a vector holds.
    have lower {a b : VectorId} (bottoms : BottomsOut s.vectors a ∧ rank s.vectors a < depth + 1)
        (held : .vector b ∈ (s.container a).held) : BottomsOut s.vectors b ∧ rank s.vectors b < depth :=
      ⟨bottoms.1.held (holds_of_held held),
        Nat.lt_of_lt_of_le (rank_lt bottoms.1 (holds_of_held held)) (Nat.le_of_lt_succ bottoms.2)⟩
    have inner {a' b' : VectorId} (first : BottomsOut s.vectors a' ∧ rank s.vectors a' < depth)
        (second : BottomsOut s.vectors b' ∧ rank s.vectors b' < depth) :
        s.vectorsIdentical more a' b' = s.vectorsIdentical depth a' b' :=
      ih ⟨first.1, second.1⟩ ⟨first.2, second.2⟩ (Nat.le_of_succ_le_succ le)
    -- Elements are compared in the order of the two vectors, attributes in the other one.
    have values {a b : VectorId} (first : BottomsOut s.vectors a ∧ rank s.vectors a < depth + 1)
        (second : BottomsOut s.vectors b ∧ rank s.vectors b < depth + 1) (x : Value)
        (member : x ∈ (s.container a).held) (y : Value) (member' : y ∈ (s.container b).held) :
        s.identicalWith (s.vectorsIdentical more) x y = s.identicalWith (s.vectorsIdentical depth) x y := by
      cases x <;> cases y <;> first | rfl | exact inner (lower first member) (lower second member')
    have first := And.intro bottoms.1 enough.1
    have second := And.intro bottoms.2 enough.2
    unfold vectorsIdentical
    congr 2
    · exact elements_congr fun x member y member' => values first second x
        (List.mem_append_left _ member) y (List.mem_append_left _ member')
    · exact attributes_congr fun x member y member' => values second first y
        (List.mem_append_right _ member') x (List.mem_append_right _ member)

theorem vectorsIdentical_settled (acyclic : Acyclic s.vectors) (closed : Closed s.vectors) {depth more : Nat}
    (enough : rank s.vectors a < depth ∧ rank s.vectors b < depth) (le : depth ≤ more) :
    s.vectorsIdentical more a b = s.vectorsIdentical depth a b :=
  vectorsIdentical_of_bottomsOut ⟨acyclic.bottomsOut closed a, acyclic.bottomsOut closed b⟩ enough le

end Store

namespace Session

variable {s t : Session} {options : Options}

/-- What a program consists of: code is loaded, or evaluated in some environment. -/
inductive Command where
  | load (code : Source)
  | evalIn (e : Expr) (env : EnvId)

namespace Command

def run (s : Session) : Command → Session
  | load code => { s with store := (code.load s.store).2 }
  | evalIn e env => (Session.evalIn e env s).2

/-- Vectors that the code mentions exist. -/
def Known (s : Session) : Command → Prop
  | load code => ∀ m ∈ code.mentions, (Ambit.everything True).Allows s.extent m
  | evalIn e _ => (Ambit.everything True).Reads s.extent e

end Command

/-- What a program leaves. -/
def runAll (s : Session) (program : List Command) : Session := program.foldl Command.run s

/-- Vectors that the code of a program mentions exist when their time comes. -/
def KnownAll (s : Session) : List Command → Prop
  | [] => True
  | c :: rest => c.Known s ∧ KnownAll (c.run s) rest

theorem Command.Known.sound {c : Command} (known : c.Known s) (sound : s.Sound (.everything True)) :
    (c.run s).Sound (.everything True) := by
  cases c with
  | load code =>
    obtain ⟨ok, grows, _⟩ := Ambit.checks_load known s.store sound.store (Nat.le_refl _)
    exact sound.withStore ok grows.size_le
  | evalIn e env =>
    obtain ⟨a, t, runs, ended, _⟩ := Regime.topLevel (K := .watching True)
      (m := fun alarm => watched alarm nestingLimit e env) sound fun u r opened nests _ =>
        Regime.watching_evaluates nestingLimit u e env r.id
          (nests.issued opened) nests.childless (Ambit.Reads.mono known nests.extent_le)
    have run := Filter.eventually_top.mp runs none
    rw [watched_none] at run
    change (Session.evalIn e env s).2.Sound _
    unfold Session.evalIn atTopLevel
    rw [run]
    rcases a with u | v
    · exact ended.reportFailure u.toFailure
    · exact ended

/-- A command closes no circle, unless it comes to a call that may. -/
theorem Command.Known.acyclic {c : Command} (known : c.Known s) (sound : s.Sound (.everything True))
    (acyclic : Acyclic s.store.vectors) :
    Acyclic (c.run s).store.vectors ∨ ∃ e env, c = .evalIn e env ∧ s.ComesTo .closing e env := by
  cases c with
  | load code =>
    have loads : Ambit.circleFree.Checks s.extent Ambit.circleFree.Reads code.load := Ambit.checks_load known
    obtain ⟨_, grows, _⟩ := loads s.store (sound.store.withWrite _) (Nat.le_refl _)
    exact .inl (grows.course.acyclic sound.store.vectors acyclic).2
  | evalIn e env =>
    by_cases comes : s.ComesTo .closing e env
    · exact .inr ⟨e, env, rfl, comes⟩
    · exact .inl (acyclic_evalIn sound env known comes acyclic)

/-- The first command of a program that closes a circle is an evaluation that comes to a call which may. -/
theorem acyclic_runAll {program : List Command} (known : KnownAll s program)
    (sound : s.Sound (.everything True)) (acyclic : Acyclic s.store.vectors) :
    Acyclic (runAll s program).store.vectors ∨ ∃ before e env after,
      program = before ++ .evalIn e env :: after ∧ Acyclic (runAll s before).store.vectors ∧
        (runAll s before).ComesTo .closing e env := by
  induction program generalizing s with
  | nil => exact .inl acyclic
  | cons c rest ih =>
    obtain ⟨first, later⟩ := known
    rcases first.acyclic sound acyclic with still | ⟨e, env, rfl, comes⟩
    · rcases ih later (first.sound sound) still with ends | ⟨before, e, env, after, rfl, whole, comes⟩
      · exact .inl ends
      · exact .inr ⟨c :: before, e, env, after, rfl, whole, comes⟩
    · exact .inr ⟨[], e, env, rest, rfl, acyclic, comes⟩

theorem sound_runAll {program : List Command} (known : KnownAll s program)
    (sound : s.Sound (.everything True)) : (runAll s program).Sound (.everything True) := by
  induction program generalizing s with
  | nil => exact sound
  | cons c rest ih => exact ih known.2 (known.1.sound sound)

theorem acyclic_start (options : Options) : Acyclic (start options).store.vectors := by
  have empty : ∀ c ∈ (ImplicitClasses.make {}).2.vectors, c.held.isEmpty = true := by decide
  intro a circle
  obtain ⟨_, ⟨c, found, held⟩, _⟩ := TransGen.head'_iff.mp circle
  have none := empty c (Array.mem_of_getElem? found)
  rw [List.isEmpty_iff.mp none] at held
  cases held

/-- A program leaves vectors that hold one another in no circle, unless on the way, while there was none,
an evaluation came to a call that stores a vector into one that it leads to and that stays unshared with
one holder more. Where there is no circle, comparing vectors comes to an end: following them deeper than
there are vectors makes no difference. -/
theorem acyclic_unless_closed (program : List Command) (known : KnownAll (start options) program) :
    (runAll (start options) program).Sound (.everything True) ∧
    (Acyclic (runAll (start options) program).store.vectors ∨ ∃ before e env after,
      program = before ++ .evalIn e env :: after ∧
        Acyclic (runAll (start options) before).store.vectors ∧
          (runAll (start options) before).ComesTo .closing e env) ∧
    (Acyclic (runAll (start options) program).store.vectors → ∀ a b depth,
      (runAll (start options) program).store.depthBound ≤ depth →
        (runAll (start options) program).store.vectorsIdentical depth a b =
          (runAll (start options) program).store.vectorsIdentical
            (runAll (start options) program).store.depthBound a b) := by
  have started : (start options).Sound (.everything True) := sound_start options fun _ _ _ _ => trivial
  have sound := sound_runAll known started
  refine ⟨sound, acyclic_runAll known started (acyclic_start options), fun acyclic a b depth le => ?_⟩
  have closed : Closed (runAll (start options) program).store.vectors := sound.store.vectors
  have enough (a : VectorId) : rank (runAll (start options) program).store.vectors a <
      (runAll (start options) program).store.depthBound := Nat.lt_succ_of_le (rank_le _ a)
  exact Store.vectorsIdentical_settled acyclic closed ⟨enough a, enough b⟩ le

/-- A variable is bound to a list that has its former value as an attribute. -/
theorem nested_attribute_acyclic :
    let x : Expr := .symbol ⟨0⟩ "x"
    let made : Expr := .call ⟨1⟩ (.symbol ⟨2⟩ "list") [⟨none, .constant ⟨3⟩ .null⟩]
    let marked : Expr := .call ⟨4⟩ (.symbol ⟨5⟩ "structure") [⟨none, made⟩, ⟨some "logical", x⟩]
    let mark : Expr := .call ⟨6⟩ (.symbol ⟨7⟩ "attr") [⟨none, x⟩, ⟨none, .constant ⟨8⟩ (.vector ⟨0⟩)⟩]
    let compared : Expr := .call ⟨9⟩ (.symbol ⟨10⟩ "identical") [⟨none, x⟩, ⟨none, mark⟩]
    let e : Expr := .block ⟨11⟩ [.assign ⟨12⟩ x made false, .assign ⟨13⟩ x marked false, compared]
    let program : List Command := [.evalIn e global]
    KnownAll (start {}) program ∧
      (evalIn e global (start {})).1.toOption.map (runAll (start {}) program).store.valueText = some "FALSE" ∧
      (runAll (start {}) program).Sound (.everything True) ∧
      (Acyclic (runAll (start {}) program).store.vectors ∨ ∃ before e env after, program = before ++ .evalIn e env :: after ∧
        Acyclic (runAll (start {}) before).store.vectors ∧ (runAll (start {}) before).ComesTo .closing e env) := by
  intro x made marked mark compared e program
  have reads : (Ambit.everything True).Reads (start {}).extent e := by
    have mentions : ∀ m ∈ e.mentions, m = .vector ⟨0⟩ ∨ ∃ name, m = .symbol name := by
      simp [e, x, made, marked, mark, compared, Expr.mentions, Expr.allMentions, Arg.allMentions,
        Value.mentions]
    intro m mentioned
    rcases mentions m mentioned with rfl | ⟨name, rfl⟩
    · exact fun _ => (by decide : 0 < (start {}).extent)
    · trivial
  have known : KnownAll (start {}) program := ⟨reads, trivial⟩
  have apart : (evalIn e global (start {})).1.toOption.map (runAll (start {}) program).store.valueText =
    some "FALSE" := by decide +kernel
  obtain ⟨sound, ends, _⟩ := acyclic_unless_closed program known
  exact ⟨known, apart, sound, ends⟩

end Session

end CallByNeed
