import CallByNeed.Proofs.Equality
import CallByNeed.Proofs.Places

/-!
Values that mirror one another: trees with the same contents, each in its store, whatever the vectors are
called that they are made of. Where vectors are made and never written to, values go on mirroring one another.
What a builtin reads of its arguments is the same for arguments that do, and so is whether two of them are
identical.
-/
namespace CallByNeed

open Relation

/-- A value without parts in the store. Quoted code has its constants there, and a `...` list its entries. -/
def Value.isPlain : Value → Bool
  | .vector _ | .dots _ | .language _ => false
  | _ => true

/-- Contents that differ in their children only, which are related. -/
inductive Elements.Paired (R : Value → Value → Prop) : Elements → Elements → Prop
  | atomic {xs : Elements} (atomic : xs.isList = false) : Paired R xs xs
  | list {vs ws : List Value} (each : List.Forall₂ R vs ws) : Paired R (.list vs) (.list ws)

theorem Elements.paired_of_zip {R : Value → Value → Prop} {xs ys : Elements} (atoms : xs.atoms = ys.atoms)
    (length : xs.children.length = ys.children.length)
    (each : ∀ v w, (v, w) ∈ xs.children.zip ys.children → R v w) : xs.Paired R ys := by
  have children := List.forall₂_iff_zip.mpr ⟨length, fun {v w} => each v w⟩
  cases xs <;> cases ys <;> cases atoms <;> first | exact .list children | exact .atomic rfl

theorem Elements.Paired.children {R : Value → Value → Prop} {xs ys : Elements} (paired : xs.Paired R ys) :
    List.Forall₂ R xs.children ys.children := by
  cases paired with
  | @atomic xs atomic => cases xs <;> first | exact .nil | cases atomic
  | list each => exact each

theorem Elements.Paired.imp {R S : Value → Value → Prop} {xs ys : Elements} (paired : xs.Paired R ys)
    (weaker : ∀ {v w}, R v w → S v w) : xs.Paired S ys := by
  cases paired with
  | atomic atomic => exact .atomic atomic
  | list each => exact .list (each.imp fun _ _ => weaker)

theorem forall₂_members {α β : Type} {R : α → β → Prop} {xs : List α} {ys : List β}
    (each : List.Forall₂ R xs ys) : List.Forall₂ (fun x y => R x y ∧ x ∈ xs ∧ y ∈ ys) xs ys := by
  obtain ⟨length, zipped⟩ := List.forall₂_iff_zip.mp each
  exact List.forall₂_iff_zip.mpr ⟨length, fun member => ⟨zipped member, List.of_mem_zip member⟩⟩

theorem Elements.Paired.members {R : Value → Value → Prop} {xs ys : Elements} (paired : xs.Paired R ys) :
    xs.Paired (fun v w => R v w ∧ v ∈ xs.children ∧ w ∈ ys.children) ys := by
  cases paired with
  | atomic atomic => exact .atomic atomic
  | list each => exact .list (forall₂_members each)

theorem Elements.Alike.imp {R S : Value → Value → Prop} {xs ys : Elements} (alike : xs.Alike R ys)
    (weaker : ∀ v w, R v w → S v w) : xs.Alike S ys := by
  cases alike with
  | double each => exact .double each
  | list each => exact .list (each.imp weaker)
  | _ => constructor

theorem rel_imp {R S : Value → Value → Prop} {x y : Option Value} (related : Option.Rel R x y)
    (weaker : ∀ v w, R v w → S v w) : Option.Rel S x y := by
  cases related with
  | none => exact .none
  | some here => exact .some (weaker _ _ here)

/-- Attributes of the same names in the same order, with related values. -/
structure Attributes.Paired (R : Value → Value → Prop) (xs ys : Attributes) : Prop where
  each : List.Forall₂ (fun p q => p.1 = q.1 ∧ R p.2 q.2) xs.entries ys.entries
  distinct : xs.keys.Nodup

theorem map_eq_map {α β γ : Type} {f : α → γ} {g : β → γ} {xs : List α} {ys : List β}
    (each : List.Forall₂ (fun x y => f x = g y) xs ys) : xs.map f = ys.map g := by
  rwa [← List.forall₂_eq_eq_eq, List.forall₂_map_left_iff, List.forall₂_map_right_iff]

namespace Attributes

variable {R : Value → Value → Prop} {xs ys : Attributes}

theorem Paired.get? (paired : xs.Paired R ys) (name : Name) :
    Option.Rel R (Table.get? xs name) (Table.get? ys name) := by
  have each := paired.each
  unfold Table.get?
  generalize xs.entries = as, ys.entries = bs at each
  induction each with
  | nil => exact .none
  | @cons p q _ _ first _ ih =>
    rw [List.find?_cons, List.find?_cons, ← first.1]
    cases decide (p.1 = name) with
    | true => exact .some first.2
    | false => exact ih

theorem Paired.values (paired : xs.Paired R ys) : List.Forall₂ R (Table.values xs) (Table.values ys) :=
  List.rel_map (fun _ _ related => related.2) paired.each

theorem Paired.imp {S : Value → Value → Prop} (paired : xs.Paired R ys) (weaker : ∀ {v w}, R v w → S v w) :
    xs.Paired S ys :=
  ⟨paired.each.imp fun _ _ related => ⟨related.1, weaker related.2⟩, paired.distinct⟩

theorem Paired.erase (paired : xs.Paired R ys) (name : Name) :
    Attributes.Paired R (Table.erase xs name) (Table.erase ys name) := by
  constructor
  · have each := paired.each
    unfold Table.erase
    generalize xs.entries = as, ys.entries = bs at each
    induction each with
    | nil => exact .nil
    | @cons p q as bs first rest ih =>
      dsimp only at ih ⊢
      rw [List.eraseP_cons, List.eraseP_cons, ← first.1]
      cases decide (p.1 = name) with
      | true => exact rest
      | false => exact .cons first ih
  · exact (List.eraseP_sublist.map _).nodup paired.distinct

theorem Paired.members (paired : xs.Paired R ys) :
    xs.Paired (fun v w => R v w ∧ v ∈ Table.values xs ∧ w ∈ Table.values ys) ys :=
  ⟨(forall₂_members paired.each).imp fun _ _ related => ⟨related.1.1, related.1.2,
    List.mem_map_of_mem related.2.1, List.mem_map_of_mem related.2.2⟩, paired.distinct⟩

end Attributes

namespace Store

/-- Two values with the same contents down to the last, each in its store. All vectors that these are made of
are there, and no name of theirs stands twice. -/
inductive Mirrors (s t : Store) : Value → Value → Prop
  | plain {v : Value} (plain : v.isPlain = true) : Mirrors s t v v
  | vector {a b : VectorId} (here : a.index < s.vectors.size) (there : b.index < t.vectors.size)
    (atoms : (s.elements a).atoms = (t.elements b).atoms)
    (length : (s.elements a).children.length = (t.elements b).children.length)
    (each : ∀ v w, (v, w) ∈ (s.elements a).children.zip (t.elements b).children → Mirrors s t v w)
    (size : (s.container a).attributes.entries.length = (t.container b).attributes.entries.length)
    (names : ∀ p q, (p, q) ∈ (s.container a).attributes.entries.zip (t.container b).attributes.entries →
      p.1 = q.1)
    (attached : ∀ p q, (p, q) ∈ (s.container a).attributes.entries.zip (t.container b).attributes.entries →
      Mirrors s t p.2 q.2)
    (distinct : (s.container a).attributes.keys.Nodup) : Mirrors s t (.vector a) (.vector b)

variable {s t s' t' : Store} {a b : VectorId} {v w : Value}

namespace Mirrors

theorem of_paired (here : a.index < s.vectors.size) (there : b.index < t.vectors.size)
    (elements : (s.elements a).Paired (s.Mirrors t) (t.elements b))
    (attributes : (s.container a).attributes.Paired (s.Mirrors t) (t.container b).attributes) :
    s.Mirrors t (.vector a) (.vector b) := by
  obtain ⟨size, attached⟩ := List.forall₂_iff_zip.mp attributes.each
  have atoms : (s.elements a).atoms = (t.elements b).atoms := by
    generalize s.elements a = xs, t.elements b = ys at elements
    cases elements <;> rfl
  obtain ⟨length, each⟩ := List.forall₂_iff_zip.mp elements.children
  exact .vector here there atoms length (fun _ _ => each) size (fun _ _ member => (attached member).1)
    (fun _ _ member => (attached member).2) attributes.distinct

theorem elements (mirrors : s.Mirrors t (.vector a) (.vector b)) :
    (s.elements a).Paired (s.Mirrors t) (t.elements b) := by
  cases mirrors with
  | plain plain => cases plain
  | vector _ _ atoms length each => exact Elements.paired_of_zip atoms length each

theorem attributes (mirrors : s.Mirrors t (.vector a) (.vector b)) :
    (s.container a).attributes.Paired (s.Mirrors t) (t.container b).attributes := by
  cases mirrors with
  | plain plain => cases plain
  | vector _ _ _ _ _ size names attached distinct =>
    exact ⟨List.forall₂_iff_zip.mpr ⟨size, fun {p q} member => ⟨names p q member, attached p q member⟩⟩, distinct⟩

/-- Induction along two trees that mirror one another, over what the two vectors hold. -/
theorem induct {P : Value → Value → Prop} (mirrors : s.Mirrors t v w) (plain : ∀ v, v.isPlain = true → P v v)
    (vector : ∀ a b, s.Mirrors t (.vector a) (.vector b) →
      (s.elements a).Paired (fun v w => s.Mirrors t v w ∧ P v w) (t.elements b) →
        (s.container a).attributes.Paired (fun v w => s.Mirrors t v w ∧ P v w) (t.container b).attributes →
          P (.vector a) (.vector b)) : P v w := by
  induction mirrors with
  | plain given => exact plain _ given
  | @vector a b here there atoms length each size names attached distinct ihEach ihAttached =>
    exact vector a b (.vector here there atoms length each size names attached distinct)
      (Elements.paired_of_zip atoms length fun v w member => ⟨each v w member, ihEach v w member⟩)
      ⟨List.forall₂_iff_zip.mpr ⟨size, fun {p q} member =>
        ⟨names p q member, attached p q member, ihAttached p q member⟩⟩, distinct⟩

theorem inside (mirrors : s.Mirrors t (.vector a) w) : a.index < s.vectors.size := by
  cases mirrors with
  | plain plain => cases plain
  | vector here => exact here

theorem symm (mirrors : s.Mirrors t v w) : t.Mirrors s w v := by
  have swap {α β : Type} {xs : List α} {ys : List β} {x : α} {y : β} (member : (y, x) ∈ ys.zip xs) :
      (x, y) ∈ xs.zip ys := by
    rw [← List.zip_swap xs ys] at member
    obtain ⟨_, there, same⟩ := List.mem_map.mp member
    cases same
    exact there
  induction mirrors with
  | plain plain => exact .plain plain
  | @vector a b here there atoms length _ size names _ distinct each attached =>
    have keys : (s.container a).attributes.keys = (t.container b).attributes.keys :=
      map_eq_map (List.forall₂_iff_zip.mpr ⟨size, fun {p q} => names p q⟩)
    exact .vector there here atoms.symm length.symm (fun v w member => each w v (swap member)) size.symm
      (fun p q member => (names q p (swap member)).symm) (fun p q member => attached q p (swap member))
      (keys ▸ distinct)

/-- New vectors and other sharing states make no difference. -/
theorem mono (mirrors : s.Mirrors t v w) (old : Grown s s') (new : Grown t t') : s'.Mirrors t' v w := by
  induction mirrors with
  | plain plain => exact .plain plain
  | @vector a b here there atoms length _ size names _ distinct each attached =>
    obtain ⟨here', elements, attributes⟩ := old.1 a here
    obtain ⟨there', elements', attributes'⟩ := new.1 b there
    unfold Store.elements at atoms length each
    rw [← elements, ← elements'] at atoms length each
    rw [← attributes] at size names attached distinct
    rw [← attributes'] at size names attached
    exact .vector here' there' atoms length each size names attached distinct

/-- Vectors made alike mirror one another. -/
theorem made {xs ys : Elements} {as bs : Attributes} (x y : Sharing)
    (elements : xs.Paired (s.Mirrors t) ys) (attributes : as.Paired (s.Mirrors t) bs) :
    (addVector ⟨xs, as, x⟩ s).2.Mirrors (addVector ⟨ys, bs, y⟩ t).2
      (.vector (addVector ⟨xs, as, x⟩ s).1) (.vector (addVector ⟨ys, bs, y⟩ t).1) := by
  have onward {v w : Value} (mirrors : s.Mirrors t v w) :
      (addVector ⟨xs, as, x⟩ s).2.Mirrors (addVector ⟨ys, bs, y⟩ t).2 v w :=
    mirrors.mono (Owning.addVector _ s) (Owning.addVector _ t)
  have container (k : Container) (u : Store) : (addVector k u).2.container (addVector k u).1 = k := by
    rw [container_addVector]
    exact if_pos rfl
  refine of_paired ?_ ?_ ?_ ?_
  · simp [addVector]
  · simp [addVector]
  · unfold Store.elements
    rw [container, container]
    exact elements.imp onward
  · rw [container, container]
    exact attributes.imp onward

theorem sameContents (mirrors : s.Mirrors t v w) : s.SameContents v t w := by
  intro depth
  induction depth generalizing v w with
  | zero => rfl
  | succ depth ih =>
    cases mirrors with
    | plain plain => cases v <;> first | rfl | cases plain
    | vector _ _ atoms length each size names attached =>
      have children : List.Forall₂ (fun v w => s.contents depth v = t.contents depth w) _ _ :=
        List.forall₂_iff_zip.mpr ⟨length, fun {v w} member => (ih (each v w member)).symm⟩
      have values : List.Forall₂ (fun p q : Name × Value =>
          (p.1, s.contents depth p.2) = (q.1, t.contents depth q.2)) _ _ :=
        List.forall₂_iff_zip.mpr
          ⟨size, fun {p q} member => by rw [names p q member, ih (attached p q member)]⟩
      unfold contents
      rw [atoms, map_eq_map children, map_eq_map values]

/-! What is read of a value. -/

theorem vector? (mirrors : s.Mirrors t v w) :
    Option.Rel (fun a b => s.Mirrors t (.vector a) (.vector b)) v.vector? w.vector? := by
  cases mirrors with
  | @plain v plain => cases v <;> first | exact .none | cases plain
  | vector here there atoms length each size names attached distinct =>
    exact .some (.vector here there atoms length each size names attached distinct)

theorem isNull (mirrors : s.Mirrors t v w) : v.isNull = w.isNull := by
  cases mirrors <;> rfl

theorem isMissing (mirrors : s.Mirrors t v w) : v.isMissing = w.isMissing := by
  cases mirrors <;> rfl

/-- What is read of the elements of vectors that mirror one another is the same, the children apart. -/
theorem read {α : Type} {f : Elements → α}
    (blind : ∀ vs ws, vs.length = ws.length → f (.list vs) = f (.list ws))
    (mirrors : s.Mirrors t (.vector a) (.vector b)) : f (s.elements a) = f (t.elements b) := by
  have elements := mirrors.elements
  generalize s.elements a = xs, t.elements b = ys at elements
  cases elements with
  | atomic => rfl
  | list each => exact blind _ _ each.length_eq

theorem readAny {α : Type} {f : Elements → Option α} (blind : ∀ vs ws, f (.list vs) = f (.list ws))
    (mirrors : s.Mirrors t v w) :
    (v.vector?.bind fun id => f (s.elements id)) = w.vector?.bind fun id => f (t.elements id) := by
  have vectors := mirrors.vector?
  generalize v.vector? = a, w.vector? = b at vectors
  cases vectors with
  | none => rfl
  | some mirrors => exact mirrors.read fun vs ws _ => blind vs ws

theorem strings? (mirrors : s.Mirrors t v w) : s.strings? v = t.strings? w :=
  mirrors.readAny fun _ _ => rfl

theorem string? (mirrors : s.Mirrors t v w) : s.string? v = t.string? w := by
  unfold Store.string?
  rw [mirrors.strings?]

theorem number? (mirrors : s.Mirrors t v w) : s.number? v = t.number? w :=
  mirrors.readAny fun _ _ => rfl

theorem classNames (mirrors : s.Mirrors t (.vector a) (.vector b)) : s.classNames a = t.classNames b :=
  mirrors.read (f := fun xs => xs.strings?.getD []) fun _ _ _ => rfl

theorem attribute? (mirrors : s.Mirrors t (.vector a) (.vector b)) (name : Name) :
    Option.Rel (s.Mirrors t) (s.attribute? a name) (t.attribute? b name) :=
  mirrors.attributes.get? name

theorem explicitClass? (mirrors : s.Mirrors t v w) :
    Option.Rel (fun a b => s.Mirrors t (.vector a) (.vector b)) (s.explicitClass? v) (t.explicitClass? w) := by
  unfold Store.explicitClass?
  have vectors := mirrors.vector?
  generalize v.vector? = a, w.vector? = b at vectors
  cases vectors with
  | none => exact .none
  | @some a b mirrors =>
    have class' := mirrors.attribute? "class"
    simp only [Option.bind_some, classAttribute?]
    generalize s.attribute? a "class" = x, t.attribute? b "class" = y at class'
    cases class' with
    | none => exact .none
    | @some x y mirrors =>
      have vectors := mirrors.vector?
      cases x <;> cases y <;> cases vectors <;> try exact .none
      rename_i a b mirrors
      have elements := mirrors.elements
      dsimp only
      generalize s.elements a = xs, t.elements b = ys at elements
      cases elements with
      | @atomic xs =>
        cases xs with
        | character xs =>
          cases xs with
          | nil => exact .none
          | cons => exact .some mirrors
        | _ => exact .none
      | list => exact .none

theorem isObject (mirrors : s.Mirrors t v w) : s.isObject v = t.isObject w := by
  have classes := mirrors.explicitClass?
  unfold Store.isObject
  generalize s.explicitClass? v = a, t.explicitClass? w = b at classes
  cases classes <;> rfl

/-! Whether two values are identical. -/

theorem bottomsOut_of_held {vs : Array Container} {a : VectorId}
    (below : ∀ c, Holds vs a c → c.index < vs.size ∧ BottomsOut vs c) : BottomsOut vs a := by
  intro c path
  obtain ⟨d, first, rest⟩ := TransGen.head'_iff.mp path
  obtain ⟨inside, bottoms⟩ := below d first
  rcases reflTransGen_iff_eq_or_transGen.mp rest with rfl | further
  · exact ⟨inside, fun circle => (bottoms c circle).2 circle⟩
  · exact bottoms c further

theorem exists_of_mem {α β : Type} {R : α → β → Prop} {xs : List α} {ys : List β} {y : β}
    (each : List.Forall₂ R xs ys) (member : y ∈ ys) : ∃ x, R x y := by
  induction each with
  | nil => cases member
  | cons here _ ih =>
    rcases List.mem_cons.mp member with rfl | later
    · exact ⟨_, here⟩
    · exact ih later

/-- The way down from a vector that mirrors another comes to an end. -/
theorem bottomsOut (mirrors : s.Mirrors t v (.vector b)) : BottomsOut t.vectors b := by
  suffices all : ∀ c, Value.vector b = .vector c → BottomsOut t.vectors c from all b rfl
  refine mirrors.induct (P := fun _ w => ∀ c, w = .vector c → BottomsOut t.vectors c) ?_ ?_
  · intro v plain c same
    rw [same] at plain
    cases plain
  · intro a b _ elements attributes c same
    cases same
    refine bottomsOut_of_held fun d holds => ?_
    obtain ⟨k, found, held⟩ := holds
    have same : t.container b = k := congrArg (·.getD default) found
    rw [← same] at held
    obtain ⟨x, mirrors, bottoms⟩ := (List.mem_append.mp held).elim (exists_of_mem elements.children)
      (exists_of_mem attributes.values)
    exact ⟨mirrors.symm.inside, bottoms d rfl⟩

theorem identicalWith_plain {vectors : VectorId → VectorId → Bool} (plain : v.isPlain = true) :
    t.identicalWith vectors v v = true := by
  cases v <;> first | exact absurd plain Bool.false_ne_true | simp [identicalWith, Value.same]

theorem plain_eq (mirrors : s.Mirrors t v w) (plain : v.isPlain = true) : w = v := by
  cases mirrors with
  | plain => rfl
  | vector => cases plain

theorem eq_vector (mirrors : s.Mirrors t (.vector a) w) : ∃ b, w = .vector b := by
  cases mirrors with
  | plain plain => cases plain
  | vector => exact ⟨_, rfl⟩

theorem forall₂_join {α β γ : Type} {P : α → β → Prop} {Q : α → γ → Prop} {R : β → γ → Prop} {xs : List α}
    {ys : List β} {zs : List γ} (first : List.Forall₂ P xs ys) (second : List.Forall₂ Q xs zs)
    (rest : ∀ {x y z}, P x y → Q x z → R y z) : List.Forall₂ R ys zs := by
  induction first generalizing zs with
  | nil =>
    cases second
    exact .nil
  | cons here _ ih =>
    cases second with
    | cons here' later => exact .cons (rest here here') (ih later)

theorem rel_join {α β γ : Type} {P : α → β → Prop} {Q : α → γ → Prop} {R : β → γ → Prop} {x : Option α}
    {y : Option β} {z : Option γ} (first : Option.Rel P x y) (second : Option.Rel Q x z)
    (rest : ∀ {x y z}, P x y → Q x z → R y z) : Option.Rel R y z := by
  cases first with
  | none =>
    cases second
    exact .none
  | some here =>
    cases second with
    | some here' => exact .some (rest here here')

theorem alike_join {P Q R : Value → Value → Prop} {xs ys zs : Elements} (first : xs.Paired P ys)
    (second : xs.Paired Q zs) (rest : ∀ {x y z}, P x y → Q x z → R y z) : ys.Alike R zs := by
  cases first with
  | @atomic xs atomic =>
    cases second with
    | atomic =>
      cases xs with
      | logical xs => exact .logical xs
      | integer xs => exact .integer xs
      | double xs => exact .double (Elements.equivalence_sameDouble.list.refl fun _ _ => trivial)
      | character xs => exact .character xs
      | list xs => cases atomic
    | list => cases atomic
  | list each =>
    cases second with
    | atomic atomic => cases atomic
    | list each' => exact .list (forall₂_join each each' rest)


theorem alike_transfer {P P' R R' : Value → Value → Prop} {xs ys xs' ys' : Elements} (alike : xs.Alike R xs')
    (first : xs.Paired P ys) (second : xs'.Paired P' ys')
    (rest : ∀ {x x' y y'}, R x x' → P x y → P' x' y' → R' y y') : ys.Alike R' ys' := by
  cases first with
  | atomic atomic =>
    cases second with
    | atomic =>
      cases alike with
      | list => cases atomic
      | double each => exact .double each
      | _ => constructor
    | list => cases alike; cases atomic
  | list each =>
    cases alike with
    | list between =>
      cases second with
      | atomic atomic => cases atomic
      | list each' =>
        have middle := forall₂_join (R := fun x' y => ∃ x, R x x' ∧ P x y) between each
          fun related mirrors => ⟨_, related, mirrors⟩
        exact .list (forall₂_join middle each' fun ⟨_, related, mirrors⟩ mirrors' => rest related mirrors mirrors')

theorem rel_transfer {P P' R R' : Value → Value → Prop} {x y x' y' : Option Value} (related : Option.Rel R x x')
    (first : Option.Rel P x y) (second : Option.Rel P' x' y')
    (rest : ∀ {x x' y y'}, R x x' → P x y → P' x' y' → R' y y') : Option.Rel R' y y' := by
  cases related with
  | none =>
    cases first
    cases second
    exact .none
  | some here =>
    cases first with
    | some mirrors =>
      cases second with
      | some mirrors' => exact .some (rest here mirrors mirrors')

end Mirrors

/-- At every depth beyond the lengths of the ways down, two values are identical, in either order. -/
def Levels (s : Store) (v w : Value) : Prop :=
  ∀ depth, (∀ c, v = .vector c ∨ w = .vector c → rank s.vectors c < depth) →
    s.identicalWith (s.vectorsIdentical depth) v w = true ∧ s.identicalWith (s.vectorsIdentical depth) w v = true

theorem Levels.symm (levels : s.Levels v w) : s.Levels w v :=
  fun depth enough => (levels depth fun c same => enough c same.symm).symm

/-- What the depth is enough for above it is enough for below. -/
theorem Levels.held {depth : Nat} (levels : s.Levels v w) (bottoms : BottomsOut s.vectors a)
    (bottoms' : BottomsOut s.vectors b) (enough : rank s.vectors a < depth + 1 ∧ rank s.vectors b < depth + 1)
    (held : v ∈ (s.container a).held) (held' : w ∈ (s.container b).held) :
    s.identicalWith (s.vectorsIdentical depth) v w = true ∧
      s.identicalWith (s.vectorsIdentical depth) w v = true := by
  refine levels depth fun c same => ?_
  rcases same with rfl | rfl
  · exact Nat.lt_of_lt_of_le (rank_lt bottoms (holds_of_held held)) (Nat.le_of_lt_succ enough.1)
  · exact Nat.lt_of_lt_of_le (rank_lt bottoms' (holds_of_held held')) (Nat.le_of_lt_succ enough.2)

/-- Vectors are identical if what they hold is. -/
theorem vectorsIdentical_of_parts {depth : Nat} (bottoms : BottomsOut s.vectors a)
    (bottoms' : BottomsOut s.vectors b) (enough : rank s.vectors a < depth + 1 ∧ rank s.vectors b < depth + 1)
    (distinct : (s.container a).attributes.keys.Nodup) (distinct' : (s.container b).attributes.keys.Nodup)
    (elements : (s.elements a).Alike
      (fun v w => s.Levels v w ∧ v ∈ (s.elements a).children ∧ w ∈ (s.elements b).children) (s.elements b))
    (attributes : ∀ name, Option.Rel
      (fun v w => s.Levels v w ∧ v ∈ Table.values (s.container a).attributes ∧
        w ∈ Table.values (s.container b).attributes)
      (Table.get? (s.container a).attributes name) (Table.get? (s.container b).attributes name)) :
    s.vectorsIdentical (depth + 1) a b = true := by
  have first : Elements.identical (s.identicalWith (s.vectorsIdentical depth)) (s.elements a) (s.elements b) =
      true := by
    refine Elements.identical_iff.mpr (elements.imp fun v w part => ?_)
    exact (part.1.held bottoms bottoms' enough (List.mem_append_left _ part.2.1)
      (List.mem_append_left _ part.2.2)).1
  have second : Attributes.identical (s.identicalWith (s.vectorsIdentical depth)) (s.container a).attributes
      (s.container b).attributes = true := by
    refine (Attributes.identical_iff distinct distinct').mpr fun name =>
      rel_imp (attributes name) fun v w part => ?_
    exact (part.1.held bottoms bottoms' enough (List.mem_append_right _ part.2.1)
      (List.mem_append_right _ part.2.2)).2
  unfold vectorsIdentical
  rw [first, second]
  simp

namespace Mirrors

/-- Values that mirror one value are identical. -/
theorem levels (first : s.Mirrors t v w) : ∀ w', s.Mirrors t v w' → t.Levels w w' := by
  refine first.induct (P := fun v w => ∀ w', s.Mirrors t v w' → t.Levels w w') ?_ ?_
  · intro v plain w' second depth _
    obtain rfl := second.plain_eq plain
    exact ⟨identicalWith_plain plain, identicalWith_plain plain⟩
  · intro a b first elements attributes w' second depth enough
    obtain ⟨b', rfl⟩ := second.eq_vector
    obtain ⟨depth, rfl⟩ := Nat.exists_eq_add_one_of_ne_zero (Nat.ne_zero_of_lt (enough b (.inl rfl)))
    have le := And.intro (enough b (.inl rfl)) (enough b' (.inr rfl))
    have keys := first.symm.attributes.distinct
    have keys' := second.symm.attributes.distinct
    have contents := elements.members
    have contents' := second.elements.members
    have values := attributes.members
    have values' := second.attributes.members
    constructor
    · refine vectorsIdentical_of_parts first.bottomsOut second.bottomsOut le keys keys'
        (alike_join contents contents' fun part part' => ⟨part.1.2 _ part'.1, part.2.2, part'.2.2⟩) fun name => ?_
      exact rel_join (values.get? name) (values'.get? name) fun part part' =>
        ⟨part.1.2 _ part'.1, part.2.2, part'.2.2⟩
    · refine vectorsIdentical_of_parts second.bottomsOut first.bottomsOut le.symm keys' keys
        (alike_join contents' contents fun part' part => ⟨(part.1.2 _ part'.1).symm, part'.2.2, part.2.2⟩)
        fun name => ?_
      exact rel_join (values'.get? name) (values.get? name) fun part' part =>
        ⟨(part.1.2 _ part'.1).symm, part'.2.2, part.2.2⟩

theorem matches_transfer {v w v' w' : Value} (first : s.Mirrors t v v') (second : s.Mirrors t w w')
    {R R' : VectorId → VectorId → Prop} (matched : s.Matches R v w)
    (vectors : ∀ {a b a' b'}, s.Mirrors t (.vector a) (.vector a') → s.Mirrors t (.vector b) (.vector b') →
      v' = .vector a' → w' = .vector b' → R a b → R' a' b') : t.Matches R' v' w' := by
  cases matched with
  | vector related =>
    obtain ⟨a', rfl⟩ := first.eq_vector
    obtain ⟨b', rfl⟩ := second.eq_vector
    exact .vector (vectors first second rfl rfl related)
  | null | missing | closure | builtin | promise | environment =>
    obtain rfl := first.plain_eq rfl
    obtain rfl := second.plain_eq rfl
    constructor <;> assumption
  | dots | language =>
    cases first with
    | plain plain => cases plain

/-- Whether two values are identical shows in what they hold, so values that mirror them are too. -/
theorem identical_transfer {depth : Nat} {v w v' w' : Value} (first : s.Mirrors t v v')
    (second : s.Mirrors t w w') (same : s.identicalWith (s.vectorsIdentical depth) v w = true) {deep : Nat}
    (enough : ∀ c, v' = .vector c ∨ w' = .vector c → rank t.vectors c < deep) :
    t.identicalWith (t.vectorsIdentical deep) v' w' = true := by
  induction depth generalizing v w v' w' deep with
  | zero =>
    refine identicalWith_iff.mpr (matches_transfer first second (identicalWith_iff.mp same) ?_)
    intro a b a' b' left right hereA hereB related
    obtain rfl := of_decide_eq_true related
    exact (left.levels _ right deep (hereA ▸ hereB ▸ enough)).1
  | succ depth ih =>
    refine identicalWith_iff.mpr (matches_transfer first second (identicalWith_iff.mp same) ?_)
    intro a b a' b' left right hereA hereB related
    unfold vectorsIdentical at related
    rw [Bool.or_eq_true, decide_eq_true_iff, Bool.and_eq_true] at related
    rcases related with rfl | ⟨elements, attributes⟩
    · exact (left.levels _ right deep (hereA ▸ hereB ▸ enough)).1
    have le := And.intro (enough a' (.inl hereA)) (enough b' (.inr hereB))
    obtain ⟨deep, rfl⟩ := Nat.exists_eq_add_one_of_ne_zero (Nat.ne_zero_of_lt le.1)
    -- What the two hold is identical, as what those hold is that they mirror.
    have lower {y : Value} (held : y ∈ (t.container a').held ∨ y ∈ (t.container b').held) (c : VectorId)
        (here : y = .vector c) : rank t.vectors c < deep := by
      subst here
      rcases held with held | held
      · exact Nat.lt_of_lt_of_le (rank_lt left.bottomsOut (holds_of_held held)) (Nat.le_of_lt_succ le.1)
      · exact Nat.lt_of_lt_of_le (rank_lt right.bottomsOut (holds_of_held held)) (Nat.le_of_lt_succ le.2)
    have part {x x' y y' : Value} (same : s.identicalWith (s.vectorsIdentical depth) x x' = true)
        (mirrors : s.Mirrors t x y) (held : y ∈ (t.container a').held ∨ y ∈ (t.container b').held)
        (mirrors' : s.Mirrors t x' y') (held' : y' ∈ (t.container a').held ∨ y' ∈ (t.container b').held) :
        t.identicalWith (t.vectorsIdentical deep) y y' = true :=
      ih mirrors mirrors' same fun c which => which.elim (lower held c) (lower held' c)
    have first : Elements.identical (t.identicalWith (t.vectorsIdentical deep)) (t.elements a')
        (t.elements b') = true :=
      Elements.identical_iff.mpr (alike_transfer (Elements.identical_iff.mp elements) left.elements.members
        right.elements.members fun same one two => part same one.1 (.inl (List.mem_append_left _ one.2.2)) two.1
          (.inr (List.mem_append_left _ two.2.2)))
    have second : Attributes.identical (t.identicalWith (t.vectorsIdentical deep)) (t.container a').attributes
        (t.container b').attributes = true := by
      rw [Attributes.identical_iff left.attributes.distinct right.attributes.distinct] at attributes
      refine (Attributes.identical_iff left.symm.attributes.distinct
        right.symm.attributes.distinct).mpr fun name => ?_
      exact rel_transfer (attributes name) (left.attributes.members.get? name)
        (right.attributes.members.get? name) fun same one two =>
          part same two.1 (.inr (List.mem_append_right _ two.2.2)) one.1 (.inl (List.mem_append_right _ one.2.2))
    unfold vectorsIdentical
    rw [first, second]
    simp

theorem identical {v w v' w' : Value} (first : s.Mirrors t v v') (second : s.Mirrors t w w') :
    s.identical v w = t.identical v' w' := by
  have enough (u : Store) (c : VectorId) : rank u.vectors c < u.depthBound := Nat.lt_succ_of_le (rank_le _ c)
  rw [Bool.eq_iff_iff]
  constructor
  · intro same
    exact identical_transfer first second same fun c _ => enough t c
  · intro same
    exact identical_transfer first.symm second.symm same fun c _ => enough s c

end Mirrors
end Store
end CallByNeed
