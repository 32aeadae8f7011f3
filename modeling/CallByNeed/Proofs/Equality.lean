import CallByNeed.Proofs.Acyclicity
import CallByNeed.Proofs.Inheritance

/-!
Structural equality. Equality at one depth is an equivalence where equality below it is one: elements are
compared place by place and attributes name by name. The names of one table are looked for in the other
only, but as they occur once in either and are as many, none is left over. Where vectors hold one another
in no circle, the depth is never used up, and equality is that of the contents.
-/
namespace CallByNeed

open Relation

/-- A relation is an equivalence among what has a property. -/
structure EquivalenceOn {α : Type} (P : α → Prop) (R : α → α → Prop) : Prop where
  refl {x : α} : P x → R x x
  symm {x y : α} : P x → P y → R x y → R y x
  trans {x y z : α} : P x → P y → P z → R x y → R y z → R x z

namespace EquivalenceOn

variable {α β : Type} {P : α → Prop} {R S : α → α → Prop}

theorem congr (on : EquivalenceOn P R) (same : ∀ {x y}, P x → P y → (S x y ↔ R x y)) :
    EquivalenceOn P S where
  refl x := (same x x).mpr (on.refl x)
  symm x y first := (same y x).mpr (on.symm x y ((same x y).mp first))
  trans x y z first second := (same x z).mpr (on.trans x y z ((same x y).mp first) ((same y z).mp second))

theorem pullback (on : EquivalenceOn P R) {Q : β → Prop} (f : β → α) (maps : ∀ x, Q x → P (f x)) :
    EquivalenceOn Q fun x y => R (f x) (f y) where
  refl x := on.refl (maps _ x)
  symm x y := on.symm (maps _ x) (maps _ y)
  trans x y z := on.trans (maps _ x) (maps _ y) (maps _ z)

theorem flip (on : EquivalenceOn P R) : EquivalenceOn P fun x y => R y x where
  refl x := on.refl x
  symm x y := on.symm y x
  trans x y z first second := on.trans z y x second first

theorem all {ι : Type} {R : ι → α → α → Prop} (on : ∀ i, EquivalenceOn P (R i)) :
    EquivalenceOn P fun x y => ∀ i, R i x y where
  refl x i := (on i).refl x
  symm x y first i := (on i).symm x y (first i)
  trans x y z first second i := (on i).trans x y z (first i) (second i)

/-- Lists are compared place by place. -/
theorem list (on : EquivalenceOn P R) : EquivalenceOn (fun xs => ∀ x ∈ xs, P x) (List.Forall₂ R) where
  refl all := List.forall₂_same.mpr fun x member => on.refl (all x member)
  symm first second related := by
    induction related with
    | nil => exact .nil
    | cons head _ ih =>
      obtain ⟨x, xs⟩ := List.forall_mem_cons.mp first
      obtain ⟨y, ys⟩ := List.forall_mem_cons.mp second
      exact .cons (on.symm x y head) (ih xs ys)
  trans {xs ys zs} first second third related related' := by
    induction related generalizing zs with
    | nil => exact related'
    | cons head _ ih =>
      cases related' with
      | cons head' rest' =>
        obtain ⟨x, xs⟩ := List.forall_mem_cons.mp first
        obtain ⟨y, ys⟩ := List.forall_mem_cons.mp second
        obtain ⟨z, zs⟩ := List.forall_mem_cons.mp third
        exact .cons (on.trans x y z head head') (ih xs ys zs rest')

theorem option (on : EquivalenceOn P R) : EquivalenceOn (fun o => ∀ x ∈ o, P x) (Option.Rel R) where
  refl {o} all := by
    cases o with
    | none => exact .none
    | some x => exact .some (on.refl (all x rfl))
  symm first second related := by
    cases related with
    | none => exact .none
    | some related => exact .some (on.symm (first _ rfl) (second _ rfl) related)
  trans first second third related related' := by
    cases related with
    | none => exact related'
    | some related =>
      cases related' with
      | some related' => exact .some (on.trans (first _ rfl) (second _ rfl) (third _ rfl) related related')

end EquivalenceOn

namespace Table

variable {κ α : Type} [DecidableEq κ] {t : Table κ α} {k : κ} {a : α}

/-- A table that was empty, and then written to and erased from entry by entry. -/
inductive Built : Table κ α → Prop
  | empty : Built empty
  | insert {t : Table κ α} (k : κ) (a : α) (before : Built t) : Built (t.insert k a)
  | erase {t : Table κ α} (k : κ) (before : Built t) : Built (t.erase k)

theorem Built.nodup (built : Built t) : t.keys.Nodup := by
  induction built with
  | empty => exact List.nodup_nil
  | insert k a _ ih => exact nodup_keys_insert ih
  | erase k _ ih => exact nodup_keys_erase ih

theorem mem_keys_iff : k ∈ t.keys ↔ (t.get? k).isSome := by
  constructor
  · intro member
    by_contra none
    obtain ⟨e, there, same⟩ := List.mem_map.mp member
    simp only [get?, Option.isSome_map, List.find?_isSome, not_exists, not_and] at none
    exact none e there (by simpa using same)
  · intro found
    by_contra absent
    rw [get?_eq_none_of_notMem absent] at found
    cases found

theorem get?_eq_some_iff (nodup : t.keys.Nodup) : t.get? k = some a ↔ (k, a) ∈ t.entries := by
  refine ⟨mem_of_get?, fun member => ?_⟩
  obtain ⟨b, found⟩ := Option.isSome_iff_exists.mp (mem_keys_iff.mp (List.mem_map_of_mem member))
  have same : b = a :=
    congrArg Prod.snd (List.inj_on_of_nodup_map nodup (mem_of_get? found) member rfl)
  rw [found, same]

end Table

/-! One level of a comparison. -/

namespace Elements

theorem allSame_iff {α : Type} {same : α → α → Bool} {xs ys : List α} :
    allSame same xs ys = true ↔ List.Forall₂ (fun x y => same x y = true) xs ys := by
  induction xs generalizing ys with
  | nil => cases ys <;> simp [allSame]
  | cons x xs ih => cases ys <;> simp [allSame, ih]

/-- A number without the sign of a zero. -/
def unsigned (x : Float) : Float := if x = -0 then 0 else x

theorem sameDouble_iff {x y : Float} : sameDouble x y = true ↔ unsigned x = unsigned y := by
  have zero : (0 : Float) ≠ Float.nan := by decide
  have minus : (-0 : Float) ≠ Float.nan := by decide
  unfold sameDouble unsigned
  rw [Bool.or_eq_true, Float.beq_iff_ne_nan_and_eq, Bool.and_eq_true, Float.isNaN_eq_decide_eq_nan,
    Float.isNaN_eq_decide_eq_nan, decide_eq_true_iff, decide_eq_true_iff]
  grind

theorem equivalence_sameDouble :
    EquivalenceOn (fun _ : Float => True) fun x y => sameDouble x y = true where
  refl _ := sameDouble_iff.mpr rfl
  symm _ _ first := sameDouble_iff.mpr (sameDouble_iff.mp first).symm
  trans _ _ _ first second := sameDouble_iff.mpr ((sameDouble_iff.mp first).trans (sameDouble_iff.mp second))

/-- Contents of one type, with related elements at each place. -/
inductive Alike (R : Value → Value → Prop) : Elements → Elements → Prop
  | logical (xs : List Bool) : Alike R (.logical xs) (.logical xs)
  | integer (xs : List Int64) : Alike R (.integer xs) (.integer xs)
  | double {xs ys : List Float} (each : List.Forall₂ (fun x y => sameDouble x y = true) xs ys) :
    Alike R (.double xs) (.double ys)
  | character (xs : List String) : Alike R (.character xs) (.character xs)
  | list {vs ws : List Value} (each : List.Forall₂ R vs ws) : Alike R (.list vs) (.list ws)

theorem identical_iff {child : Value → Value → Bool} {xs ys : Elements} :
    identical child xs ys = true ↔ Alike (fun v w => child v w = true) xs ys := by
  constructor
  · intro same
    unfold identical at same
    split at same
    · exact eq_of_beq same ▸ .logical _
    · exact eq_of_beq same ▸ .integer _
    · exact .double (allSame_iff.mp same)
    · exact eq_of_beq same ▸ .character _
    · exact .list (allSame_iff.mp same)
    · cases same
  · intro alike
    cases alike with
    | logical | integer | character => exact BEq.rfl
    | double each | list each => exact allSame_iff.mpr each

theorem equivalence_alike {P : Value → Prop} {R : Value → Value → Prop} (on : EquivalenceOn P R) :
    EquivalenceOn (fun xs : Elements => ∀ v ∈ xs.children, P v) (Alike R) := by
  have doubles := equivalence_sameDouble.list
  have each (xs : List Float) : ∀ x ∈ xs, True := fun _ _ => trivial
  refine ⟨fun {xs} all => ?_, fun {xs ys} first second alike => ?_, fun {xs ys zs} first second third => ?_⟩
  · cases xs with
    | logical xs => exact .logical xs
    | integer xs => exact .integer xs
    | double xs => exact .double (doubles.refl (each xs))
    | character xs => exact .character xs
    | list vs => exact .list (on.list.refl all)
  · cases alike with
    | logical | integer | character => constructor
    | double related => exact .double (doubles.symm (each _) (each _) related)
    | list related => exact .list (on.list.symm first second related)
  · intro alike alike'
    cases alike with
    | logical | integer | character => exact alike'
    | double related =>
      cases alike' with
      | double related' => exact .double (doubles.trans (each _) (each _) (each _) related related')
    | list related =>
      cases alike' with
      | list related' => exact .list (on.list.trans first second third related related')

end Elements

namespace Attributes

variable {a b : Attributes} {same : Value → Value → Bool}

/-- Where names occur once, tables that are as long, the values of one related to those under its names in
the other, have related values under every name. -/
theorem identical_iff (first : a.keys.Nodup) (second : b.keys.Nodup) : identical same a b = true ↔
    ∀ name, Option.Rel (fun v w => same w v = true) (a.get? name) (b.get? name) := by
  have lengths : a.entries.length = a.keys.length ∧ b.entries.length = b.keys.length :=
    ⟨(List.length_map _).symm, (List.length_map _).symm⟩
  unfold identical
  rw [Bool.and_eq_true, beq_iff_eq, lengths.1, lengths.2, List.all_eq_true]
  constructor
  · rintro ⟨long, found⟩ name
    have into {name : Name} {v : Value} (there : a.get? name = some v) :
        ∃ w, b.get? name = some w ∧ same w v = true := by
      have matched := found (name, v) (Table.mem_of_get? there)
      cases other : b.get? name with
      | none => simp [other] at matched
      | some w => exact ⟨w, rfl, by simpa [other] using matched⟩
    have subset : a.keys ⊆ b.keys := by
      intro name member
      obtain ⟨v, there⟩ := Option.isSome_iff_exists.mp (Table.mem_keys_iff.mp member)
      obtain ⟨w, found, -⟩ := into there
      exact Table.mem_keys_iff.mpr (Option.isSome_iff_exists.mpr ⟨w, found⟩)
    have keys : a.keys.Perm b.keys :=
      (List.subperm_of_subset first subset).perm_of_length_le (Nat.le_of_eq long.symm)
    cases there : a.get? name with
    | some v =>
      obtain ⟨w, found, related⟩ := into there
      rw [found]
      exact .some related
    | none =>
      have absent : name ∉ b.keys := by
        rw [← keys.mem_iff, Table.mem_keys_iff, there]
        exact Bool.false_ne_true
      rw [Table.get?_eq_none_of_notMem absent]
      exact .none
  · intro related
    have keys : a.keys.Perm b.keys := by
      refine (List.perm_ext_iff_of_nodup first second).mpr fun name => ?_
      rw [Table.mem_keys_iff, Table.mem_keys_iff]
      have here := related name
      generalize a.get? name = v, b.get? name = w at here
      cases here <;> rfl
    refine ⟨keys.length_eq, fun entry member => ?_⟩
    obtain ⟨name, v⟩ := entry
    have here := related name
    rw [(Table.get?_eq_some_iff first).mpr member] at here
    dsimp only
    cases found : b.get? name with
    | none => rw [found] at here; cases here
    | some w =>
      rw [found] at here
      cases here with
      | some matched => exact matched

theorem equivalence_identical {P : Value → Prop} (on : EquivalenceOn P fun v w => same v w = true) :
    EquivalenceOn (fun a : Attributes => a.keys.Nodup ∧ ∀ v ∈ a.values, P v)
      fun a b => identical same a b = true := by
  have values {a : Attributes} (all : ∀ v ∈ a.values, P v) (name : Name) : ∀ v ∈ a.get? name, P v :=
    fun v there => all v (Table.mem_values_of_get? there)
  have names (name : Name) : EquivalenceOn (fun a : Attributes => a.keys.Nodup ∧ ∀ v ∈ a.values, P v)
      fun a b => Option.Rel (fun v w => same w v = true) (a.get? name) (b.get? name) :=
    on.flip.option.pullback (fun a : Attributes => a.get? name) fun a (proper : _ ∧ _) => values proper.2 name
  exact (EquivalenceOn.all names).congr fun first second => identical_iff first.1 second.1

end Attributes

namespace Store

variable {s : Store} {nodes : NodeId → Expr}

/-- Values that are equal where their vectors are. -/
inductive Matches (s : Store) (R : VectorId → VectorId → Prop) : Value → Value → Prop
  | null : Matches s R .null .null
  | missing : Matches s R .missing .missing
  | vector {a b : VectorId} (related : R a b) : Matches s R (.vector a) (.vector b)
  | closure (a b : ClosureId) {f g : Function} (env : EnvId) (node : f.node = g.node) :
    Matches s R (.closure a f env) (.closure b g env)
  | builtin (m n : Name) (id : Nat) : Matches s R (.builtin m id) (.builtin n id)
  | promise (id : PromiseId) : Matches s R (.promise id) (.promise id)
  | environment (id : EnvId) : Matches s R (.environment id) (.environment id)
  | dots (id : DotsId) : Matches s R (.dots id) (.dots id)
  | language {d e : Expr} (same : d.id = e.id ∨ s.exprText d = s.exprText e) :
    Matches s R (.language d) (.language e)

theorem identicalWith_iff {vectors : VectorId → VectorId → Bool} {v w : Value} :
    s.identicalWith vectors v w = true ↔ Matches s (fun a b => vectors a b = true) v w := by
  constructor
  · intro same
    cases v <;> cases w <;> first | exact absurd same Bool.false_ne_true | skip
    case null => exact .null
    case missing => exact .missing
    case vector => exact .vector same
    case closure =>
      obtain ⟨node, env⟩ := (Bool.and_eq_true _ _).mp same
      cases of_decide_eq_true env
      exact .closure _ _ _ (of_decide_eq_true node)
    case builtin => cases of_decide_eq_true same; exact .builtin _ _ _
    case promise => cases of_decide_eq_true same; exact .promise _
    case environment => cases of_decide_eq_true same; exact .environment _
    case dots => cases of_decide_eq_true same; exact .dots _
    case language =>
      exact .language (((Bool.or_eq_true _ _).mp same).imp of_decide_eq_true eq_of_beq)
  · intro matched
    cases matched <;> simp_all [identicalWith, Value.same]

theorem equivalence_matches {P : VectorId → Prop} {R : VectorId → VectorId → Prop}
    (on : EquivalenceOn P R) :
    EquivalenceOn (fun v => (∀ c, v = .vector c → P c) ∧ ∀ e, v = .language e → nodes e.id = e)
      (Matches s R) := by
  refine ⟨fun {v} proper => ?_, fun {v w} first second matched => ?_,
    fun {v w x} first second third matched matched' => ?_⟩
  · cases v with
    | vector c => exact .vector (on.refl (proper.1 c rfl))
    | closure id f env => exact .closure id id env rfl
    | builtin name id => exact .builtin name name id
    | language e => exact .language (.inl rfl)
    | _ => constructor
  · cases matched with
    | vector related => exact .vector (on.symm (first.1 _ rfl) (second.1 _ rfl) related)
    | closure _ _ _ node => exact .closure _ _ _ node.symm
    | language same => exact .language (same.imp Eq.symm Eq.symm)
    | _ => constructor
  · cases matched with
    | vector related =>
      cases matched' with
      | vector related' =>
        exact .vector (on.trans (first.1 _ rfl) (second.1 _ rfl) (third.1 _ rfl) related related')
    | closure _ _ _ node =>
      cases matched' with
      | closure _ _ _ node' => exact .closure _ _ _ (node.trans node')
    | builtin _ _ _ =>
      cases matched' with
      | builtin _ _ _ => exact .builtin _ _ _
    | @language d e same =>
      -- Of two reasons to be equal, that of one node is one of one text too.
      have text {d e : Expr} (first : nodes d.id = d) (second : nodes e.id = e)
          (same : d.id = e.id ∨ s.exprText d = s.exprText e) : s.exprText d = s.exprText e := by
        rcases same with node | text
        · rw [← first, ← second, node]
        · exact text
      cases matched' with
      | language same' =>
        have middle := second.2 _ rfl
        exact .language (.inr ((text (first.2 _ rfl) middle same).trans (text middle (third.2 _ rfl) same')))
    | _ => exact matched'

/-! All levels. -/

/-- A vector holds a value, as an element or the value of an attribute. -/
def Has (s : Store) (v w : Value) : Prop := ∃ c, v = .vector c ∧ w ∈ (s.container c).held

/-- A value with all that is in it: its vectors exist, are in no circle and have attributes that were set and
removed one by one, and its code is that of its node. -/
structure Proper (nodes : NodeId → Expr) (s : Store) (v : Value) : Prop where
  known : ∀ c, ReflTransGen s.Has v (.vector c) → c.index < s.vectors.size
  acyclic : ∀ c, ReflTransGen s.Has v (.vector c) → ¬TransGen (Holds s.vectors) c c
  built : ∀ c, ReflTransGen s.Has v (.vector c) → (s.container c).attributes.Built
  code : ∀ e, ReflTransGen s.Has v (.language e) → nodes e.id = e

theorem Proper.has {v w : Value} (proper : s.Proper nodes v) (has : s.Has v w) : s.Proper nodes w where
  known c path := proper.known c (.head has path)
  acyclic c path := proper.acyclic c (.head has path)
  built c path := proper.built c (.head has path)
  code e path := proper.code e (.head has path)

theorem has_of_holds {a b : VectorId} (holds : Holds s.vectors a b) : s.Has (.vector a) (.vector b) := by
  obtain ⟨c, found, held⟩ := holds
  refine ⟨a, rfl, ?_⟩
  rw [show s.container a = c from congrArg (·.getD default) found]
  exact held

theorem Proper.bottomsOut {a : VectorId} (proper : s.Proper nodes (.vector a)) : BottomsOut s.vectors a := by
  intro b path
  have reached : ReflTransGen s.Has (.vector a) (.vector b) :=
    path.to_reflTransGen.lift Value.vector fun _ _ => has_of_holds
  exact ⟨proper.known b reached, proper.acyclic b reached⟩

/-- Vectors that are compared by their contents, with the values in them compared in some way. -/
def contentsIdentical (s : Store) (same : Value → Value → Bool) (a b : VectorId) : Bool :=
  a = b || (Elements.identical same (s.elements a) (s.elements b)
    && Attributes.identical same (s.container a).attributes (s.container b).attributes)

theorem equivalence_contentsIdentical {same : Value → Value → Bool}
    (on : EquivalenceOn (s.Proper nodes) fun v w => same v w = true) :
    EquivalenceOn (fun c => s.Proper nodes (.vector c)) fun a b => s.contentsIdentical same a b = true := by
  have elements := ((Elements.equivalence_alike on).congr fun _ _ => Elements.identical_iff).pullback s.elements
    fun c (proper : s.Proper nodes (.vector c)) v member =>
      proper.has ⟨c, rfl, List.mem_append_left _ member⟩
  have attributes := (Attributes.equivalence_identical on).pullback (fun c => (s.container c).attributes)
    fun c (proper : s.Proper nodes (.vector c)) =>
      ⟨(proper.built c .refl).nodup, fun v member => proper.has ⟨c, rfl, List.mem_append_right _ member⟩⟩
  have split {a b : VectorId} : s.contentsIdentical same a b = true ↔
      a = b ∨ Elements.identical same (s.elements a) (s.elements b) = true ∧
        Attributes.identical same (s.container a).attributes (s.container b).attributes = true := by
    unfold contentsIdentical
    rw [Bool.or_eq_true, decide_eq_true_iff, Bool.and_eq_true]
  refine ⟨fun _ => split.mpr (.inl rfl), fun first second related => split.mpr ?_,
    fun {a b c} first second third related related' => ?_⟩
  · rcases split.mp related with rfl | ⟨contents, names⟩
    · exact .inl rfl
    · exact .inr ⟨elements.symm first second contents, attributes.symm first second names⟩
  · rcases split.mp related with rfl | ⟨contents, names⟩
    · exact related'
    rcases split.mp related' with rfl | ⟨contents', names'⟩
    · exact related
    · exact split.mpr (.inr ⟨elements.trans first second third contents contents',
        attributes.trans first second third names names'⟩)

theorem equivalence_identicalWith {vectors : VectorId → VectorId → Bool}
    (on : EquivalenceOn (fun c => s.Proper nodes (.vector c)) fun a b => vectors a b = true) :
    EquivalenceOn (s.Proper nodes) fun v w => s.identicalWith vectors v w = true := by
  have values : EquivalenceOn (s.Proper nodes) (Matches s fun a b => vectors a b = true) :=
    (equivalence_matches on).pullback id fun v (proper : s.Proper nodes v) =>
      ⟨fun c same => same ▸ proper, fun e same => proper.code e (same ▸ .refl)⟩
  exact values.congr fun _ _ => identicalWith_iff

theorem equivalence_vectorsIdentical (s : Store) (nodes : NodeId → Expr) (depth : Nat) :
    EquivalenceOn (fun c => s.Proper nodes (.vector c)) fun a b => s.vectorsIdentical depth a b = true := by
  induction depth with
  | zero =>
    have same {a b : VectorId} : s.vectorsIdentical 0 a b = true ↔ a = b := decide_eq_true_iff
    exact ⟨fun _ => same.mpr rfl, fun _ _ first => same.mpr (same.mp first).symm,
      fun _ _ _ first second => same.mpr ((same.mp first).trans (same.mp second))⟩
  | succ depth ih => exact equivalence_contentsIdentical (equivalence_identicalWith ih)

/-- Among acyclic values whose attributes were set and removed one by one, structural equality is an
equivalence, and compares vectors that are not one by their contents, at any depth. -/
theorem identical_equivalence (nodes : NodeId → Expr) (s : Store) :
    Equivalence (fun v w : {v // s.Proper nodes v} => s.identical v w = true) ∧
      ∀ v w, s.Proper nodes v → s.Proper nodes w →
        s.identical v w = s.identicalWith (s.contentsIdentical s.identical) v w := by
  have on := equivalence_identicalWith (equivalence_vectorsIdentical s nodes s.depthBound)
  refine ⟨⟨fun v => on.refl v.2, fun {v w} => on.symm v.2 w.2, fun {v w x} => on.trans v.2 w.2 x.2⟩, ?_⟩
  intro v w first second
  have deeper {a b : VectorId} (first : s.Proper nodes (.vector a)) (second : s.Proper nodes (.vector b)) :
      s.vectorsIdentical s.depthBound a b = s.vectorsIdentical (s.depthBound + 1) a b :=
    (vectorsIdentical_of_bottomsOut ⟨first.bottomsOut, second.bottomsOut⟩
      ⟨Nat.lt_succ_of_le (rank_le _ a), Nat.lt_succ_of_le (rank_le _ b)⟩ (Nat.le_succ _)).symm
  cases v <;> cases w <;> first | rfl | exact deeper first second

/-- Two lists hold numbers that differ in the sign of a zero, and have attributes in different orders. -/
theorem identical_unordered_attributes :
    let s : Store := { vectors := #[⟨.double [0 / 0, 0], {}, .shared⟩, ⟨.double [0 / 0, -0], {}, .shared⟩,
      ⟨.list [.vector ⟨0⟩], (Table.empty.insert "a" .null).insert "b" (.vector ⟨1⟩), .shared⟩,
      ⟨.list [.vector ⟨1⟩], (Table.empty.insert "b" (.vector ⟨0⟩)).insert "a" .null, .shared⟩] }
    let nodes : NodeId → Expr := fun _ => default
    (s.Proper nodes (.vector ⟨2⟩) ∧ s.Proper nodes (.vector ⟨3⟩)) ∧
      s.identical (.vector ⟨2⟩) (.vector ⟨3⟩) = true ∧ s.identical (.vector ⟨3⟩) (.vector ⟨2⟩) = true ∧
      s.contentsIdentical s.identical ⟨2⟩ ⟨3⟩ = true := by
  intro s nodes
  have held {a : VectorId} {w : Value} (member : w ∈ (s.container a).held) :
      2 ≤ a.index ∧ (w = .null ∨ w = .vector ⟨0⟩ ∨ w = .vector ⟨1⟩) := by
    obtain ⟨_ | _ | _ | _ | k⟩ := a
    · cases member
    · cases member
    · have member : w ∈ [.vector ⟨0⟩, .null, .vector ⟨1⟩] := member
      simp only [List.mem_cons, List.not_mem_nil, or_false] at member
      exact ⟨Nat.le_refl 2, by tauto⟩
    · have member : w ∈ [.vector ⟨1⟩, .vector ⟨0⟩, .null] := member
      simp only [List.mem_cons, List.not_mem_nil, or_false] at member
      exact ⟨Nat.le_succ 2, by tauto⟩
    · cases member
  have holds {a b : VectorId} (holds : Holds s.vectors a b) : 2 ≤ a.index ∧ b.index < 2 := by
    obtain ⟨_, same, member⟩ := has_of_holds holds
    cases same
    obtain ⟨upper, none | first | second⟩ := held member
    · cases none
    · cases first; exact ⟨upper, Nat.zero_lt_two⟩
    · cases second; exact ⟨upper, Nat.one_lt_two⟩
  have proper {c : VectorId} (inside : c.index < 4) : s.Proper nodes (.vector c) := by
    have reached {w : Value} (path : ReflTransGen s.Has (.vector c) w) :
        w = .null ∨ ∃ b, w = .vector b ∧ b.index < 4 := by
      cases path with
      | refl => exact .inr ⟨c, rfl, inside⟩
      | tail _ last =>
        obtain ⟨_, -, member⟩ := last
        obtain ⟨-, rfl | rfl | rfl⟩ := held member
        · exact .inl rfl
        · exact .inr ⟨⟨0⟩, rfl, by decide⟩
        · exact .inr ⟨⟨1⟩, rfl, by decide⟩
    have inside {b : VectorId} (path : ReflTransGen s.Has (.vector c) (.vector b)) : b.index < 4 := by
      rcases reached path with none | ⟨_, same, less⟩
      · cases none
      · cases same
        exact less
    refine ⟨fun b => inside, fun b _ circle => ?_, fun b path => ?_, fun e path => ?_⟩
    · obtain ⟨_, first, -⟩ := TransGen.head'_iff.mp circle
      obtain ⟨_, -, last⟩ := TransGen.tail'_iff.mp circle
      exact absurd (holds last).2 (Nat.not_lt_of_le (holds first).1)
    · have less := inside path
      obtain ⟨_ | _ | _ | _ | k⟩ := b
      · exact .empty
      · exact .empty
      · exact .insert _ _ (.insert _ _ .empty)
      · exact .insert _ _ (.insert _ _ .empty)
      · exact absurd less (Nat.not_lt_of_le (Nat.le_add_left 4 k))
    · rcases reached path with none | ⟨_, vector, -⟩
      · cases none
      · cases vector
  have same : s.identical (.vector ⟨2⟩) (.vector ⟨3⟩) = true := by decide +kernel
  obtain ⟨equivalence, contents⟩ := identical_equivalence nodes s
  have first := proper (c := ⟨2⟩) (by decide)
  have second := proper (c := ⟨3⟩) (by decide)
  refine ⟨⟨first, second⟩, same, ?_, ?_⟩
  · exact equivalence.symm (x := ⟨_, first⟩) (y := ⟨_, second⟩) same
  · exact (contents _ _ first second).symm.trans same

end Store
end CallByNeed
