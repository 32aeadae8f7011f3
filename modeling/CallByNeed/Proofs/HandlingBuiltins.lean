import CallByNeed.Proofs.Guards
import CallByNeed.Proofs.Handling

/-!
The builtins on vectors and numbers, within an ambit: from values of the ambit they make values of the
ambit, and they fail with no signal of the evaluator.
-/
namespace CallByNeed

namespace Builtins
open Ambit

/-! Builtins that work on vectors. -/

variable {A : Ambit} {n : Nat} {args : Arguments} {id : VectorId}

theorem checks_listPart {v : Value} (ok : A.Admits n v) : A.Checks n A.AdmitsAll (listPart v) := by
  unfold listPart
  split
  · refine checks_read fun s sound enough => ?_
    exact checks_seq (checks_lift (handles_shareAll _)) fun _ _ le _ =>
      checks_lift (handles_items ((sound.children _).mono le))
  · exact checks_ok fun _ le => admitsAll_cons.mpr ⟨ok.mono le, admitsAll_nil⟩

theorem checks_atomicPart (rank : Nat) (v : Value) :
    A.Checks n (fun k xs => A.AdmitsAll k xs.children) (atomicPart rank v) := by
  refine checks_read fun s sound enough => ?_
  split
  · exact checks_ok fun _ le => ((sound.children _).mono le).widen rank
  · exact checks_throw rfl

theorem admitsAll_fold {parts : List Elements} {xs : Elements} (first : A.AdmitsAll n xs.children)
    (all : ∀ ys ∈ parts, A.AdmitsAll n ys.children) :
    A.AdmitsAll n (parts.foldl Elements.append xs).children := by
  intro v member
  rcases Elements.mem_children_foldl member with start | ⟨ys, part, inside⟩
  · exact first v start
  · exact all ys part v inside

theorem checks_combine (held : A.AdmitsAll n args.values) :
    A.Checks n A.Admits (combine args) := by
  unfold combine
  dsimp only
  split
  · exact checks_ok fun _ _ => admits_null
  · refine checks_read fun s sound enough => ?_
    split
    · refine checks_seq (checks_mapAll (R := A.AdmitsAll) (fun _ _ _ le ok => ok.mono le)
        fun v member k le => checks_listPart ((held v (List.mem_filter.mp member).1).mono
          (Nat.le_trans enough le))) fun k parts le all => ?_
      refine checks_lift (handles_vector fun v member => ?_)
      obtain ⟨part, there, inside⟩ := List.mem_flatten.mp member
      exact all part there v inside
    · refine checks_seq (checks_mapAll (R := fun k xs => A.AdmitsAll k xs.children)
        (fun _ _ (xs : Elements) le (ok : A.AdmitsAll _ xs.children) => ok.mono le)
        fun v _ k _ => checks_atomicPart _ v)
        fun k parts le all => ?_
      refine checks_lift (handles_vector (admitsAll_fold ?_ all))
      rw [Elements.children_emptyOfRank]
      exact admitsAll_nil

theorem checks_ownedList {values : List Value} {attributes : List (Name × Value)}
    (held : A.AdmitsAll n values) (owned : A.AdmitsAll n (attributes.map (·.2))) :
    A.Checks n A.Admits (ownedList values attributes) := by
  refine checks_seq (checks_lift (handles_shareAll _)) fun k _ le _ =>
    checks_map (checks_lift (handles_addVector ?_)) fun _ _ ok => ok
  refine admitsAll_append.mpr ⟨held.mono le, fun v member => ?_⟩
  rcases Table.mem_values_foldl_insert member with there | none
  · exact (owned.mono le) v there
  · cases none

theorem checks_namesVector (names : List (Option Name)) : A.Checks n A.Admits (namesVector names) :=
  checks_lift (handles_vector admitsAll_nil)

theorem checks_makeList (held : A.AdmitsAll n args.values) :
    A.Checks n A.Admits (makeList args) := by
  unfold makeList
  split
  · exact checks_seq (checks_namesVector _) fun _ _ le ok => checks_ownedList (held.mono le)
      (admitsAll_cons.mpr ⟨ok, admitsAll_nil⟩)
  · exact checks_ownedList held admitsAll_nil

theorem fair_resolveIndex (s : Store) (id : VectorId) (index : Value) (append : Bool) :
    Fair Any n (resolveIndex s id index append) := by
  unfold resolveIndex
  split
  · trivial
  · split
    · rfl
    · split
      · rfl
      · trivial

theorem checks_element (held : A.AdmitsAll n args.values) :
    A.Checks n A.Admits (element args) := by
  refine checks_seq (checks_except fun _ le => fair_required (held.mono le) _ _)
    fun _ target _ _ => ?_
  refine checks_seq (checks_except fun _ _ => fair_argument args _ _) fun _ index _ _ =>
    checks_read fun s sound enough => ?_
  split
  · refine checks_seq (checks_except fun _ _ => fair_resolveIndex _ _ _ _) fun _ position _ _ => ?_
    split
    · exact checks_throw rfl
    · refine checks_seq (checks_lift (handles_element _ _)) fun _ v _ ok => ?_
      exact checks_seq (checks_lift (handles_adjustChild _ _)) fun _ _ le _ =>
        checks_ok fun _ le' => (ok.mono (Nat.le_trans le le')).getD admits_null
  · exact checks_throw rfl

theorem checks_replacementTarget {v : Value} (ok : A.Admits n v) :
    A.Checks n (fun k id => A.Admits k (.vector id)) (replacementTarget v) := by
  unfold replacementTarget
  split
  · exact checks_lift (handles_makeMutable ok)
  · exact checks_lift (handles_addVector (by simp [Container.held, Elements.children, AdmitsAll,
      Table.values]))
  · exact checks_read fun _ _ _ => checks_throw rfl

theorem checks_attributeTarget {v : Value} (ok : A.Admits n v) :
    A.Checks n (fun k id => A.Admits k (.vector id)) (attributeTarget v) := by
  unfold attributeTarget
  split
  · exact checks_lift (handles_makeMutable ok)
  · exact checks_throw rfl
  · exact checks_read fun _ _ _ => checks_throw rfl

theorem checks_appendName (lax : A.Lax) (name : Name) : A.Checks n Any (appendName id name) := by
  refine checks_read fun s sound enough =>
    checks_seq (checks_lift (handles_vector admitsAll_nil)) fun k v le ok => ?_
  refine checks_seq (Ambit.checks_setAttribute lax "names" fun w same => ?_) fun _ _ _ _ =>
    checks_ok fun _ _ => trivial
  cases same
  exact ok

theorem checks_place (lax : A.Lax) (index : Value) : A.Checks n Any (place id index) := by
  refine checks_read fun s _ _ => checks_seq (checks_except fun _ _ => fair_resolveIndex _ _ _ _)
    fun _ found _ _ => ?_
  split
  · exact checks_ok fun _ _ => trivial
  · refine checks_read fun s _ _ => ?_
    split
    · exact checks_appendName lax _
    · exact checks_throw rfl

theorem checks_put (lax : A.Lax) (position : Nat) {v : Value} (ok : A.Admits n v) :
    A.Checks n Any (put id position v) := by
  refine checks_read fun s _ enough => ?_
  dsimp only
  split
  · exact checks_seq (checks_lift (handles_share v)) fun _ _ le _ =>
      Ambit.checks_setElement lax position (ok.mono (Nat.le_trans enough le))
  · exact Ambit.checks_setElement lax position (ok.mono enough)

theorem checks_setElement (lax : A.Lax) (held : A.AdmitsAll n args.values) :
    A.Checks n A.Admits (setElement args) := by
  rw [setElement_eq]
  refine checks_seq (checks_except fun _ le => fair_required (held.mono le) _ _)
    fun _ target le ok => ?_
  refine checks_seq (checks_except fun _ _ => fair_argument args _ _) fun _ index le' _ => ?_
  refine checks_seq (checks_except fun _ later => fair_required
    (held.mono (Nat.le_trans le (Nat.le_trans le' later))) _ _) fun _ v le'' stored => ?_
  refine checks_seq (checks_replacementTarget (ok.mono (Nat.le_trans le' le''))) fun _ id later there => ?_
  refine checks_seq (checks_place lax index) fun _ position last _ => ?_
  refine checks_seq (checks_put lax position (stored.mono (Nat.le_trans later last))) fun _ _ end_ _ => ?_
  exact checks_ok fun _ on => there.mono (Nat.le_trans last (Nat.le_trans end_ on))

theorem checks_length (args : Arguments) : A.Checks n A.Admits (length args) :=
  checks_read fun _ _ _ => checks_lift (handles_vector admitsAll_nil)

theorem checks_logical (b : Bool) : A.Checks n A.Admits (liftM (Store.logical b)) :=
  checks_lift (handles_vector admitsAll_nil)

theorem checks_identical (args : Arguments) : A.Checks n A.Admits (identical args) :=
  checks_seq (checks_except fun _ _ => fair_argument args _ _) fun _ _ _ _ =>
    checks_seq (checks_except fun _ _ => fair_argument args _ _) fun _ _ _ _ =>
      checks_read fun _ _ _ => checks_logical _

theorem checks_identity (held : A.AdmitsAll n args.values) : A.Checks n A.Admits (identity args) :=
  checks_ok fun _ le => (((held.mono le).argument _ _).getD admits_null)

theorem checks_getAttribute (args : Arguments) : A.Checks n A.Admits (getAttribute args) := by
  refine checks_seq (checks_except fun _ _ => fair_argument args _ _) fun _ target _ _ => ?_
  refine checks_read fun _ _ _ => checks_seq (checks_except fun _ _ => fair_requiredString _ _ _ _)
    fun _ which _ _ => checks_read fun s sound _ => ?_
  refine checks_seq (checks_lift (handles_adjustChild _ _)) fun _ _ le _ => checks_ok fun _ le' => ?_
  refine AdmitsAny.getD (fun v found => ?_) admits_null
  obtain ⟨id, _, there⟩ := Option.bind_eq_some_iff.mp found
  exact (sound.attribute id which v there).mono (Nat.le_trans le le')

theorem checks_storeAttribute (lax : A.Lax) {v : Value} (name : Name) (ok : A.Admits n v) :
    A.Checks n Any (storeAttribute id name v) := by
  have write (k : Nat) (le : n ≤ k) : A.Checks k Any (Store.setAttribute id name (some v)) := by
    refine Ambit.checks_setAttribute lax name fun w same => ?_
    cases same
    exact ok.mono le
  refine checks_read fun s sound enough => ?_
  dsimp only
  split
  · exact write _ enough
  · exact checks_seq (checks_lift (handles_share v)) fun _ _ le _ => write _ (Nat.le_trans enough le)

theorem checks_replaceAttribute (lax : A.Lax) {v : Option Value} (name : Name) (ok : A.AdmitsAny n v) :
    A.Checks n Any (replaceAttribute id name v) := by
  unfold replaceAttribute
  split
  · rename_i w found
    exact checks_storeAttribute lax name (ok w (Option.filter_eq_some_iff.mp found).1)
  · exact Ambit.checks_setAttribute lax name nofun

theorem checks_setAttribute (lax : A.Lax) (held : A.AdmitsAll n args.values) :
    A.Checks n A.Admits (setAttribute args) := by
  refine checks_seq (checks_except fun _ le => fair_required (held.mono le) _ _)
    fun _ target le ok => ?_
  refine checks_seq (checks_attributeTarget ok) fun _ id le' there => checks_read fun s _ enough => ?_
  refine checks_seq (checks_except fun _ _ => fair_requiredString _ _ _ _) fun _ which le'' _ => ?_
  have late := Nat.le_trans le (Nat.le_trans le' (Nat.le_trans enough le''))
  refine checks_seq (checks_replaceAttribute lax which ((held.mono late).argument _ _)) fun _ _ last _ => ?_
  exact checks_ok fun _ end_ => there.mono
    (Nat.le_trans enough (Nat.le_trans le'' (Nat.le_trans last end_)))

theorem checks_withAttributes (lax : A.Lax) (held : A.AdmitsAll n args.values) :
    A.Checks n A.Admits (withAttributes args) := by
  refine checks_seq (checks_except fun _ le => fair_required (held.mono le) _ _)
    fun _ target le ok => ?_
  refine checks_seq (checks_attributeTarget ok) fun _ id le' there => ?_
  refine checks_seq (checks_forAll fun entry member k late => ?_) fun _ _ last _ =>
    checks_ok fun _ end_ => there.mono (Nat.le_trans last end_)
  have fits := (held _ (Arguments.mem_values_of_rest member)).mono (Nat.le_trans le (Nat.le_trans le' late))
  obtain ⟨name, v⟩ := entry
  cases name with
  | none => exact checks_ok fun _ _ => trivial
  | some name =>
    refine checks_replaceAttribute lax name fun w same => ?_
    cases same
    exact fits

theorem admits_explicitClass {s : Store} (sound : s.Sound A) {v : Value} {c : VectorId}
    (found : s.explicitClass? v = some c) : A.Admits s.vectors.size (.vector c) := by
  obtain ⟨id, _, there⟩ := Option.bind_eq_some_iff.mp found
  unfold Store.classAttribute? at there
  split at there
  · rename_i d held
    split at there
    · cases there
      exact sound.attribute id "class" _ held
    · cases there
  · cases there

theorem checks_classOf (implicit : ImplicitClasses) (args : Arguments) :
    A.Checks n A.Admits (classOf implicit args) := by
  refine checks_read fun s sound enough => ?_
  split
  · rename_i id found
    exact checks_seq (checks_lift (handles_adjustChild _ _)) fun _ _ le _ =>
      checks_ok fun _ le' => (admits_explicitClass sound found).mono (Nat.le_trans le le')
  · exact checks_lift (handles_vector admitsAll_nil)

theorem checks_oldClass (args : Arguments) : A.Checks n A.Admits (oldClass args) := by
  unfold oldClass
  split
  · exact checks_ok fun _ _ => admits_null
  · refine checks_read fun s sound enough => ?_
    refine checks_seq (checks_lift (handles_adjustChild _ _)) fun _ _ le _ =>
      checks_ok fun _ le' => ?_
    refine AdmitsAny.getD (fun v found => ?_) admits_null
    obtain ⟨c, there, rfl⟩ := Option.map_eq_some_iff.mp found
    exact (admits_explicitClass sound there).mono (Nat.le_trans le le')

theorem checks_setClassOf (lax : A.Lax) (held : A.AdmitsAll n args.values) :
    A.Checks n A.Admits (setClassOf args) := by
  refine checks_seq (checks_except fun _ le => fair_required (held.mono le) _ _)
    fun _ target le ok => ?_
  refine checks_seq (checks_attributeTarget ok) fun _ id le' there => ?_
  refine checks_seq (checks_replaceAttribute lax "class"
    ((held.mono (Nat.le_trans le le')).argument _ _)) fun _ _ last _ => ?_
  exact checks_ok fun _ end_ => there.mono (Nat.le_trans last end_)

theorem checks_classless (lax : A.Lax) (id : VectorId) : A.Checks n A.Admits (classless id) :=
  checks_seq (checks_lift (handles_duplicate _)) fun _ _ _ there =>
    checks_seq (Ambit.checks_setAttribute lax "class" nofun) fun _ _ le _ =>
      checks_ok fun _ le' => there.mono (Nat.le_trans le le')

theorem checks_unclass (copies : ∀ id k, A.Checks k A.Admits (classless id))
    (held : A.AdmitsAll n args.values) : A.Checks n A.Admits (unclass args) := by
  refine checks_seq (checks_except fun _ le => fair_required (held.mono le) _ _)
    fun _ target le ok => ?_
  split
  · refine checks_read fun s sound enough => ?_
    split
    · exact checks_ok fun _ le' => ok.mono (Nat.le_trans enough le')
    · exact copies _ _
  · exact checks_ok fun _ le' => ok.mono le'

theorem checks_inherits (implicit : ImplicitClasses) (args : Arguments) :
    A.Checks n A.Admits (inherits implicit args) :=
  checks_seq (checks_except fun _ _ => fair_argument args _ _) fun _ _ _ _ =>
    checks_seq (checks_except fun _ _ => fair_argument args _ _) fun _ _ _ _ =>
      checks_read fun _ _ _ => checks_logical _

theorem admits_slots (held : A.AdmitsAll n args.values) :
    A.AdmitsAll n ((slots args).map (·.2)) := fun v member => held v (Arguments.mem_values_of_slots member)

theorem checks_slotNames (args : Arguments) :
    A.Checks n (fun k names => A.AdmitsAll k (names.map (·.2))) (slotNames args) := by
  unfold slotNames
  split
  · exact checks_ok fun _ _ => admitsAll_nil
  · exact checks_seq (checks_namesVector _) fun _ v _ ok =>
      checks_ok fun _ le => admitsAll_cons.mpr ⟨ok.mono le, admitsAll_nil⟩

theorem checks_ofClass {names : List (Name × Value)} (held : A.AdmitsAll n args.values)
    (named : A.AdmitsAll n (names.map (·.2))) (name : Name) :
    A.Checks n A.Admits (ofClass args names name) := by
  refine checks_seq (checks_lift (handles_vector admitsAll_nil)) fun _ v le ok => ?_
  refine checks_ownedList ((admits_slots held).mono le) ?_
  rw [List.map_append]
  exact admitsAll_append.mpr ⟨named.mono le, admitsAll_cons.mpr ⟨ok, admitsAll_nil⟩⟩

theorem checks_newObject (classes : ClassRegistry) (held : A.AdmitsAll n args.values) :
    A.Checks n A.Admits (newObject classes args) := by
  rw [newObject_eq]
  refine checks_read fun s _ enough =>
    checks_seq (checks_except fun _ _ => fair_requiredString _ _ _ _) fun k name le _ => ?_
  refine checks_unless rfl (checks_seq (checks_slotNames args) fun j names le' named => ?_)
  exact checks_ofClass (held.mono (Nat.le_trans enough (Nat.le_trans le le'))) named name

theorem checks_writer (lax : A.Lax) (held : A.AdmitsAll n args.values) {op : StrictOp} {m : StoreM Value}
    (writer : op.writer? args = some m) : A.Checks n A.Admits m := by
  cases op with
  | setElement =>
    cases writer
    exact checks_setElement lax held
  | setAttribute =>
    cases writer
    exact checks_setAttribute lax held
  | withAttributes =>
    cases writer
    exact checks_withAttributes lax held
  | setClassOf =>
    cases writer
    exact checks_setClassOf lax held
  | _ => cases writer

/-! Builtins on numbers. -/

/-- Contents that hold no values. -/
def Atomic (_ : Nat) (xs : Elements) : Prop := xs.children = []

theorem fair_numbers (s : Store) (v : Value) (op : Name) : Fair Any n (numbers s v op) := by
  unfold numbers
  split
  · trivial
  · trivial
  · trivial
  · rfl

theorem fair_unary (op : Arithmetic) (x : Numbers) : Fair Atomic n (unary op x) := by
  unfold unary
  split
  · cases x <;> exact rfl
  · exact rfl
  · exact rfl
  · rfl

theorem children_binary (op : Arithmetic) (x y : Numbers) : (binary op x y).children = [] := by
  unfold binary
  split
  · exact rfl
  · exact rfl

theorem fair_arithmetic (op : Arithmetic) (s : Store) (args : Arguments) :
    Fair Atomic n (arithmetic op s args) := by
  refine fair_bind (fair_argument args _ _) fun _ _ => fair_bind (fair_numbers _ _ _) fun x _ => ?_
  split
  · exact fair_unary op x
  · exact fair_bind (fair_numbers _ _ _) fun _ _ => children_binary op _ _

theorem fair_comparedStrings (xs : Elements) : Fair Any n (comparedStrings xs) := by
  unfold comparedStrings
  split
  · trivial
  · rfl

theorem fair_compare (op : Comparison) (s : Store) (args : Arguments) :
    Fair Atomic n (compare op s args) := by
  refine fair_bind (fair_argument args _ _) fun x _ => fair_bind (fair_argument args _ _) fun y _ => ?_
  dsimp only
  split
  · exact fair_bind (fair_comparedStrings _) fun _ _ => fair_bind (fair_comparedStrings _)
      fun _ _ => rfl
  · exact fair_bind (fair_numbers _ _ _) fun _ _ => fair_bind (fair_numbers _ _ _) fun _ _ => rfl

theorem fair_negate (s : Store) (args : Arguments) : Fair Atomic n (negate s args) := by
  refine fair_bind (fair_argument args _ _) fun _ _ => fair_bind (fair_numbers _ _ _) fun x _ => ?_
  cases x <;> rfl

theorem fair_allNumbers (s : Store) (op : Name) (values : List Value) :
    Fair Any n (values.mapM fun v => numbers s v op) := by
  induction values with
  | nil => trivial
  | cons v rest ih =>
    rw [List.mapM_cons]
    exact fair_bind (fair_numbers s v op) fun _ _ => fair_bind ih fun _ _ => trivial

theorem fair_summary (op : Summary) (s : Store) (args : Arguments) :
    Fair Atomic n (summary op s args) := by
  refine fair_bind (fair_allNumbers s _ _) fun parts _ => ?_
  change Elements.children (if _ then _ else _) = []
  split
  · rfl
  · rfl

theorem fair_absolute (s : Store) (args : Arguments) : Fair Atomic n (absolute s args) := by
  refine fair_bind (fair_argument args _ _) fun _ _ => fair_bind (fair_numbers _ _ _) fun x _ => ?_
  cases x with
  | integers xs =>
    change Elements.children (if _ then _ else _) = []
    split
    · rfl
    · rfl
  | doubles xs => exact rfl

theorem fair_twice (s : Store) (args : Arguments) : Fair Atomic n (twice s args) :=
  fair_bind (fair_argument args _ _) fun _ _ => rfl

end Builtins
end CallByNeed
