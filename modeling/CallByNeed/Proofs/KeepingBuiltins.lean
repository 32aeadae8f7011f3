import CallByNeed.Proofs.HandlingBuiltins
import CallByNeed.Proofs.Keeping

/-!
The builtins on vectors and numbers, within a scope: from values of the scope they make values of the
scope, and they fail with conditions of the language only. The writers among them are refused a write at
most where they store the vector that they write to.
-/
namespace CallByNeed

namespace Builtins
open Scope

variable {S : Scope} {lax : Prop} {args : Arguments} {id : VectorId}

/-! Builtins that work on vectors. -/

theorem keeps_vector {xs : Elements} (atomic : xs.children = []) :
    S.Keeps S.Covers (liftM (Store.vector xs) : StoreM Value) := by
  refine keeps_lift (makes_vector ?_)
  rw [atomic]
  exact coversAll_nil

theorem keeps_listPart {v : Value} (ok : S.Covers v) : S.Keeps S.CoversAll (listPart v) := by
  unfold listPart
  split
  · exact keeps_read fun s within => keeps_seq (keeps_lift (makes_shareAll _)) fun _ _ =>
      keeps_lift ((makes_items (within.children _)).weaken fun _ items => items.1)
  · exact keeps_ok (coversAll_cons.mpr ⟨ok, coversAll_nil⟩)

theorem keeps_atomicPart (rank : Nat) (v : Value) :
    S.Keeps (fun xs => S.CoversAll xs.children) (atomicPart rank v) := by
  refine keeps_read fun s within => ?_
  split
  · exact keeps_ok ((within.children _).widen rank)
  · exact keeps_throw rfl

theorem coversAll_fold {parts : List Elements} {xs : Elements} (first : S.CoversAll xs.children)
    (all : ∀ ys ∈ parts, S.CoversAll ys.children) :
    S.CoversAll (parts.foldl Elements.append xs).children := by
  intro v member
  rcases Elements.mem_children_foldl member with start | ⟨ys, part, inside⟩
  · exact first v start
  · exact all ys part v inside

theorem keeps_combine (held : S.CoversAll args.values) : S.Keeps S.Covers (combine args) := by
  unfold combine
  dsimp only
  split
  · exact keeps_ok covers_null
  · refine keeps_read fun s within => ?_
    split
    · refine keeps_seq (keeps_mapAll (R := S.CoversAll) fun v member =>
        keeps_listPart (held v (List.mem_filter.mp member).1)) fun parts all => ?_
      refine keeps_lift (makes_vector fun v member => ?_)
      obtain ⟨part, there, inside⟩ := List.mem_flatten.mp member
      exact all part there v inside
    · refine keeps_seq (keeps_mapAll (R := fun xs => S.CoversAll xs.children) fun v _ =>
        keeps_atomicPart _ v) fun parts all => ?_
      refine keeps_lift (makes_vector (coversAll_fold ?_ all))
      rw [Elements.children_emptyOfRank]
      exact coversAll_nil

theorem keeps_ownedList {values : List Value} {attributes : List (Name × Value)}
    (held : S.CoversAll values) (owned : S.CoversAll (attributes.map (·.2))) :
    S.Keeps S.Covers (ownedList values attributes) := by
  refine keeps_seq (keeps_lift (makes_shareAll _)) fun _ _ =>
    keeps_map (keeps_lift (makes_addVector ?_)) fun id _ => covers_vector id
  refine coversAll_append.mpr ⟨held, fun v member => ?_⟩
  rcases Table.mem_values_foldl_insert member with there | none
  · exact owned v there
  · cases none

theorem keeps_namesVector (names : List (Option Name)) : S.Keeps S.Covers (namesVector names) :=
  keeps_vector rfl

theorem keeps_makeList (held : S.CoversAll args.values) : S.Keeps S.Covers (makeList args) := by
  unfold makeList
  split
  · exact keeps_seq (keeps_namesVector _) fun _ ok =>
      keeps_ownedList held (coversAll_cons.mpr ⟨ok, coversAll_nil⟩)
  · exact keeps_ownedList held coversAll_nil

theorem fine_resolveIndex (s : Store) (id : VectorId) (index : Value) (append : Bool) :
    Fine Any (resolveIndex s id index append) := by
  unfold resolveIndex
  split
  · trivial
  · split
    · exact fine_error rfl
    · split
      · exact fine_error rfl
      · trivial

theorem keeps_element (held : S.CoversAll args.values) : S.Keeps S.Covers (element args) := by
  refine keeps_seq (keeps_except (fine_required held _ _)) fun _ _ =>
    keeps_seq (keeps_except (fine_argument args _ _)) fun _ _ => keeps_read fun _ _ => ?_
  split
  · refine keeps_seq (keeps_except (fine_resolveIndex _ _ _ _)) fun _ _ => ?_
    split
    · exact keeps_throw rfl
    · refine keeps_seq (keeps_lift (makes_element _ _)) fun _ ok => ?_
      exact keeps_seq (keeps_lift (makes_adjustChild _ _)) fun _ _ => keeps_ok (ok.getD covers_null)
  · exact keeps_throw rfl

theorem keeps_replacementTarget (v : Value) : S.Keeps Any (replacementTarget v) := by
  unfold replacementTarget
  split
  · exact keeps_lift (makes_makeMutable _)
  · exact keeps_lift (makes_addVector nofun)
  · exact keeps_read fun _ _ => keeps_throw rfl

theorem keeps_attributeTarget (v : Value) : S.Keeps Any (attributeTarget v) := by
  unfold attributeTarget
  split
  · exact keeps_lift (makes_makeMutable _)
  · exact keeps_throw rfl
  · exact keeps_read fun _ _ => keeps_throw rfl

theorem writes_vector {xs : Elements} (atomic : xs.children = []) :
    S.Writes lax id S.Covers (liftM (Store.vector xs) : StoreM Value) :=
  (keeps_vector atomic).writes fun _ writable => writable.vector xs

theorem writes_share {v : Value} (apart : lax ∨ v ≠ .vector id) :
    S.Writes lax id Any (modify (Store.share v) : StoreM Unit) := by
  refine fun s within ready => ⟨(makes_share v s within).1, ?_, trivial⟩
  rcases ready with loose | writable
  · exact .inl loose
  · exact apart.imp_right writable.share

theorem writes_appendName (name : Name) : S.Writes lax id Any (appendName id name) := by
  refine writes_read fun _ _ => writes_seq (writes_vector rfl) fun _ ok => ?_
  refine writes_seq (Scope.writes_setAttribute "names" fun w same => ?_) fun _ _ => writes_ok trivial
  cases same
  exact ok

theorem writes_place (index : Value) : S.Writes lax id Any (place id index) := by
  refine writes_read fun _ _ => writes_seq (writes_except (fine_resolveIndex _ _ _ _)) fun _ _ => ?_
  split
  · exact writes_ok trivial
  · refine writes_read fun _ _ => ?_
    split
    · exact writes_appendName _
    · exact (keeps_throw (α := Nat) rfl).writes_still fun _ => rfl

theorem writes_put (position : Nat) {v : Value} (ok : S.Covers v) (apart : lax ∨ v ≠ .vector id) :
    S.Writes lax id Any (put id position v) := by
  refine writes_read fun _ _ => ?_
  dsimp only
  split
  · exact writes_seq (writes_share apart) fun _ _ => Scope.writes_setElement position ok
  · exact Scope.writes_setElement position ok

theorem keeps_length (args : Arguments) : S.Keeps S.Covers (length args) :=
  keeps_read fun _ _ => keeps_vector rfl

theorem keeps_identical (args : Arguments) : S.Keeps S.Covers (identical args) :=
  keeps_seq (keeps_except (fine_argument args _ _)) fun _ _ =>
    keeps_seq (keeps_except (fine_argument args _ _)) fun _ _ => keeps_read fun _ _ => keeps_vector rfl

theorem keeps_identity (held : S.CoversAll args.values) : S.Keeps S.Covers (identity args) :=
  keeps_ok ((held.argument _ _).getD covers_null)

theorem keeps_getAttribute (args : Arguments) : S.Keeps S.Covers (getAttribute args) := by
  refine keeps_seq (keeps_except (fine_argument args _ _)) fun target _ => keeps_read fun _ _ =>
    keeps_seq (keeps_except (fine_requiredString _ _ _ _)) fun which _ => keeps_read fun s within =>
      keeps_seq (keeps_lift (makes_adjustChild _ _)) fun _ _ => keeps_ok ?_
  refine CoversAny.getD (fun v found => ?_) covers_null
  obtain ⟨id, _, there⟩ := Option.bind_eq_some_iff.mp found
  exact within.attributes id v (Table.mem_values_of_get? there)

theorem writes_storeAttribute {v : Value} (name : Name) (ok : S.Covers v)
    (apart : lax ∨ v ≠ .vector id) : S.Writes lax id Any (storeAttribute id name v) := by
  have write : S.Writes lax id Any (Store.setAttribute id name (some v)) := by
    refine Scope.writes_setAttribute name fun w same => ?_
    cases same
    exact ok
  refine writes_read fun _ _ => ?_
  dsimp only
  split
  · exact write
  · exact writes_seq (writes_share apart) fun _ _ => write

theorem writes_replaceAttribute {v : Option Value} (name : Name) (ok : S.CoversAny v)
    (apart : lax ∨ ∀ w, v = some w → w ≠ .vector id) :
    S.Writes lax id Any (replaceAttribute id name v) := by
  unfold replaceAttribute
  split
  · rename_i w found
    have given := (Option.filter_eq_some_iff.mp found).1
    exact writes_storeAttribute name (ok w given) (apart.imp_right fun apart => apart w given)
  · exact Scope.writes_setAttribute name nofun

theorem keeps_classOf (implicit : ImplicitClasses) (args : Arguments) :
    S.Keeps S.Covers (classOf implicit args) := by
  refine keeps_read fun _ _ => ?_
  split
  · exact keeps_seq (keeps_lift (makes_adjustChild _ _)) fun _ _ => keeps_ok (covers_vector _)
  · exact keeps_vector rfl

theorem keeps_oldClass (args : Arguments) : S.Keeps S.Covers (oldClass args) := by
  unfold oldClass
  split
  · exact keeps_ok covers_null
  · refine keeps_read fun _ _ => keeps_seq (keeps_lift (makes_adjustChild _ _)) fun _ _ => keeps_ok ?_
    refine CoversAny.getD (fun v found => ?_) covers_null
    obtain ⟨c, _, rfl⟩ := Option.map_eq_some_iff.mp found
    exact covers_vector c

/-- A copy has no other owner. -/
theorem keeps_classless (id : VectorId) : S.Keeps S.Covers (classless id) := by
  intro s within
  have fresh : (Store.duplicate id s).2.Writable (Store.duplicate id s).1 := Store.writable_duplicate id s
  have cleared : S.Writes False (Store.duplicate id s).1 S.Covers (do
      Store.setAttribute (Store.duplicate id s).1 "class" none
      pure (.vector (Store.duplicate id s).1)) :=
    writes_seq (Scope.writes_setAttribute "class" nofun) fun _ _ => writes_ok (covers_vector _)
  obtain ⟨within', _, ends⟩ := cleared _ (makes_duplicate id s within).1 (.inr fresh)
  exact ⟨within', ends.fine⟩

theorem keeps_unclass (held : S.CoversAll args.values) : S.Keeps S.Covers (unclass args) := by
  refine keeps_seq (keeps_except (fine_required held _ _)) fun _ ok => ?_
  split
  · refine keeps_read fun _ _ => ?_
    split
    · exact keeps_ok ok
    · exact keeps_classless _
  · exact keeps_ok ok

theorem keeps_inherits (implicit : ImplicitClasses) (args : Arguments) :
    S.Keeps S.Covers (inherits implicit args) :=
  keeps_seq (keeps_except (fine_argument args _ _)) fun _ _ =>
    keeps_seq (keeps_except (fine_argument args _ _)) fun _ _ => keeps_read fun _ _ => keeps_vector rfl

theorem coversAll_slots (held : S.CoversAll args.values) : S.CoversAll ((slots args).map (·.2)) :=
  fun v member => held v (Arguments.mem_values_of_slots member)

theorem keeps_slotNames (args : Arguments) :
    S.Keeps (fun names => S.CoversAll (names.map (·.2))) (slotNames args) := by
  unfold slotNames
  split
  · exact keeps_ok coversAll_nil
  · exact keeps_seq (keeps_namesVector _) fun v ok => keeps_ok (coversAll_cons.mpr ⟨ok, coversAll_nil⟩)

theorem keeps_ofClass {names : List (Name × Value)} (held : S.CoversAll args.values)
    (named : S.CoversAll (names.map (·.2))) (name : Name) :
    S.Keeps S.Covers (ofClass args names name) := by
  refine keeps_seq (keeps_vector rfl) fun v ok => keeps_ownedList (coversAll_slots held) ?_
  rw [List.map_append]
  exact coversAll_append.mpr ⟨named, coversAll_cons.mpr ⟨ok, coversAll_nil⟩⟩

theorem keeps_newObject (classes : ClassRegistry) (held : S.CoversAll args.values) :
    S.Keeps S.Covers (newObject classes args) := by
  rw [newObject_eq]
  exact keeps_read fun _ _ => keeps_seq (keeps_except (fine_requiredString _ _ _ _)) fun name _ =>
    keeps_unless rfl fun _ => keeps_seq (keeps_slotNames args) fun _ named => keeps_ofClass held named name

/-! Writers. -/

/-- The target of a write may be written to. -/
theorem writable_makeMutable (id : VectorId) (s : Store) :
    (Store.makeMutable id s).2.Writable (Store.makeMutable id s).1 := by
  cases held : (s.container id).sharing.isShared with
  | true =>
    have made : Store.makeMutable id s = Store.duplicate id s := by
      change (if (s.container id).sharing.isShared then Store.duplicate id else pure id : Alloc VectorId) s = _
      rw [if_pos held]
    rw [made]
    exact Store.writable_duplicate id s
  | false =>
    rw [Store.makeMutable_unshared held]
    exact held

theorem writable_attributeTarget {v : Value} {s t : Store} (made : attributeTarget v s = (.ok id, t)) :
    t.Writable id := by
  cases v with
  | vector c =>
    cases made
    exact writable_makeMutable c s
  | _ => cases made

theorem writable_replacementTarget {v : Value} {s t : Store}
    (made : replacementTarget v s = (.ok id, t)) : t.Writable id := by
  cases v with
  | vector c =>
    cases made
    exact writable_makeMutable c s
  | null =>
    cases made
    change ((Store.addVector _ s).2.container _).sharing.isShared = false
    rw [Store.container_addVector, if_pos rfl]
    rfl
  | _ => cases made

/-- A writer finds the vector to write into, which may be written to, and writes. -/
theorem ends_writer {target : StoreM VectorId} {rest : VectorId → StoreM Value} {s : Store}
    (found : S.Keeps Any target) (writable : ∀ id t, target s = (.ok id, t) → t.Writable id)
    (writes : ∀ id, (target s).1.toOption = some id → S.Writes lax id S.Covers (rest id))
    (within : s.Within S) :
    ((target >>= rest) s).2.Within S ∧ Ends lax S.Covers ((target >>= rest) s).1 := by
  obtain ⟨within', ok⟩ := found s within
  rw [Store.seq_apply]
  rcases run : target s with ⟨f | id, t⟩
  · rw [run] at within' ok
    exact ⟨within', .inl ok⟩
  · rw [run] at within'
    have known : (target s).1.toOption = some id := by
      rw [run]
      rfl
    obtain ⟨within', _, ends⟩ := writes id known t within' (.inr (writable id t run))
    exact ⟨within', ends⟩

theorem ends_required {f : Value → StoreM Value} {s : Store} {name : Name} {position : Nat}
    (within : s.Within S) (rest : ∀ v, args.get? name position = some v →
      (f v s).2.Within S ∧ Ends lax S.Covers (f v s).1) :
    ((liftM (args.required name position) >>= f : StoreM Value) s).2.Within S ∧
      Ends lax S.Covers ((liftM (args.required name position) >>= f : StoreM Value) s).1 := by
  cases given : args.get? name position with
  | none =>
    rw [required_absent given]
    exact ⟨within, .inl rfl⟩
  | some v =>
    rw [required_then given]
    exact rest v given

variable {s : Store}

/-- The values to be stored are not the vector written to, unless refusals are allowed. -/
theorem stored_apart {op : StrictOp} (apart : lax ∨ ¬Breakpoint.selfWriting.running s op args)
    (found : op.target? args s = some id) : lax ∨ ∀ v ∈ op.stored args, v ≠ .vector id :=
  apart.imp_right fun apart v member same => apart ⟨id, found, v, member, same⟩

variable (held : S.CoversAll args.values) (within : s.Within S)
include held within

theorem ends_setElement (apart : lax ∨ ¬Breakpoint.selfWriting.running s .setElement args) :
    (setElement args s).2.Within S ∧ Ends lax S.Covers (setElement args s).1 := by
  rw [setElement_eq]
  refine ends_required within fun target given => ends_required within fun index _ =>
    ends_required within fun v stored => ends_writer (keeps_replacementTarget target)
      (fun id t => writable_replacementTarget) (fun id known => ?_) within
  have apart := stored_apart apart (Option.bind_eq_some_iff.mpr ⟨target, given, known⟩)
  exact writes_seq (writes_place index) fun position _ => writes_seq (writes_put position
    (held.argument _ _ v stored) (apart.imp_right fun apart => apart v (Option.mem_toList.mpr stored)))
      fun _ _ => writes_ok (covers_vector id)

theorem ends_setAttribute (apart : lax ∨ ¬Breakpoint.selfWriting.running s .setAttribute args) :
    (setAttribute args s).2.Within S ∧ Ends lax S.Covers (setAttribute args s).1 := by
  refine ends_required within fun target given => ends_writer (keeps_attributeTarget target)
    (fun id t => writable_attributeTarget) (fun id known => ?_) within
  have apart := stored_apart apart (Option.bind_eq_some_iff.mpr ⟨target, given, known⟩)
  exact writes_read fun _ _ => writes_seq (writes_except (fine_requiredString _ _ _ _)) fun _ _ =>
    writes_seq (writes_replaceAttribute _ (held.argument _ _) (apart.imp_right fun apart w stored =>
      apart w (Option.mem_toList.mpr stored))) fun _ _ => writes_ok (covers_vector id)

theorem ends_withAttributes (apart : lax ∨ ¬Breakpoint.selfWriting.running s .withAttributes args) :
    (withAttributes args s).2.Within S ∧ Ends lax S.Covers (withAttributes args s).1 := by
  refine ends_required within fun target given => ends_writer (keeps_attributeTarget target)
    (fun id t => writable_attributeTarget) (fun id known => ?_) within
  have apart := stored_apart apart (Option.bind_eq_some_iff.mpr ⟨target, given, known⟩)
  refine writes_seq (writes_forAll fun entry member => ?_) fun _ _ => writes_ok (covers_vector id)
  have ok := held _ (Arguments.mem_values_of_rest member)
  obtain ⟨name, v⟩ := entry
  cases name with
  | none => exact writes_ok trivial
  | some name =>
    refine writes_replaceAttribute name (fun w same => ?_) (apart.imp_right fun apart w same => ?_)
    · cases same
      exact ok
    · cases same
      exact apart v (List.mem_filterMap.mpr ⟨_, member, rfl⟩)

theorem ends_setClassOf (apart : lax ∨ ¬Breakpoint.selfWriting.running s .setClassOf args) :
    (setClassOf args s).2.Within S ∧ Ends lax S.Covers (setClassOf args s).1 := by
  refine ends_required within fun target given => ends_writer (keeps_attributeTarget target)
    (fun id t => writable_attributeTarget) (fun id known => ?_) within
  have apart := stored_apart apart (Option.bind_eq_some_iff.mpr ⟨target, given, known⟩)
  exact writes_seq (writes_replaceAttribute "class" (held.argument _ _) (apart.imp_right fun apart w stored =>
    apart w (Option.mem_toList.mpr stored))) fun _ _ => writes_ok (covers_vector id)

omit held within

/-! Builtins on numbers. -/

/-- Contents that hold no values. -/
def HoldsNone (xs : Elements) : Prop := xs.children = []

theorem fine_numbers (s : Store) (v : Value) (op : Name) : Fine Any (numbers s v op) := by
  unfold numbers
  split
  · trivial
  · trivial
  · trivial
  · exact fine_error rfl

theorem fine_unary (op : Arithmetic) (x : Numbers) : Fine HoldsNone (unary op x) := by
  unfold unary
  split
  · cases x <;> exact rfl
  · exact rfl
  · exact rfl
  · exact fine_error rfl

theorem fine_arithmetic (op : Arithmetic) (s : Store) (args : Arguments) :
    Fine HoldsNone (arithmetic op s args) := by
  refine fine_bind (fine_argument args _ _) fun _ _ => fine_bind (fine_numbers _ _ _) fun x _ => ?_
  split
  · exact fine_unary op x
  · exact fine_bind (fine_numbers _ _ _) fun _ _ => children_binary op _ _

theorem fine_comparedStrings (xs : Elements) : Fine Any (comparedStrings xs) := by
  unfold comparedStrings
  split
  · trivial
  · exact fine_error rfl

theorem fine_compare (op : Comparison) (s : Store) (args : Arguments) :
    Fine HoldsNone (compare op s args) := by
  refine fine_bind (fine_argument args _ _) fun x _ => fine_bind (fine_argument args _ _) fun y _ => ?_
  dsimp only
  split
  · exact fine_bind (fine_comparedStrings _) fun _ _ => fine_bind (fine_comparedStrings _)
      fun _ _ => rfl
  · exact fine_bind (fine_numbers _ _ _) fun _ _ => fine_bind (fine_numbers _ _ _) fun _ _ => rfl

theorem fine_negate (s : Store) (args : Arguments) : Fine HoldsNone (negate s args) := by
  refine fine_bind (fine_argument args _ _) fun _ _ => fine_bind (fine_numbers _ _ _) fun x _ => ?_
  cases x <;> rfl

theorem fine_allNumbers (s : Store) (op : Name) (values : List Value) :
    Fine Any (values.mapM fun v => numbers s v op) := by
  induction values with
  | nil => trivial
  | cons v rest ih =>
    rw [List.mapM_cons]
    exact fine_bind (fine_numbers s v op) fun _ _ => fine_bind ih fun _ _ => trivial

theorem fine_summary (op : Summary) (s : Store) (args : Arguments) :
    Fine HoldsNone (summary op s args) := by
  refine fine_bind (fine_allNumbers s _ _) fun parts _ => ?_
  change Elements.children (if _ then _ else _) = []
  split
  · rfl
  · rfl

theorem fine_absolute (s : Store) (args : Arguments) : Fine HoldsNone (absolute s args) := by
  refine fine_bind (fine_argument args _ _) fun _ _ => fine_bind (fine_numbers _ _ _) fun x _ => ?_
  cases x with
  | integers xs =>
    change Elements.children (if _ then _ else _) = []
    split
    · rfl
    · rfl
  | doubles xs => exact rfl

theorem fine_twice (s : Store) (args : Arguments) : Fine HoldsNone (twice s args) :=
  fine_bind (fine_argument args _ _) fun _ _ => rfl

end Builtins
end CallByNeed
