import CallByNeed.Proofs.Places
import CallByNeed.Proofs.Replacement

/-!
Names and elements. The names of a vector stand in another vector, and a replacement of an element writes to
the elements alone, unless it appends a name. What is removed from a list therefore leaves its name behind,
and what is appended by position gets none.
-/
namespace CallByNeed

/-- An element as it stands among others: converted to their type, unless they are those of a list. -/
def Elements.converted (e zs : Elements) : Elements := if zs.isList then e else e.widen zs.rank

namespace Builtins

open Store

/-- The place a replacement of an element writes to, and the name it appends. -/
def destination (s : Store) (id : VectorId) (index : Value) : Option (Nat × Option Name) :=
  match resolveIndex s id index true with
  | .ok (some i) => some (i, none)
  | .ok none => (s.string? index).map fun name => ((s.elements id).length, some name)
  | .error _ => none

/-- A vector has one name for each element. -/
def Aligned (s : Store) (id : VectorId) : Prop :=
  ∃ names, names? s id = some names ∧ names.length = (s.elements id).length

/-- Subscription of a vector by a name succeeds and shows these contents, or `NULL` for none. -/
def ReadsNamed (s : Store) (id : VectorId) (name : Name) (e : Option Elements) : Prop :=
  ∀ index, s.string? index = some name →
    ∃ v t, element ⟨[none, none], [.vector id, index]⟩ s = (.ok v, t) ∧ t.ShowsPlace v e

/-- A vector holds what it held before, but for a write to a place. Its names are those it had, and the
one that was appended. -/
structure Written (s : Store) (id : VectorId) (names : List Name) (removed : Bool) (place : Nat)
    (new : Option Name) (xs : Elements) : Prop where
  named : names? s id = some (names ++ new.toList)
  holds : s.Replaced removed place xs (s.elements id)
  aligned : names.length = xs.length
  within : place ≤ xs.length
  atEnd : new.isSome → place = xs.length

section Written

variable {s t : Store} {id : VectorId} {names : List Name} {name : Name} {removed : Bool} {place k : Nat}
  {new : Option Name} {xs : Elements}

/-- Names stay aligned unless an element went without its name, or one of the two came without the other. -/
theorem Written.aligned_iff (w : Written s id names removed place new xs) :
    Aligned s id ↔ if removed then new = none ∧ place = xs.length
      else new.isSome ∨ place < xs.length := by
  have counted : Aligned s id ↔ (names ++ new.toList).length = (s.elements id).length := by
    unfold Aligned
    rw [w.named]
    simp
  have within := w.within
  rw [counted, w.holds.length, List.length_append, w.aligned]
  cases new with
  | none =>
    cases removed with
    | false =>
      simp
    | true =>
      simp
      omega
  | some name =>
    have last := w.atEnd rfl
    cases removed with
    | false =>
      simp
      omega
    | true =>
      simp
      split <;> omega

/-- A name reads what stands at its first place. -/
theorem reads_first (named : names? s id = some names)
    (first : names.findIdx? (· = name) = some k) : ReadsNamed s id name ((s.elements id).at? k) := by
  intro index text
  have place : ((names? s id).getD []).findIdx? (· = name) = some k := by
    rw [named]
    exact first
  obtain ⟨v, t, run, _, shown⟩ := element_named text place
  exact ⟨v, t, run, shown⟩

theorem shows_carried {zs e : Elements} {v : Value} (grown : Grown s t) (carries : s.Carries zs k e) :
    ∃ c, zs.at? k = some c ∧ (t.Shows v c → t.Shows v (e.converted zs)) := by
  unfold Carries at carries
  unfold Elements.converted
  cases list : zs.isList with
  | false =>
    rw [list, Bool.false_and, if_neg Bool.false_ne_true] at carries
    exact ⟨_, carries, id⟩
  | true =>
    rw [if_pos rfl]
    rw [list, Bool.true_and] at carries
    cases flat : e.isList with
    | true =>
      rw [flat, Bool.not_true, if_neg Bool.false_ne_true,
        Elements.widen_of_isList flat _ (Elements.rank_le_listRank zs)] at carries
      exact ⟨_, carries, id⟩
    | false =>
      rw [flat, Bool.not_false, if_pos rfl] at carries
      obtain ⟨f, found, inside, holds, _⟩ := carries
      refine ⟨_, found, fun shown => ?_⟩
      have same : v = .vector f := shown
      have kept : t.elements f = e := ((grown.1 f inside).2.1).trans holds
      cases e with
      | list => cases flat
      | _ => exact ⟨f, same, kept⟩

/-- After a write a name reads the element it read before, unless that was written or removed itself, or an
element before it was removed: then it reads the one that comes next. -/
theorem Written.reads (w : Written s id names removed place new xs)
    (first : names.findIdx? (· = name) = some k) (apart : k ≠ place) :
    ReadsNamed s id name (if removed ∧ place < k then xs.at? (k + 1)
      else (xs.at? k).map (·.converted (s.elements id))) := by
  have still : ((names? s id).getD []).findIdx? (· = name) = some k := by
    rw [w.named, Option.getD_some, List.findIdx?_append, first]
    rfl
  intro index text
  obtain ⟨v, t, run, grown, shown⟩ := element_named text still
  refine ⟨v, t, run, ?_⟩
  by_cases after : removed ∧ place < k
  · rw [if_pos after, ← w.holds.moved after.1 k (Nat.le_of_lt after.2)]
    exact shown
  · have bound : k < xs.length := by
      rw [← w.aligned]
      exact (List.findIdx?_eq_some_iff_findIdx_eq.mp first).1
    obtain ⟨e, there⟩ := Option.isSome_iff_exists.mp ((Elements.at?_isSome_iff xs k).mpr bound)
    have before : removed = true → k < place := fun gone => by
      have : ¬ place < k := fun later => after ⟨gone, later⟩
      omega
    have carried := w.holds.kept k e apart before there
    obtain ⟨c, found, shows⟩ := shows_carried (v := v) grown carried
    rw [found] at shown
    rw [if_neg after, there]
    exact shows shown

end Written

/-! What a replacement of an element writes. -/

section Replacing

variable {s t u : Store} {c id m : VectorId} {index v : Value} {names : List Name}

theorem names_of {names : List Name} (named : s.attribute? c "names" = some (.vector m))
    (holds : s.elements m = .character names) : names? s c = some names := by
  unfold names?
  rw [named]
  change (s.elements m).strings? = _
  rw [holds]
  rfl

theorem inside_of_named (named : s.attribute? c "names" = some (.vector m)) :
    c.index < s.vectors.size := by
  by_contra outside
  unfold Store.attribute? at named
  rw [container_outside (Nat.le_of_not_lt outside)] at named
  cases named

theorem inside_of_texts (holds : s.elements m = .character names) : m.index < s.vectors.size := by
  by_contra outside
  unfold Store.elements at holds
  rw [container_outside (Nat.le_of_not_lt outside)] at holds
  cases holds

theorem names_later (grown : Grown s t) (there : id.index < s.vectors.size)
    (named : names? s id = some names) : names? t id = some names := by
  obtain ⟨v, attached, texts⟩ := Option.bind_eq_some_iff.mp named
  cases v with
  | vector m =>
    have holds : s.elements m = .character names := by
      change (s.elements m).strings? = some names at texts
      cases contents : s.elements m with
      | character xs =>
        rw [contents] at texts
        cases texts
        rfl
      | _ =>
        rw [contents] at texts
        cases texts
    refine names_of (m := m) ?_ ((grown.1 m (inside_of_texts holds)).2.1.trans holds)
    unfold Store.attribute? at attached ⊢
    rw [(grown.1 id there).2.2]
    exact attached
  | _ => cases texts

/-- An index means the same for a vector that took over contents and names. -/
theorem index_taken (grown : Grown s u) (named : s.attribute? c "names" = some (.vector m))
    (there : m.index < s.vectors.size) (held : ∀ i, index = .vector i → i.index < s.vectors.size)
    (contents : u.elements id = s.elements c)
    (attributes : (u.container id).attributes = (s.container c).attributes) :
    names? u id = names? s c ∧ u.string? index = s.string? index ∧
      resolveIndex u id index true = resolveIndex s c index true := by
  have names : names? u id = names? s c := by
    have same : u.attribute? id "names" = some (.vector m) := by
      unfold Store.attribute? at named ⊢
      rw [attributes]
      exact named
    unfold names?
    rw [same, named]
    exact congrArg Elements.strings? (grown.1 m there).2.1
  have kept : u.string? index = s.string? index ∧ u.number? index = s.number? index ∧
      u.typeName index = s.typeName index := by
    cases index with
    | vector i =>
      have same : u.elements i = s.elements i := (grown.1 i (held i rfl)).2.1
      exact ⟨congrArg (·.strings?.bind List.head?) same, congrArg Elements.number? same,
        congrArg Elements.typeName same⟩
    | _ => exact ⟨rfl, rfl, rfl⟩
  refine ⟨names, kept.1, ?_⟩
  unfold resolveIndex
  rw [names, contents, kept.1, kept.2.1, kept.2.2]

/-- A write to a vector leaves its names, which another vector holds. -/
theorem names_rewritten {zs : Elements} (written : Rewritten id zs s t)
    (named : s.attribute? id "names" = some (.vector m)) (holds : s.elements m = .character names)
    (apart : m ≠ id) : names? t id = some names := by
  refine names_of (m := m) ?_ ?_
  · unfold Store.attribute? at named ⊢
    rw [written.attributes]
    exact named
  · exact ((written.others m apart (inside_of_texts holds)).2.1).trans holds

/-- A value written to an unshared vector comes to the place that its index stands for, or to the end under a
new name, and no names change but for the new one. -/
theorem place_put_named {k : Nat} {w : Store} (inside : id.index < u.vectors.size)
    (unshared : (u.container id).sharing.isShared = false)
    (named : u.attribute? id "names" = some (.vector m)) (holds : u.elements m = .character names)
    (placed : place id index u = (.ok k, w)) (done : put id k v w = (.ok (), t)) :
    ∃ new, destination u id index = some (k, new) ∧ k ≤ (u.elements id).length ∧
      (new.isSome → k = (u.elements id).length) ∧ id.index < t.vectors.size ∧
      t.Replaced ((u.elements id).isList && v.isNull) k (u.elements id) (t.elements id) ∧
      (m ≠ id → names? t id = some (names ++ new.toList)) := by
  unfold destination
  rcases place_ok inside unshared placed with ⟨found, rfl⟩ | ⟨name, absent, text, rfl, renamed, _⟩
  · obtain ⟨within, zs, written, replaced⟩ := put_ok inside done
    refine ⟨none, by rw [found], within, nofun, Nat.lt_of_lt_of_le inside written.size, ?_, fun apart => ?_⟩
    · rw [written.elements]
      exact replaced
    · rw [names_rewritten written named holds apart, Option.toList_none, List.append_nil]
  · obtain ⟨fresh, new, _, lists, added⟩ := renamed.fresh
    obtain ⟨_, zs, written, replaced⟩ := put_ok (Nat.lt_of_lt_of_le inside renamed.size) done
    rw [renamed.elements] at replaced
    have extended : extendedNames u id name = names ++ [name] := by
      unfold extendedNames
      rw [names_of named holds]
      rfl
    refine ⟨some name, ?_, Nat.le_refl _, fun _ => rfl, ?_, ?_, fun _ => ?_⟩
    · rw [absent, text]
      rfl
    · exact Nat.lt_of_lt_of_le inside (Nat.le_trans renamed.size written.size)
    · rw [written.elements]
      exact replaced
    · have other : fresh ≠ id := fun same => Nat.not_lt_of_le new (same ▸ inside)
      refine names_rewritten written ?_ (lists.trans (by rw [extended]; rfl)) other
      unfold Store.attribute?
      rw [added, Table.get?_insert, if_pos rfl]

/-- A replacement of an element writes to the place that its index stands for, or to the end under a new
name. It gives the vector it wrote to, and no names change but for the new one. -/
theorem setElement_named {args : Arguments} {r : Value} (target : args.get? "x" 0 = some (.vector c))
    (position : args.get? "i" 1 = some index) (value : args.get? "value" 2 = some v)
    (held : ∀ i, index = .vector i → i.index < s.vectors.size)
    (named : s.attribute? c "names" = some (.vector m)) (holds : s.elements m = .character names)
    (ok : setElement args s = (.ok r, t)) :
    ∃ id k new, r = .vector id ∧ id.index < t.vectors.size ∧ destination s c index = some (k, new) ∧
      k ≤ (s.elements c).length ∧ (new.isSome → k = (s.elements c).length) ∧
      t.Replaced ((s.elements c).isList && v.isNull) k (s.elements c) (t.elements id) ∧
      (m ≠ c → names? t id = some (names ++ new.toList)) := by
  have texts := inside_of_texts holds
  obtain ⟨id, u, picked, grown, inside, unshared, contents, attributes, itself⟩ :=
    replacementTarget_ok (inside_of_named named)
  obtain ⟨_, string, resolved⟩ := index_taken grown named texts held contents attributes
  have known : u.attribute? id "names" = some (.vector m) := by
    unfold Store.attribute? at named ⊢
    rw [attributes]
    exact named
  have still : u.elements m = .character names := ((grown.1 m texts).2.1).trans holds
  rw [setElement_eq, required_then target, required_then position, required_then value, seq_apply,
    picked] at ok
  obtain ⟨k, w, placed, written⟩ := seq_ok ok
  obtain ⟨_, after, done, given⟩ := seq_ok written
  cases given
  obtain ⟨new, meant, within, atEnd, there, replaced, names'⟩ :=
    place_put_named inside unshared known still placed done
  have same : destination u id index = destination s c index := by
    unfold destination
    rw [resolved, string, contents]
  rw [contents] at within atEnd replaced
  refine ⟨id, k, new, rfl, there, same ▸ meant, within, atEnd, replaced, fun apart => names' ?_⟩
  rcases itself with ⟨rfl, _⟩ | ⟨fresh, _⟩
  · exact apart
  · exact fun same => Nat.not_lt_of_le fresh (same ▸ texts)

end Replacing

end Builtins

namespace Session

open Builtins

/-- An assignment `x[[i]] <- v` that succeeds, where `x` has a name for each element and the standard function
replaces it, writes to the place the index stands for, and no name changes but for one that is appended.
Names and elements are as many afterwards exactly if no element was removed, none was appended without a name,
and no name was appended for `NULL`. A name reads the element it read before, in the type that the vector now
has, unless that element was itself written, or one before it was removed: then it reads the next one, and the
last reads `NULL`. -/
theorem names_after_replacement {depth : Nat} {node callNode : NodeId} {f : Expr} {label : Option Name}
    {sym : NodeId} {x : Name} {extra : List Arg} {value : Expr} {env : EnvId} {caller : RecordId}
    {result : Value} {s ready t : Session} {name : Name} {k : Nat} {b : Builtin} {call : Expr}
    {args : Arguments} {c m : VectorId} {index v : Value} {names : List Name}
    (run : eval (depth + 1) (.assign node (.call callNode f (⟨label, .symbol sym x⟩ :: extra)) value false)
      env caller s = (.ok result, t))
    (known : f.symbol? = some "[[")
    (prepared : prepareReplacement (eval depth) env caller "[[" (.symbol sym x) extra result
      (eval depth value env caller s).2 = (.ok (.builtin name k, call, args), ready))
    (found : ready.builtins.functions[k]? = some b) (operation : b.operation = .strict .setElement)
    (target : args.get? "x" 0 = some (.vector c)) (position : args.get? "i" 1 = some index)
    (new : args.get? "value" 2 = some v)
    (held : ∀ i, index = .vector i → i.index < ready.store.vectors.size)
    (named : ready.store.attribute? c "names" = some (.vector m))
    (holds : ready.store.elements m = .character names)
    (aligned : names.length = (ready.store.elements c).length) :
    let xs := ready.store.elements c
    let removed := xs.isList && v.isNull
    ∃ r place appended, t.reading? env x = some (.vector r) ∧
      destination ready.store c index = some (place, appended) ∧
      t.store.Replaced removed place xs (t.store.elements r) ∧
      (m ≠ c →
        names? t.store r = some (names ++ appended.toList) ∧
        (Aligned t.store r ↔
          if removed then appended = none ∧ place = xs.length else appended.isSome ∨ place < xs.length) ∧
        ∀ n k, names.findIdx? (· = n) = some k → k ≠ place →
          ReadsNamed ready.store c n (xs.at? k) ∧
          ReadsNamed t.store r n (if removed ∧ place < k then xs.at? (k + 1)
            else (xs.at? k).map (·.converted (t.store.elements r)))) := by
  intro xs removed
  have assigned := (eval_assign_parts run).2
  rw [assign_part (eval depth) env caller known, bind_apply, prepared] at assigned
  obtain ⟨updated, between, called, rest⟩ := parts_of_bind assigned
  rw [assign] at rest
  obtain ⟨owned, bound⟩ := assignVariable_ok rest
  obtain ⟨r, place, appended, rfl, inside, meant, within, atEnd, replaced, renamed⟩ :=
    setElement_named target position new held named holds
      (callReplacement_ok (a := .element) found operation called).2
  have grown := grown_of_owned owned
  have contents : t.store.elements r = between.store.elements r := (grown.1 r inside).2.1
  rw [← contents] at replaced
  refine ⟨r, place, appended, ?_, meant, replaced.later grown, fun apart => ?_⟩
  · unfold reading?
    rw [bound]
    rfl
  · have written : Written t.store r names removed place appended xs :=
      { named := names_later grown inside (renamed apart), holds := replaced.later grown, aligned,
        within, atEnd }
    refine ⟨written.named, written.aligned_iff, fun n k first other => ⟨?_, written.reads first other⟩⟩
    exact reads_first (names_of named holds) first

/-- A session in which a host bound a variable to a list of two named elements. -/
def namedList : Session :=
  let texts := (Store.addVector ⟨.character ["a", "b"], {}, .shared⟩ (start {}).store).2
  let list : Container := ⟨.list [.vector ⟨10⟩, .vector ⟨10⟩], .ofList [("names", .vector ⟨10⟩)], .temporary⟩
  let made := (Store.addVector ⟨.character ["a"], {}, .shared⟩ (Store.addVector list texts).2).2
  (defineIn global "x" (.vector ⟨11⟩) { start {} with store := made }).2

/-- `x[["a"]]`, with the constant that `namedList` holds. -/
def elementOfX : Expr :=
  .call ⟨2⟩ (.symbol ⟨3⟩ "[[") [⟨none, .symbol ⟨0⟩ "x"⟩, ⟨none, .constant ⟨1⟩ (.vector ⟨12⟩)⟩]

/-- What comes before the call of `[[<-` in the removal of that element. -/
def removalReady : Except Unwind (Value × Expr × Arguments) × Session :=
  prepareReplacement (eval 3) global ⟨0⟩ "[[" (.symbol ⟨0⟩ "x")
    [⟨none, .constant ⟨1⟩ (.vector ⟨12⟩)⟩] .null namedList

set_option maxRecDepth 10000 in
/-- The first of two named elements is removed. Its name stays, and the name of the other one, which was not
touched, reads `NULL`. -/
theorem removed_element_leaves_its_name :
    let t := (eval 4 (.assign ⟨4⟩ elementOfX (.constant ⟨5⟩ .null) false) global ⟨0⟩ namedList).2
    namedList.Reachable ∧ Aligned namedList.store ⟨11⟩ ∧ ∃ r, t.reading? global "x" = some (.vector r) ∧
      ¬ Aligned t.store r ∧ ReadsNamed t.store r "b" none := by
  intro t
  have succeeds : (eval 4 (.assign ⟨4⟩ elementOfX (.constant ⟨5⟩ .null) false) global ⟨0⟩
      namedList).1.isOk = true := by decide +kernel
  rcases run : eval 4 (.assign ⟨4⟩ elementOfX (.constant ⟨5⟩ .null) false) global ⟨0⟩ namedList with
    ⟨u | v, after⟩
  · rw [run] at succeeds
    cases succeeds
  · have constant : v = .null := by
      cases (eval_assign_parts run).1
      rfl
    subst constant
    let call : Expr := .call ⟨1⟩ (.symbol ⟨0⟩ "[[<-") []
    let args : Arguments := ⟨[none, none, some "value"], [.vector ⟨11⟩, .vector ⟨12⟩, .null]⟩
    have prepared : removalReady = (.ok (.builtin "[[<-" 3, call, args), removalReady.2) := rfl
    have named : removalReady.2.store.attribute? ⟨11⟩ "names" = some (.vector ⟨10⟩) := rfl
    have holds : removalReady.2.store.elements ⟨10⟩ = .character ["a", "b"] := rfl
    obtain ⟨r, place, appended, reading, meant, _, rest⟩ :=
      names_after_replacement run rfl prepared rfl rfl rfl rfl rfl
        (fun i same => by cases same; decide +kernel) named holds rfl
    obtain ⟨rfl, rfl⟩ : place = 0 ∧ appended = none := by
      have first : destination removalReady.2.store ⟨11⟩ (.vector ⟨12⟩) = some (0, none) := rfl
      rw [first] at meant
      cases meant
      exact ⟨rfl, rfl⟩
    obtain ⟨_, aligned, reads⟩ := rest (by decide)
    have same : t = after := congrArg Prod.snd run
    rw [same]
    refine ⟨⟨{}, ?_⟩, ⟨_, rfl, rfl⟩, r, reading, fun still => ?_, (reads "b" 1 rfl (by decide)).2⟩
    · exact (((Relation.ReflTransGen.single (.makeVector _ _)).tail (.makeVector _ _)).tail
        (.makeVector _ _)).tail (.defineIn _ _ _ _)
    · cases (aligned.mp still).2

end Session
end CallByNeed
