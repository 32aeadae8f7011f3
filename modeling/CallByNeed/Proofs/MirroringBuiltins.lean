import CallByNeed.Proofs.Copies
import CallByNeed.Proofs.Effects
import CallByNeed.Proofs.Mirroring

/-!
Builtins that only compute, on arguments that mirror one another: where one run gives a value the other does
too, and the two values mirror one another.
-/
namespace CallByNeed

variable {α β γ δ : Type}

/-- Arguments of the same names, with related values. -/
structure Arguments.Paired (R : Value → Value → Prop) (xs ys : Arguments) : Prop where
  names : xs.names = ys.names
  values : List.Forall₂ R xs.values ys.values

namespace Arguments.Paired

variable {R : Value → Value → Prop} {xs ys : Arguments}

theorem getElem? {vs ws : List Value} (each : List.Forall₂ R vs ws) (i : Nat) : Option.Rel R vs[i]? ws[i]? := by
  induction each generalizing i with
  | nil => exact .none
  | cons here _ ih =>
    cases i with
    | zero => exact .some here
    | succ i => exact ih i

theorem named? (paired : xs.Paired R ys) (name : Name) : Option.Rel R (xs.named? name) (ys.named? name) := by
  unfold Arguments.named?
  rw [paired.names]
  cases ys.names.findIdx? (· = some name) with
  | none => exact .none
  | some i => exact getElem? paired.values i

theorem unnamed (paired : xs.Paired R ys) : List.Forall₂ R xs.unnamed ys.unnamed := by
  unfold Arguments.unnamed
  rw [paired.names]
  generalize ys.names = names
  have each := paired.values
  generalize xs.values = vs, ys.values = ws at each
  induction each generalizing names with
  | nil =>
    cases names <;> exact .nil
  | cons here _ ih =>
    cases names with
    | nil => exact .nil
    | cons name names =>
      rw [List.zip_cons_cons, List.zip_cons_cons, List.filter_cons, List.filter_cons]
      dsimp only
      split
      · exact .cons here (ih names)
      · exact ih names

theorem get? (missing : ∀ {v w}, R v w → v.isMissing = w.isMissing) (paired : xs.Paired R ys) (name : Name)
    (position : Nat) : Option.Rel R (xs.get? name position) (ys.get? name position) := by
  have found : Option.Rel R (if xs.names.contains (some name) then xs.named? name else xs.unnamed[position]?)
      (if ys.names.contains (some name) then ys.named? name else ys.unnamed[position]?) := by
    rw [paired.names]
    split
    · exact paired.named? name
    · exact getElem? paired.unnamed position
  unfold Arguments.get?
  generalize (if xs.names.contains (some name) then xs.named? name else xs.unnamed[position]?) = x,
    (if ys.names.contains (some name) then ys.named? name else ys.unnamed[position]?) = y at found
  cases found with
  | none => exact .none
  | @some v w related =>
    simp only [Option.filter_some, missing related]
    split
    · exact .some related
    · exact .none

end Arguments.Paired

namespace Store

variable {s t : Store}

/-- Two operations, of which the second comes to a value wherever the first does, and to a related one. -/
def Pairs (R : Store → Store → α → β → Prop) (m : StoreM α) (n : StoreM β) (s t : Store) : Prop :=
  ∀ a s', m s = (.ok a, s') → ∃ b t', n t = (.ok b, t') ∧ Grown s s' ∧ Grown t t' ∧ R s' t' a b

/-- Lists of values that mirror one another. -/
abbrev AllMirror (s t : Store) : List Value → List Value → Prop := List.Forall₂ (s.Mirrors t)

theorem AllMirror.mono {s' t' : Store} {vs ws : List Value} (each : s.AllMirror t vs ws) (old : Grown s s')
    (new : Grown t t') : s'.AllMirror t' vs ws :=
  each.imp fun _ _ mirrors => mirrors.mono old new

theorem pairs_pure {R : Store → Store → α → β → Prop} {a : α} {b : β} (related : R s t a b) :
    Pairs R (pure a) (pure b) s t := by
  rintro _ _ ⟨⟩
  exact ⟨b, t, rfl, Chained.refl s, Chained.refl t, related⟩

theorem pairs_throw {R : Store → Store → α → β → Prop} (f : Failure) (n : StoreM β) :
    Pairs R (throw f) n s t := nofun

theorem pairs_seq {Q : Store → Store → α → γ → Prop} {R : Store → Store → β → δ → Prop} {m : StoreM α}
    {n : StoreM γ} {f : α → StoreM β} {g : γ → StoreM δ} (first : Pairs Q m n s t)
    (rest : ∀ a c s' t', Grown s s' → Grown t t' → Q s' t' a c → Pairs R (f a) (g c) s' t') :
    Pairs R (m >>= f) (n >>= g) s t := by
  intro b s'' run
  obtain ⟨a, s', run, onward⟩ := seq_ok run
  obtain ⟨c, t', again, old, new, related⟩ := first a s' run
  obtain ⟨d, t'', further, old', new', related'⟩ := rest a c s' t' old new related b s'' onward
  refine ⟨d, t'', ?_, Chained.trans old old', Chained.trans new new', related'⟩
  rw [seq_apply, again]
  exact further

theorem pairs_read {R : Store → Store → α → β → Prop} {f : Store → StoreM α} {g : Store → StoreM β}
    (pairs : Pairs R (f s) (g t) s t) : Pairs R (get >>= f) (get >>= g) s t := pairs

/-- What follows a change of sharing states. -/
theorem pairs_raise {R : Store → Store → α → β → Prop} {f g : Store → Store} {m : StoreM α} {n : StoreM β}
    (old : Grown s (f s)) (new : Grown t (g t)) (rest : Pairs R m n (f s) (g t)) :
    Pairs R (modify f >>= fun _ => m) (modify g >>= fun _ => n) s t := by
  intro a s' run
  obtain ⟨b, t', again, old', new', related⟩ := rest a s' run
  exact ⟨b, t', again, Chained.trans old old', Chained.trans new new', related⟩

theorem pairs_lift {R : Store → Store → α → β → Prop} {m : Alloc α} {n : Alloc β} (old : Moves Grown m)
    (new : Moves Grown n) (related : R (m s).2 (n t).2 (m s).1 (n t).1) :
    Pairs R (liftM m) (liftM n) s t := by
  rintro _ _ ⟨⟩
  exact ⟨_, _, rfl, old s, new t, related⟩

theorem pairs_except {R : Store → Store → α → β → Prop} {x : Except Failure α} {y : Except Failure β}
    (related : ∀ a, x = .ok a → ∃ b, y = .ok b ∧ R s t a b) : Pairs R (liftM x) (liftM y) s t := by
  intro a s' run
  cases x with
  | error f => cases run
  | ok a' =>
    cases run
    obtain ⟨b, rfl, here⟩ := related a rfl
    exact ⟨b, t, rfl, Chained.refl s, Chained.refl t, here⟩

theorem pairs_vector {xs ys : Elements} (paired : xs.Paired (s.Mirrors t) ys) :
    Pairs Mirrors (liftM (vector xs)) (liftM (vector ys)) s t :=
  pairs_lift (moves_vector xs) (moves_vector ys) (Mirrors.made _ _ paired ⟨.nil, List.nodup_nil⟩)

theorem pairs_same {xs : Elements} (atomic : xs.isList = false) :
    Pairs Mirrors (liftM (vector xs)) (liftM (vector xs)) s t := pairs_vector (.atomic atomic)

theorem pairs_mapM {Q : Store → Store → β → γ → Prop} {f : α → StoreM β} {g : δ → StoreM γ} {xs : List α}
    {ys : List δ} (mono : ∀ {s t s' t' b c}, Q s t b c → Grown s s' → Grown t t' → Q s' t' b c)
    {R : α → δ → Prop} (each : List.Forall₂ R xs ys)
    (pairs : ∀ {x y s' t'}, R x y → Grown s s' → Grown t t' → Pairs Q (f x) (g y) s' t') :
    Pairs (fun s t => List.Forall₂ (Q s t)) (xs.mapM f) (ys.mapM g) s t := by
  induction each generalizing s t with
  | nil => exact pairs_pure .nil
  | cons here later ih =>
    rw [List.mapM_cons, List.mapM_cons]
    refine pairs_seq (pairs here (Chained.refl s) (Chained.refl t)) fun b c s' t' old new first => ?_
    refine pairs_seq (ih fun related old' new' => pairs related (Chained.trans old old')
      (Chained.trans new new')) fun bs cs s'' t'' old' new' rest => ?_
    exact pairs_pure (.cons (mono first old' new') rest)

/-- The elements of atomic contents as vectors. -/
theorem mirrors_items {xs ys : Elements} (paired : xs.Paired (s.Mirrors t) ys) :
    (items xs s).2.AllMirror (items ys t).2 (items xs s).1 (items ys t).1 := by
  have made (parts : List Elements) (atomic : ∀ p ∈ parts, p.isList = false) (s t : Store) :
      (parts.mapM vector s).2.AllMirror (parts.mapM vector t).2 (parts.mapM vector s).1
        (parts.mapM vector t).1 := by
    induction parts generalizing s t with
    | nil => exact .nil
    | cons p rest ih =>
      obtain ⟨here, later⟩ := List.forall_mem_cons.mp atomic
      have first : (vector p s).2.Mirrors (vector p t).2 (vector p s).1 (vector p t).1 :=
        Mirrors.made _ _ (.atomic here) ⟨.nil, List.nodup_nil⟩
      rw [List.mapM_cons]
      exact .cons (first.mono (moves_mapM moves_vector rest _) (moves_mapM moves_vector rest _))
        (ih later _ _)
  cases paired with
  | list each => exact each
  | @atomic xs atomic =>
    cases xs with
    | list => cases atomic
    | logical xs | integer xs | double xs | character xs =>
      refine made _ (fun p member => ?_) s t
      obtain ⟨_, _, rfl⟩ := List.mem_map.mp member
      rfl

end Store

namespace Builtins

open Store

variable {s t : Store} {args args' : Arguments}

theorem pairs_required (paired : args.Paired (s.Mirrors t) args') (name : Name) (position : Nat) :
    Pairs Mirrors (liftM (args.required name position)) (liftM (args'.required name position)) s t := by
  refine pairs_except fun v given => ?_
  have found := paired.get? Mirrors.isMissing name position
  unfold Arguments.required at given ⊢
  generalize args.get? name position = x, args'.get? name position = y at found given
  cases found with
  | none => cases given
  | some mirrors =>
    cases given
    exact ⟨_, rfl, mirrors⟩

theorem pairs_requiredString (paired : args.Paired (s.Mirrors t) args') (name : Name) (position : Nat) :
    Pairs (fun _ _ => Eq) (liftM (args.requiredString s name position))
      (liftM (args'.requiredString t name position)) s t := by
  refine pairs_except fun text given => ⟨text, ?_, rfl⟩
  have found := paired.get? Mirrors.isMissing name position
  unfold Arguments.requiredString Arguments.required at given ⊢
  generalize args.get? name position = x, args'.get? name position = y at found given
  cases found with
  | none => cases given
  | some mirrors =>
    dsimp only [bind, Except.bind] at given ⊢
    rw [← mirrors.string?]
    exact given

/-! Vectors. -/

theorem paired_widen {R : Value → Value → Prop} {xs ys : Elements} (paired : xs.Paired R ys) (rank : Nat) :
    (xs.widen rank).Paired R (ys.widen rank) := by
  cases paired with
  | @atomic xs atomic =>
    refine .atomic ?_
    unfold Elements.widen
    split
    · exact atomic
    · split <;> rfl
  | @list vs ws each =>
    have texts : vs.map (fun _ => "") = ws.map fun _ => "" := by simp [each.length_eq]
    have widened (us : List Value) : (Elements.list us).widen rank =
        if rank ≤ 4 then .list us else .character (us.map fun _ => "") := rfl
    rw [widened, widened, texts]
    split
    · exact .list each
    · exact .atomic rfl

theorem paired_append {R : Value → Value → Prop} {xs ys xs' ys' : Elements} (first : xs.Paired R ys)
    (second : xs'.Paired R ys') : (xs.append xs').Paired R (ys.append ys') := by
  cases first with
  | @atomic xs atomic =>
    cases second with
    | @atomic xs' atomic' => cases xs <;> cases xs' <;> first | exact .atomic rfl | cases atomic
    | list => cases xs <;> first | exact .atomic rfl | cases atomic
  | list each =>
    cases second with
    | @atomic xs' atomic' => cases xs' <;> first | exact .list each | exact absurd atomic' Bool.noConfusion
    | list each' => exact .list (List.rel_append each each')

theorem paired_emptyOfRank (R : Value → Value → Prop) (rank : Nat) :
    (Elements.emptyOfRank rank).Paired R (Elements.emptyOfRank rank) := by
  unfold Elements.emptyOfRank
  split <;> first | exact .atomic rfl | exact .list .nil

theorem pairs_listPart {v w : Value} (mirrors : s.Mirrors t v w) : Pairs AllMirror (listPart v)
    (listPart w) s t := by
  cases v with
  | vector a =>
    obtain ⟨b, rfl⟩ := mirrors.eq_vector
    have old := shareAll_moves (R := Grown) (s.elements a).children s
    have new := shareAll_moves (R := Grown) (t.elements b).children t
    refine pairs_read (pairs_raise old new (pairs_lift (moves_items _) (moves_items _) (mirrors_items ?_)))
    exact mirrors.elements.imp fun mirrors => mirrors.mono old new
  | dots | language => cases mirrors with
    | plain plain => cases plain
  | _ =>
    obtain rfl := mirrors.plain_eq rfl
    exact pairs_pure (.cons mirrors .nil)

theorem pairs_atomicPart {v w : Value} (rank : Nat) (mirrors : s.Mirrors t v w) :
    Pairs (fun s t xs ys => xs.Paired (s.Mirrors t) ys) (atomicPart rank v) (atomicPart rank w) s t := by
  cases v with
  | vector a =>
    obtain ⟨b, rfl⟩ := mirrors.eq_vector
    exact pairs_read (pairs_pure (paired_widen mirrors.elements rank))
  | _ => exact pairs_read (pairs_throw _ _)

theorem pairs_combine (paired : args.Paired (s.Mirrors t) args') :
    Pairs Mirrors (combine args) (combine args') s t := by
  have values : s.AllMirror t (args.values.filter (!·.isNull)) (args'.values.filter (!·.isNull)) :=
    List.rel_filter (fun _ _ mirrors => by simp [mirrors.isNull]) paired.values
  unfold combine
  dsimp only
  generalize args.values.filter (!·.isNull) = vs, args'.values.filter (!·.isNull) = ws at values
  have empty : vs.isEmpty = ws.isEmpty := by cases values <;> rfl
  rw [empty]
  split
  · exact pairs_pure (.plain rfl)
  have ranks : combinedRank s vs = combinedRank t ws := by
    unfold combinedRank
    congr 1
    refine map_eq_map (values.imp fun v w mirrors => ?_)
    have vectors := mirrors.vector?
    generalize v.vector? = a, w.vector? = b at vectors
    cases vectors with
    | none => rfl
    | some mirrors => exact mirrors.read (f := Elements.rank) fun _ _ _ => rfl
  refine pairs_read ?_
  rw [ranks]
  split
  · refine pairs_seq (pairs_mapM (Q := AllMirror) AllMirror.mono values
      fun mirrors old new => pairs_listPart (mirrors.mono old new)) fun parts parts' s t _ _ each => ?_
    exact pairs_vector (.list (List.rel_flatten each))
  · refine pairs_seq (pairs_mapM (fun part old new => part.imp fun mirrors => mirrors.mono old new) values
      fun mirrors old new => pairs_atomicPart _ (mirrors.mono old new)) fun parts parts' s t _ _ each => ?_
    exact pairs_vector (List.rel_foldl (P := Elements.Paired (s.Mirrors t)) (R := Elements.Paired (s.Mirrors t))
      (fun _ _ first _ _ second => paired_append first second) (paired_emptyOfRank _ _) each)

theorem pairs_ownedList {vs ws : List Value} {as bs : List (Name × Value)} (values : s.AllMirror t vs ws)
    (attributes : Attributes.Paired (s.Mirrors t) (.ofList as) (.ofList bs)) :
    Pairs Mirrors (ownedList vs as) (ownedList ws bs) s t := by
  have old := shareAll_moves (R := Grown) vs s
  have new := shareAll_moves (R := Grown) ws t
  refine pairs_raise old new ?_
  change Pairs Mirrors (liftM (Value.vector <$> addVector ⟨.list vs, .ofList as, .temporary⟩ : Alloc Value))
    (liftM (Value.vector <$> addVector ⟨.list ws, .ofList bs, .temporary⟩ : Alloc Value)) _ _
  refine pairs_lift (Owning.addVector _) (Owning.addVector _) ?_
  exact Mirrors.made _ _ (.list (values.mono old new)) (attributes.imp fun mirrors => mirrors.mono old new)

theorem pairs_makeList (paired : args.Paired (s.Mirrors t) args') :
    Pairs Mirrors (makeList args) (makeList args') s t := by
  unfold makeList
  rw [paired.names]
  split
  · refine pairs_seq (pairs_same rfl) fun v w s t old new named => ?_
    refine pairs_ownedList (AllMirror.mono paired.values old new) ⟨?_, ?_⟩
    · exact .cons ⟨rfl, named⟩ .nil
    · exact List.nodup_singleton _
  · exact pairs_ownedList paired.values ⟨.nil, List.nodup_nil⟩

theorem typeName_eq {v w : Value} (mirrors : s.Mirrors t v w) : s.typeName v = t.typeName w := by
  cases v with
  | vector a =>
    obtain ⟨b, rfl⟩ := mirrors.eq_vector
    exact mirrors.read (f := Elements.typeName) fun _ _ _ => rfl
  | _ => cases mirrors with
    | plain plain => rfl

theorem length_eq {a b : VectorId} (mirrors : s.Mirrors t (.vector a) (.vector b)) :
    (s.elements a).length = (t.elements b).length :=
  mirrors.read (f := Elements.length) fun _ _ same => same

theorem names?_eq {a b : VectorId} (mirrors : s.Mirrors t (.vector a) (.vector b)) :
    names? s a = names? t b := by
  have named := mirrors.attribute? "names"
  unfold names?
  generalize s.attribute? a "names" = x, t.attribute? b "names" = y at named
  cases named with
  | none => rfl
  | some mirrors => exact mirrors.strings?

theorem resolveIndex_eq {a b : VectorId} {i j : Value} (mirrors : s.Mirrors t (.vector a) (.vector b))
    (index : s.Mirrors t i j) (append : Bool) : resolveIndex s a i append = resolveIndex t b j append := by
  unfold resolveIndex
  rw [index.string?, index.number?, names?_eq mirrors, typeName_eq index, length_eq mirrors]

theorem element_list {u : Store} {c : VectorId} {xs : List Value} (held : u.elements c = .list xs) (i : Nat) :
    Store.element c i u = (xs[i]?, u) := by
  have read (f : Store → Alloc (Option Value)) : (get >>= f) u = f u u := rfl
  unfold Store.element
  rw [read, held]
  rfl

theorem element_atomic {u : Store} {c : VectorId} (atomic : (u.elements c).isList = false) (i : Nat) :
    Store.element c i u = (u.elements c).singletons[i]?.mapM vector u := by
  have read (f : Store → Alloc (Option Value)) : (get >>= f) u = f u u := rfl
  unfold Store.element
  rw [read]
  cases held : u.elements c with
  | list xs =>
    rw [held] at atomic
    cases atomic
  | _ => rfl

theorem pairs_elementAt {a b : VectorId} (mirrors : s.Mirrors t (.vector a) (.vector b)) (i : Nat) :
    Pairs (fun s t => Option.Rel (s.Mirrors t)) (liftM (Store.element a i)) (liftM (Store.element b i)) s t := by
  refine pairs_lift (Store.moves_element _ _) (Store.moves_element _ _) ?_
  have made (part : Option Elements) (atomic : ∀ p ∈ part, p.isList = false) :
      Option.Rel ((part.mapM vector s).2.Mirrors (part.mapM vector t).2) (part.mapM vector s).1
        (part.mapM vector t).1 := by
    cases part with
    | none => exact .none
    | some p => exact .some (Mirrors.made _ _ (.atomic (atomic p rfl)) ⟨.nil, List.nodup_nil⟩)
  have elements := mirrors.elements
  generalize left : s.elements a = xs, right : t.elements b = ys at elements
  cases elements with
  | list each =>
    rw [element_list left, element_list right]
    exact Arguments.Paired.getElem? each i
  | @atomic xs atomic =>
    rw [element_atomic (left ▸ atomic), element_atomic (right ▸ atomic), left, right]
    cases xs with
    | list => cases atomic
    | logical xs | integer xs | double xs | character xs =>
      refine made _ fun p member => ?_
      obtain ⟨_, _, rfl⟩ := List.mem_map.mp (List.mem_of_getElem? member)
      rfl

theorem pairs_element (paired : args.Paired (s.Mirrors t) args') :
    Pairs Mirrors (element args) (element args') s t := by
  refine pairs_seq (pairs_required paired _ _) fun target target' s₁ t₁ old new mirrors => ?_
  have paired : args.Paired (s₁.Mirrors t₁) args' := ⟨paired.names, AllMirror.mono paired.values old new⟩
  refine pairs_seq (pairs_required paired _ _) fun index index' s₂ t₂ old' new' resolved => ?_
  have mirrors := mirrors.mono old' new'
  refine pairs_read ?_
  cases target with
  | vector a =>
    obtain ⟨b, rfl⟩ := mirrors.eq_vector
    dsimp only
    rw [resolveIndex_eq mirrors resolved]
    refine pairs_seq (Q := fun _ _ => Eq) (pairs_except fun a given => ⟨a, given, rfl⟩)
      fun i j s t old'' new'' same => ?_
    subst same
    cases i with
    | none => exact pairs_throw _ _
    | some i =>
      refine pairs_seq (pairs_elementAt (mirrors.mono old'' new'') i) fun v w s t _ _ found => ?_
      have taken : s.Mirrors t (v.getD .null) (w.getD .null) := by
        cases found with
        | none => exact .plain rfl
        | some mirrors => exact mirrors
      refine pairs_raise (adjustChild_moves _ _ s) (adjustChild_moves _ _ t) (pairs_pure ?_)
      exact taken.mono (adjustChild_moves _ _ s) (adjustChild_moves _ _ t)
  | _ => exact pairs_throw _ _

theorem mirrors_getD {x y : Option Value} (related : Option.Rel (s.Mirrors t) x y) :
    s.Mirrors t (x.getD .null) (y.getD .null) := by
  cases related with
  | none => exact .plain rfl
  | some mirrors => exact mirrors

theorem pairs_length (paired : args.Paired (s.Mirrors t) args') :
    Pairs Mirrors (length args) (length args') s t := by
  have found := paired.get? Mirrors.isMissing "x" 0
  unfold length
  refine pairs_read ?_
  generalize args.get? "x" 0 = x, args'.get? "x" 0 = y at found
  cases found with
  | none => exact pairs_same rfl
  | @some v w mirrors =>
    cases v with
    | vector a =>
      obtain ⟨b, rfl⟩ := mirrors.eq_vector
      dsimp only
      rw [length_eq mirrors]
      exact pairs_same rfl
    | _ =>
      cases mirrors with
      | plain plain => first | exact pairs_same rfl | cases plain

theorem pairs_identical (paired : args.Paired (s.Mirrors t) args') :
    Pairs Mirrors (identical args) (identical args') s t := by
  refine pairs_seq (pairs_required paired _ _) fun x x' s₁ t₁ old new first => ?_
  have paired : args.Paired (s₁.Mirrors t₁) args' := ⟨paired.names, AllMirror.mono paired.values old new⟩
  refine pairs_seq (pairs_required paired _ _) fun y y' s₂ t₂ old' new' second => pairs_read ?_
  rw [(first.mono old' new').identical second]
  exact pairs_same rfl

theorem pairs_isNull (paired : args.Paired (s.Mirrors t) args') :
    Pairs Mirrors (isNull args) (isNull args') s t := by
  have found := paired.get? Mirrors.isMissing "x" 0
  have same : (args.get? "x" 0).all Value.isNull = (args'.get? "x" 0).all Value.isNull := by
    generalize args.get? "x" 0 = x, args'.get? "x" 0 = y at found
    cases found with
    | none => rfl
    | some mirrors => exact mirrors.isNull
  unfold isNull
  rw [same]
  exact pairs_same rfl

theorem pairs_identity (paired : args.Paired (s.Mirrors t) args') :
    Pairs Mirrors (identity args) (identity args') s t :=
  pairs_pure (mirrors_getD (paired.get? Mirrors.isMissing "x" 0))

/-! Attributes and classes. -/

theorem pairs_taken {owner owner' v w : Value} (mirrors : s.Mirrors t v w) :
    Pairs Mirrors (do modify (·.adjustChild owner v); pure v) (do modify (·.adjustChild owner' w); pure w) s t :=
  pairs_raise (adjustChild_moves _ _ s) (adjustChild_moves _ _ t)
    (pairs_pure (mirrors.mono (adjustChild_moves _ _ s) (adjustChild_moves _ _ t)))

theorem pairs_getAttribute (paired : args.Paired (s.Mirrors t) args') :
    Pairs Mirrors (getAttribute args) (getAttribute args') s t := by
  refine pairs_seq (pairs_required paired _ _) fun target target' s₁ t₁ old new mirrors => ?_
  have paired : args.Paired (s₁.Mirrors t₁) args' := ⟨paired.names, AllMirror.mono paired.values old new⟩
  refine pairs_read (pairs_seq (pairs_requiredString paired _ _) fun which _ s₂ t₂ old' new' same => ?_)
  subst same
  have vectors := (mirrors.mono old' new').vector?
  refine pairs_read (pairs_taken (mirrors_getD ?_))
  generalize target.vector? = a, target'.vector? = b at vectors
  cases vectors with
  | none => exact .none
  | some mirrors => exact mirrors.attribute? which

/-- The implicit class chains of values that mirror one another are the same, with the same classes. -/
def SameChains (implicit : ImplicitClasses) (s t : Store) : Prop :=
  ∀ v w, s.Mirrors t v w → s.classNames (implicit.ofValue s v) = t.classNames (implicit.ofValue t w)

theorem pairs_classOf {implicit : ImplicitClasses} (chains : SameChains implicit s t)
    (paired : args.Paired (s.Mirrors t) args') :
    Pairs Mirrors (classOf implicit args) (classOf implicit args') s t := by
  have mirrors := mirrors_getD (paired.get? Mirrors.isMissing "x" 0)
  unfold classOf
  dsimp only
  generalize (args.get? "x" 0).getD .null = v, (args'.get? "x" 0).getD .null = w at mirrors
  have classes := mirrors.explicitClass?
  refine pairs_read ?_
  generalize s.explicitClass? v = a, t.explicitClass? w = b at classes
  cases classes with
  | none =>
    dsimp only
    rw [chains v w mirrors]
    exact pairs_same rfl
  | some mirrors => exact pairs_taken mirrors

theorem pairs_oldClass (paired : args.Paired (s.Mirrors t) args') :
    Pairs Mirrors (oldClass args) (oldClass args') s t := by
  have found := paired.get? Mirrors.isMissing "x" 0
  unfold oldClass
  generalize args.get? "x" 0 = x, args'.get? "x" 0 = y at found
  cases found with
  | none => exact pairs_pure (.plain rfl)
  | @some v w mirrors =>
    have classes := mirrors.explicitClass?
    refine pairs_read (pairs_taken (mirrors_getD ?_))
    generalize s.explicitClass? v = a, t.explicitClass? w = b at classes
    cases classes with
    | none => exact .none
    | some mirrors => exact .some mirrors

theorem classNamesOf {implicit : ImplicitClasses} (chains : SameChains implicit s t) {v w : Value}
    (mirrors : s.Mirrors t v w) : s.classNames (s.classOf implicit v) = t.classNames (t.classOf implicit w) := by
  have classes := mirrors.explicitClass?
  unfold Store.classOf
  generalize s.explicitClass? v = a, t.explicitClass? w = b at classes
  cases classes with
  | none => exact chains v w mirrors
  | some mirrors => exact mirrors.classNames

theorem pairs_inherits {implicit : ImplicitClasses} (chains : ∀ {s' t'}, Grown s s' → Grown t t' →
    SameChains implicit s' t') (paired : args.Paired (s.Mirrors t) args') :
    Pairs Mirrors (inherits implicit args) (inherits implicit args') s t := by
  refine pairs_seq (pairs_required paired _ _) fun x x' s₁ t₁ old new first => ?_
  have paired : args.Paired (s₁.Mirrors t₁) args' := ⟨paired.names, AllMirror.mono paired.values old new⟩
  refine pairs_seq (pairs_required paired _ _) fun y y' s₂ t₂ old' new' second => pairs_read ?_
  dsimp only
  rw [second.strings?,
    classNamesOf (chains (Chained.trans old old') (Chained.trans new new')) (first.mono old' new')]
  exact pairs_same rfl

theorem push_modify {α : Type} (xs : Array α) (x : α) (f : α → α) :
    (xs.push x).modify xs.size f = xs.push (f x) := by
  apply Array.ext_getElem?
  intro i
  rw [Array.getElem?_modify, Array.getElem?_push, Array.getElem?_push]
  by_cases last : i = xs.size
  · simp [last]
  · simp [last, Ne.symm last]

/-- A copy without a class is made like any vector. -/
theorem classless_apply (id : VectorId) (s : Store) : classless id s =
    (.ok (.vector ⟨s.vectors.size⟩), (addVector ⟨s.elements id, Table.erase (s.container id).attributes "class",
      .temporary⟩ (s.shareAll (s.container id).held)).2) := by
  have size := shareAll_size (s.container id).held s
  change (do
    Store.setAttribute (duplicate id s).1 "class" none
    pure (.vector (duplicate id s).1) : StoreM Value) (duplicate id s).2 = _
  have fresh := duplicate_copy id s
  unfold Store.setAttribute
  rw [bind_assoc, seq_apply, ensureWritable_apply, fresh]
  change (Except.ok (Value.vector (duplicate id s).1), (duplicate id s).2.modifyContainer (duplicate id s).1 _) = _
  rw [duplicate_apply]
  unfold Store.modifyContainer addVector
  dsimp only
  rw [← size, push_modify]
  rfl

theorem pairs_unclass (paired : args.Paired (s.Mirrors t) args') :
    Pairs Mirrors (unclass args) (unclass args') s t := by
  refine pairs_seq (pairs_required paired _ _) fun target target' s t _ _ mirrors => ?_
  cases target with
  | vector a =>
    obtain ⟨b, rfl⟩ := mirrors.eq_vector
    have classes := mirrors.explicitClass?
    change Option.Rel _ (s.classAttribute? a) (t.classAttribute? b) at classes
    have same : (s.classAttribute? a).isNone = (t.classAttribute? b).isNone := by
      generalize s.classAttribute? a = x, t.classAttribute? b = y at classes
      cases classes <;> rfl
    refine pairs_read ?_
    rw [same]
    split
    · exact pairs_pure mirrors
    · change Pairs Mirrors (classless a) (classless b) s t
      intro v s' run
      rw [classless_apply] at run
      cases run
      have old := shareAll_moves (R := Grown) (s.container a).held s
      have new := shareAll_moves (R := Grown) (t.container b).held t
      refine ⟨_, _, classless_apply b t, Chained.trans old (Owning.addVector _ _),
        Chained.trans new (Owning.addVector _ _), ?_⟩
      have made := Mirrors.made .temporary .temporary (mirrors.elements.imp fun mirrors => mirrors.mono old new)
        ((mirrors.attributes.erase "class").imp fun mirrors => mirrors.mono old new)
      have sizes := shareAll_size (s.container a).held s
      have sizes' := shareAll_size (t.container b).held t
      unfold addVector at made ⊢
      dsimp only at made ⊢
      rwa [sizes, sizes'] at made
  | _ =>
    obtain rfl := mirrors.plain_eq (by cases mirrors; assumption)
    exact pairs_pure mirrors

/-! Numbers. -/

theorem read_elements {v w : Value} (mirrors : s.Mirrors t v w) :
    Option.Rel (Elements.Paired (s.Mirrors t)) (v.vector?.map s.elements) (w.vector?.map t.elements) := by
  have vectors := mirrors.vector?
  generalize v.vector? = a, w.vector? = b at vectors
  cases vectors with
  | none => exact .none
  | some mirrors => exact .some mirrors.elements

theorem numbers_eq {v w : Value} (mirrors : s.Mirrors t v w) (op : Name) : numbers s v op = numbers t w op := by
  have elements := read_elements mirrors
  unfold numbers
  generalize v.vector?.map s.elements = x, w.vector?.map t.elements = y at elements
  cases elements with
  | none => rfl
  | some paired => cases paired <;> rfl

theorem required_rel (paired : args.Paired (s.Mirrors t) args') (name : Name) (position : Nat) :
    (∃ v w, args.required name position = .ok v ∧ args'.required name position = .ok w ∧ s.Mirrors t v w) ∨
      ∃ f, args.required name position = .error f ∧ args'.required name position = .error f := by
  have found := paired.get? Mirrors.isMissing name position
  unfold Arguments.required
  generalize args.get? name position = x, args'.get? name position = y at found
  cases found with
  | none => exact .inr ⟨_, rfl, rfl⟩
  | some mirrors => exact .inl ⟨_, _, rfl, rfl, mirrors⟩

theorem atomic_of_number (x : Numbers) : x.elements.isList = false := by
  cases x <;> rfl

theorem arithmetic_eq (op : Arithmetic) (paired : args.Paired (s.Mirrors t) args') :
    arithmetic op s args = arithmetic op t args' := by
  have second := paired.get? Mirrors.isMissing "e2" 1
  unfold arithmetic
  obtain ⟨v, w, first, first', mirrors⟩ | ⟨f, first, first'⟩ := required_rel paired "e1" 0
  · rw [first, first']
    dsimp only [bind, Except.bind]
    rw [numbers_eq mirrors]
    generalize args.get? "e2" 1 = x, args'.get? "e2" 1 = y at second
    cases second with
    | none => rfl
    | some mirrors' => simp only [numbers_eq mirrors']
  · rw [first, first']
    rfl

theorem atomic_of_arithmetic {op : Arithmetic} {xs : Elements} (run : arithmetic op s args = .ok xs) :
    xs.isList = false := by
  obtain ⟨v, _, run⟩ := ok_of_bind run
  obtain ⟨x, _, run⟩ := ok_of_bind run
  split at run
  · unfold unary at run
    split at run <;> cases run <;> first | rfl | exact atomic_of_number _
  · obtain ⟨y, _, run⟩ := ok_of_bind run
    cases run
    unfold binary
    split <;> rfl

theorem comparedStrings_eq {R : Value → Value → Prop} {xs ys : Elements} (paired : xs.Paired R ys) :
    comparedStrings xs = comparedStrings ys := by
  cases paired <;> rfl

theorem compare_eq (op : Comparison) (paired : args.Paired (s.Mirrors t) args') :
    compare op s args = compare op t args' := by
  unfold compare
  obtain ⟨v, w, first, first', mirrors⟩ | ⟨f, first, first'⟩ := required_rel paired "e1" 0
  · obtain ⟨v', w', second, second', mirrors'⟩ | ⟨f, second, second'⟩ := required_rel paired "e2" 1
    · rw [first, first', second, second']
      dsimp only [bind, Except.bind]
      rw [numbers_eq mirrors, numbers_eq mirrors']
      have left := read_elements mirrors
      have right := read_elements mirrors'
      unfold comparedAsText
      generalize v.vector?.map s.elements = a, w.vector?.map t.elements = b at left
      generalize v'.vector?.map s.elements = a', w'.vector?.map t.elements = b' at right
      cases left with
      | none => rfl
      | @some xs ys paired =>
        cases right with
        | none => rfl
        | @some xs' ys' paired' =>
          have strings {xs ys : Elements} (paired : xs.Paired (s.Mirrors t) ys) :
              xs.strings?.isSome = ys.strings?.isSome := by cases paired <;> rfl
          dsimp only
          rw [strings paired, strings paired']
          cases ys.strings?.isSome || ys'.strings?.isSome with
          | true => simp only [if_true, comparedStrings_eq paired, comparedStrings_eq paired']
          | false => rfl
    · rw [first, first', second, second']
      rfl
  · rw [first, first']
    rfl

theorem atomic_of_compare {op : Comparison} {xs : Elements} (run : compare op s args = .ok xs) :
    xs.isList = false := by
  obtain ⟨v, _, run⟩ := ok_of_bind run
  obtain ⟨w, _, run⟩ := ok_of_bind run
  dsimp only at run
  split at run
  · obtain ⟨_, _, run⟩ := ok_of_bind run
    obtain ⟨_, _, run⟩ := ok_of_bind run
    cases run
    rfl
  · obtain ⟨_, _, run⟩ := ok_of_bind run
    obtain ⟨_, _, run⟩ := ok_of_bind run
    cases run
    rfl

theorem negate_eq (paired : args.Paired (s.Mirrors t) args') : negate s args = negate t args' := by
  unfold negate
  obtain ⟨v, w, first, first', mirrors⟩ | ⟨f, first, first'⟩ := required_rel paired "x" 0
  · rw [first, first']
    dsimp only [bind, Except.bind]
    rw [numbers_eq mirrors]
  · rw [first, first']
    rfl

theorem atomic_of_negate {xs : Elements} (run : negate s args = .ok xs) : xs.isList = false := by
  obtain ⟨v, _, run⟩ := ok_of_bind run
  obtain ⟨x, _, run⟩ := ok_of_bind run
  split at run <;> cases run <;> rfl

theorem absolute_eq (paired : args.Paired (s.Mirrors t) args') : absolute s args = absolute t args' := by
  unfold absolute
  obtain ⟨v, w, first, first', mirrors⟩ | ⟨f, first, first'⟩ := required_rel paired "x" 0
  · rw [first, first']
    dsimp only [bind, Except.bind]
    rw [numbers_eq mirrors]
  · rw [first, first']
    rfl

theorem atomic_of_absolute {xs : Elements} (run : absolute s args = .ok xs) : xs.isList = false := by
  obtain ⟨v, _, run⟩ := ok_of_bind run
  obtain ⟨x, _, run⟩ := ok_of_bind run
  split at run
  · cases run
    split <;> rfl
  · cases run
    rfl

theorem summary_eq (op : Summary) (paired : args.Paired (s.Mirrors t) args') :
    summary op s args = summary op t args' := by
  have values : s.AllMirror t (args.values.filter (!·.isNull)) (args'.values.filter (!·.isNull)) :=
    List.rel_filter (fun _ _ mirrors => by simp [mirrors.isNull]) paired.values
  unfold summary
  generalize args.values.filter (!·.isNull) = vs, args'.values.filter (!·.isNull) = ws at values
  have parts : vs.mapM (fun v => numbers s v op.symbol) = ws.mapM fun v => numbers t v op.symbol := by
    induction values with
    | nil => rfl
    | cons here _ ih => rw [List.mapM_cons, List.mapM_cons, numbers_eq here, ih]
  rw [parts]

theorem atomic_of_summary {op : Summary} {xs : Elements} (run : summary op s args = .ok xs) :
    xs.isList = false := by
  obtain ⟨parts, _, run⟩ := ok_of_bind run
  cases run
  split <;> rfl

end Builtins
end CallByNeed
