import CallByNeed.Proofs.Frozen

/-!
Sharing states only move up, and what is shared is never written again, whatever is done to the objects
of a session: operations on single containers, evaluations at any depth, and all a host does. Every
literal of a program is permanent from its loading on, so evaluating it again gives the same vector
with the same elements and attributes.
-/
namespace CallByNeed

/-- No container has moved to a lower sharing state. -/
def Rising (l m : Ledger) : Prop :=
  ∀ id, (l.store.container id).sharing.rank ≤ (m.store.container id).sharing.rank

namespace Rising

theorem refl (l : Ledger) : Rising l l := fun _ => Nat.le_refl _

theorem of_same {s t : Store} (same : t.vectors = s.vectors) (n k : Nat) : Rising ⟨s, n⟩ ⟨t, k⟩ := by
  intro id
  unfold Store.container
  dsimp only
  rw [same]

theorem addVector (c : Container) (s : Store) (n : Nat) :
    Rising ⟨s, n⟩ ⟨(Store.addVector c s).2, n⟩ := by
  intro id
  dsimp only
  rw [Store.container_addVector]
  split
  · rename_i fresh
    rw [Store.container_outside (Nat.le_of_eq fresh.symm)]
    exact Nat.zero_le _
  · exact Nat.le_refl _

/-- A container changed to one of the same sharing state or above. -/
theorem change {f : Container → Container} {c : VectorId} {s : Store}
    (up : (s.container c).sharing.rank ≤ (f (s.container c)).sharing.rank) (n : Nat) :
    Rising ⟨s, n⟩ ⟨s.modifyContainer c f, n⟩ := by
  intro id
  dsimp only
  rw [Store.container_modify]
  split
  · rename_i found
    rw [found.1]
    exact up
  · exact Nat.le_refl _

theorem raise {f : Sharing → Sharing} (up : ∀ x, x.rank ≤ (f x).rank) (v : Value) (s : Store)
    (n : Nat) : Rising ⟨s, n⟩ ⟨s.setSharing f v, n⟩ := by
  cases v with
  | vector c => exact change (up _) n
  | _ => exact refl _

instance : Indifferent Rising where
  refl := refl
  trans first second id := Nat.le_trans (first id) (second id)
  evolution := {
    refl := fun _ _ => refl _
    trans := fun first second n id => Nat.le_trans (first n id) (second n id)
    addVector := addVector
    addDots := fun _ _ n => of_same rfl n n
    freshNode := fun _ n => of_same rfl n n
    closure := fun _ _ _ n => of_same rfl n n
    evaluatedPromise := fun _ _ _ _ n => of_same rfl n n
    lazyPromise := fun _ _ _ _ _ n => of_same rfl n n
    raise := fun _ up => raise up
    write := fun _ _ keeps _ _ _ n => change (Nat.le_of_eq (congrArg _ (keeps _).symm)) n }
  eagerPromise _ _ _ _ _ n := of_same rfl n n
  distrust site s n := of_same (Frozen.distrust_vectors site s) n n
  life _ _ _ n := of_same rfl n n
  uncounted _ := of_same rfl

end Rising

/-! Literals. -/

mutual

/-- The literals of an expression, each with its node. -/
def Expr.literals : Expr → List (NodeId × Value)
  | .constant id v => [(id, v)]
  | .symbol .. | .empty _ => []
  | .call _ f args => f.literals ++ Arg.allLiterals args
  | .function ⟨_, formals, body⟩ => Formal.allLiterals formals ++ body.literals
  | .block _ body => Expr.allLiterals body
  | .branch _ test yes no => test.literals ++ yes.literals ++ Expr.optionLiterals no
  | .assign _ target value _ => target.literals ++ value.literals

def Expr.allLiterals : List Expr → List (NodeId × Value)
  | [] => []
  | e :: rest => e.literals ++ Expr.allLiterals rest

def Expr.optionLiterals : Option Expr → List (NodeId × Value)
  | none => []
  | some e => e.literals

def Arg.allLiterals : List Arg → List (NodeId × Value)
  | [] => []
  | ⟨_, e⟩ :: rest => e.literals ++ Arg.allLiterals rest

def Formal.allLiterals : List Formal → List (NodeId × Value)
  | [] => []
  | ⟨_, default⟩ :: rest => Expr.optionLiterals default ++ Formal.allLiterals rest

end

namespace Store

variable {α β : Type} {s t : Store} {known : List (NodeId × Value)}

/-- A container that is permanent if it is there. -/
def Permanent (s : Store) (c : VectorId) : Prop :=
  c.index < s.vectors.size → (s.container c).sharing = .permanent

/-- Literals whose containers are permanent. -/
def Fixed (s : Store) (known : List (NodeId × Value)) : Prop :=
  ∀ node c, (node, .vector c) ∈ known → s.Permanent c

/-- Loading: what was permanent stays so, as does what is new, and given that the known literals are
permanent, those of the result are. -/
def Fixing (known : List (NodeId × Value)) (literals : α → List (NodeId × Value)) (m : StoreM α) :
    Prop :=
  ∀ s, s.Fixed known → (∀ c, s.Permanent c → (m s).2.Permanent c) ∧
    ∀ a, (m s).1 = .ok a → (m s).2.Fixed (literals a)

theorem fixing_pure {literals : α → List (NodeId × Value)} {a : α} (among : literals a ⊆ known) :
    Fixing known literals (pure a) := by
  intro s fixed
  refine ⟨fun _ => id, ?_⟩
  intro b answer node c member
  cases answer
  exact fixed node c (among member)

theorem fixing_seq {first : α → List (NodeId × Value)} {last : β → List (NodeId × Value)}
    {m : StoreM α} {f : α → StoreM β} (start : Fixing known first m)
    (rest : ∀ a, Fixing (known ++ first a) last (f a)) : Fixing known last (m >>= f) := by
  intro s fixed
  obtain ⟨keeps, results⟩ := start s fixed
  rw [seq_apply]
  rcases run : m s with ⟨e | a, t⟩
  · rw [run] at keeps
    exact ⟨keeps, fun _ answer => nomatch answer⟩
  · rw [run] at keeps results
    have known' : t.Fixed (known ++ first a) := by
      intro node c member
      rcases List.mem_append.mp member with old | new
      · exact keeps c (fixed node c old)
      · exact results a rfl node c new
    obtain ⟨keeps', results'⟩ := rest a t known'
    exact ⟨fun c permanent => keeps' c (keeps c permanent), results'⟩

theorem fixing_freshNode : Fixing known (fun _ => []) (liftM freshNode : StoreM NodeId) :=
  fun _ _ => ⟨fun _ => id, fun _ _ _ _ member => nomatch member⟩

theorem permanent_mark (v : Value) {c : VectorId} (permanent : v = .vector c ∨ s.Permanent c) :
    (s.markPermanent v).Permanent c := by
  cases v with
  | vector id =>
    intro inside
    change c.index < (s.vectors.modify id.index _).size at inside
    rw [Array.size_modify] at inside
    change ((s.modifyContainer id _).container c).sharing = _
    rw [container_modify]
    split
    · rfl
    · rename_i apart
      rcases permanent with same | permanent
      · cases same
        exact absurd ⟨rfl, inside⟩ apart
      · exact permanent inside
  | _ =>
    rcases permanent with same | permanent
    · cases same
    · exact permanent

end Store

open Store

theorem fixing_constantNode (known : List (NodeId × Value)) (v : Value) :
    Fixing known Expr.literals (constantNode v) := by
  intro s _
  refine ⟨fun c permanent => permanent_mark v (.inr permanent), ?_⟩
  intro e answer node c member
  cases answer
  cases List.mem_singleton.mp member
  exact permanent_mark _ (.inl rfl)

theorem fixing_literal (known : List (NodeId × Value)) (xs : Elements) :
    Fixing known Expr.literals (do constantNode (← Store.vector xs)) := by
  intro s _
  have kept (c : VectorId) (permanent : s.Permanent c) :
      ((Store.vector xs s).2.markPermanent (.vector ⟨s.vectors.size⟩)).Permanent c := by
    by_cases fresh : c.index = s.vectors.size
    · exact permanent_mark _ (.inl (by rw [← fresh]))
    · refine permanent_mark _ (.inr fun inside => ?_)
      have before : c.index < s.vectors.size := by
        change c.index < (s.vectors.push _).size at inside
        rw [Array.size_push] at inside
        omega
      change ((addVector _ s).2.container c).sharing = _
      rw [container_addVector, if_neg fresh]
      exact permanent before
  refine ⟨kept, ?_⟩
  intro e answer node c member
  cases answer
  cases List.mem_singleton.mp member
  exact permanent_mark _ (.inl rfl)

theorem fixing_functionNode {known : List (NodeId × Value)} {formals : List Formal} {body : Expr}
    (among : Formal.allLiterals formals ++ body.literals ⊆ known) :
    Fixing known Expr.literals (functionNode formals body) := by
  unfold functionNode
  split
  · intro s fixed
    exact ⟨fun _ => id, fun _ answer => nomatch answer⟩
  · refine fixing_seq fixing_freshNode fun _ => fixing_pure ?_
    rw [Expr.literals]
    simpa using among

mutual

/-- Every literal of a program is permanent once the program is loaded. -/
theorem fixing_load (known : List (NodeId × Value)) (e : Source) :
    Fixing known Expr.literals e.load := by
  cases e with
  | null => exact fixing_constantNode _ _
  | logical b => exact fixing_literal _ _
  | integer n => exact fixing_literal _ _
  | double x => exact fixing_literal _ _
  | text t => exact fixing_literal _ _
  | literal v => exact fixing_constantNode _ v
  | symbol name =>
    exact fixing_seq fixing_freshNode fun _ => fixing_pure (List.nil_subset _)
  | empty =>
    rw [Source.load]
    exact fixing_seq fixing_freshNode fun _ => fixing_pure (List.nil_subset _)
  | call f args =>
    rw [Source.load]
    refine fixing_seq (fixing_load _ f) fun _ => fixing_seq (fixing_loadArgs _ args) fun _ =>
      fixing_seq fixing_freshNode fun _ => fixing_pure ?_
    rw [Expr.literals]
    simp
  | function formals body =>
    rw [Source.load]
    refine fixing_seq (fixing_loadFormals _ formals) fun _ => fixing_seq (fixing_load _ body) fun _ =>
      fixing_functionNode ?_
    simp
  | block body =>
    rw [Source.load]
    refine fixing_seq (fixing_loadAll _ body) fun _ => fixing_seq fixing_freshNode fun _ =>
      fixing_pure ?_
    rw [Expr.literals]
    simp
  | branch test yes no =>
    rw [Source.load]
    refine fixing_seq (fixing_load _ test) fun _ => fixing_seq (fixing_load _ yes) fun _ =>
      fixing_seq (fixing_loadOption _ no) fun _ => fixing_seq fixing_freshNode fun _ =>
        fixing_pure ?_
    rw [Expr.literals]
    simp
  | assign target value outer =>
    rw [Source.load]
    refine fixing_seq (fixing_load _ target) fun _ => fixing_seq (fixing_load _ value) fun _ =>
      fixing_seq fixing_freshNode fun _ => fixing_pure ?_
    rw [Expr.literals]
    simp

theorem fixing_loadAll (known : List (NodeId × Value)) (body : List Source) :
    Fixing known Expr.allLiterals (Source.loadAll body) := by
  cases body with
  | nil => exact fixing_pure (List.nil_subset _)
  | cons e rest =>
    rw [Source.loadAll]
    refine fixing_seq (fixing_load _ e) fun _ => fixing_seq (fixing_loadAll _ rest) fun _ =>
      fixing_pure ?_
    rw [Expr.allLiterals]
    simp

theorem fixing_loadOption (known : List (NodeId × Value)) (e : Option Source) :
    Fixing known Expr.optionLiterals (Source.loadOption e) := by
  cases e with
  | none => exact fixing_pure (List.nil_subset _)
  | some e =>
    rw [Source.loadOption]
    refine fixing_seq (fixing_load _ e) fun _ => fixing_pure ?_
    rw [Expr.optionLiterals]
    simp

theorem fixing_loadArgs (known : List (NodeId × Value)) (args : List SourceArg) :
    Fixing known Arg.allLiterals (SourceArg.loadAll args) := by
  cases args with
  | nil => exact fixing_pure (List.nil_subset _)
  | cons a rest =>
    obtain ⟨name, e⟩ := a
    rw [SourceArg.loadAll]
    refine fixing_seq (fixing_load _ e) fun _ => fixing_seq (fixing_loadArgs _ rest) fun _ =>
      fixing_pure ?_
    rw [Arg.allLiterals]
    simp

theorem fixing_loadFormals (known : List (NodeId × Value)) (formals : List SourceFormal) :
    Fixing known Formal.allLiterals (SourceFormal.loadAll formals) := by
  cases formals with
  | nil => exact fixing_pure (List.nil_subset _)
  | cons formal rest =>
    obtain ⟨name, default⟩ := formal
    rw [SourceFormal.loadAll]
    refine fixing_seq (fixing_loadOption _ default) fun _ =>
      fixing_seq (fixing_loadFormals _ rest) fun _ => fixing_pure ?_
    rw [Formal.allLiterals]
    simp

end

/-! Runs of operations on objects. -/

namespace Store

theorem modifyContainer_congr {f g : Container → Container} {id : VectorId} {s : Store}
    (same : f (s.container id) = g (s.container id)) :
    s.modifyContainer id f = s.modifyContainer id g := by
  unfold modifyContainer
  congr 1
  apply Array.ext_getElem?
  intro i
  rw [Array.getElem?_modify, Array.getElem?_modify]
  split
  · rename_i here
    rw [← here]
    unfold container at same
    cases found : s.vectors[id.index]? with
    | none => rfl
    | some c => simpa [found] using same
  · rfl

theorem moves_transition {R : Store → Store → Prop} [Owning R] (id : VectorId) (state : Sharing) :
    Moves R (transition id state) := by
  intro s
  let f (x : Sharing) : Sharing := if state.rank < x.rank then x else state
  have up (x : Sharing) : x.rank ≤ (f x).rank := by
    simp only [f]
    split <;> omega
  unfold transition
  rw [read_apply]
  split
  · exact Chained.refl s
  · rename_i above
    have raised := Owning.raise (R := R) f up (.vector id) s
    have same : s.setSharing f (.vector id) =
        s.modifyContainer id fun c => { c with sharing := state } := by
      refine modifyContainer_congr ?_
      simp only [f]
      rw [if_neg above]
    rw [same] at raised
    exact raised

/-- A container that refuses every in-place write, without any change. -/
def Refuses (s : Store) (id : VectorId) : Prop :=
  let refusal : Failure := .internal s!"in-place write to a {(s.container id).sharing.name} container"
  (∀ i v, setElement id i v s = (.error refusal, s)) ∧
    ∀ name v, setAttribute id name v s = (.error refusal, s)

theorem refuses_of_shared {s : Store} {id : VectorId} (shared : (s.container id).sharing.isShared) :
    s.Refuses id := by
  constructor
  · intro i v
    unfold setElement
    rw [seq_apply, ensureWritable_apply, if_pos shared]
  · intro name v
    unfold setAttribute
    rw [seq_apply, ensureWritable_apply, if_pos shared]

end Store

namespace Session

/-- One thing done to the objects of a session: an operation on a container, an evaluation to any
depth, or anything a host does. -/
inductive ObjectStep : Session → Session → Prop
  | share (v : Value) (s : Session) : ObjectStep s { s with store := s.store.share v }
  | markPermanent (v : Value) (s : Session) : ObjectStep s { s with store := s.store.markPermanent v }
  | adjustChild (owner child : Value) (s : Session) :
    ObjectStep s { s with store := s.store.adjustChild owner child }
  | transition (id : VectorId) (state : Sharing) (s : Session) :
    ObjectStep s { s with store := (Store.transition id state s.store).2 }
  | duplicate (id : VectorId) (s : Session) :
    ObjectStep s { s with store := (Store.duplicate id s.store).2 }
  | makeMutable (id : VectorId) (s : Session) :
    ObjectStep s { s with store := (Store.makeMutable id s.store).2 }
  | element (id : VectorId) (i : Nat) (s : Session) :
    ObjectStep s { s with store := (Store.element id i s.store).2 }
  | setElement (id : VectorId) (i : Nat) (v : Value) (s : Session) :
    ObjectStep s { s with store := (Store.setElement id i v s.store).2 }
  | setAttribute (id : VectorId) (name : Name) (v : Option Value) (s : Session) :
    ObjectStep s { s with store := (Store.setAttribute id name v s.store).2 }
  | evaluate (depth : Nat) (e : Expr) (env : EnvId) (caller : RecordId) (s : Session) :
    ObjectStep s (eval depth e env caller s).2
  | host {s t : Session} (step : HostStep s t) : ObjectStep s t

abbrev ObjectRun : Session → Session → Prop := Relation.ReflTransGen ObjectStep

variable {R : Ledger → Ledger → Prop} [Lawful R]

theorem keeps_objectStep {s t : Session} (step : ObjectStep s t) : R s.ledger t.ledger := by
  cases step with
  | share v => exact Store.share_moves (R := (Lawful.law R).Grows) v s.store _
  | markPermanent v => exact Store.markPermanent_moves (R := (Lawful.law R).Grows) v s.store _
  | adjustChild owner child =>
    exact Store.adjustChild_moves (R := (Lawful.law R).Grows) owner child s.store _
  | transition id state => exact Store.moves_transition (R := (Lawful.law R).Grows) id state s.store _
  | duplicate id => exact Store.moves_duplicate (R := (Lawful.law R).Grows) id s.store _
  | makeMutable id => exact Store.moves_makeMutable (R := (Lawful.law R).Grows) id s.store _
  | element id i => exact Store.moves_element (R := (Lawful.law R).Grows) id i s.store _
  | setElement id i v =>
    exact Store.moves_setElement (R := (Lawful.law R).Grows) (Store.Evolution.write id) i v s.store _
  | setAttribute id name v =>
    exact Store.moves_setAttribute (R := (Lawful.law R).Grows) (Store.Evolution.write id) name v
      s.store _
  | evaluate depth e env caller => exact keeps_eval depth e env caller s
  | host step => exact keeps_hostStep step

theorem keeps_objectRun {s t : Session} (run : ObjectRun s t) : R s.ledger t.ledger := by
  induction run with
  | refl => exact Lasting.refl _
  | tail _ step ih => exact Lasting.trans ih (keeps_objectStep step)

/-- The session in which a program was loaded. -/
def loaded (s : Session) (code : Source) : Session := { s with store := (code.load s.store).2 }

theorem literal_agrees {r s t : Session} {code : Source} {e : Expr}
    (read : (code.load r.store).1 = .ok e) (before : ObjectRun (r.loaded code) s)
    (run : ObjectRun s t) {node : NodeId} {c : VectorId} (literal : (node, .vector c) ∈ e.literals)
    (there : c.index < (r.loaded code).store.vectors.size) : s.store.Agrees t.store c := by
  have permanent : ((r.loaded code).store.container c).sharing = .permanent :=
    (fixing_load [] code r.store nofun).2 e read node c literal there
  have still : (s.store.container c).sharing.isShared :=
    ((keeps_objectRun before : Frozen _ _) c (by
      change ((r.loaded code).store.container c).sharing.isShared = true
      rw [permanent]
      rfl)).1
  exact ((keeps_objectRun run : Frozen _ _) c still).2

/-- Whatever is done to the objects of a session, no sharing state moves down, a shared container keeps
its data and attributes and refuses every write, and a literal that was loaded before evaluates to the
same vector, with the same elements and attributes, at both ends. -/
theorem shared_containers_never_change {s t : Session} (run : ObjectRun s t) :
    (∀ id, (s.store.container id).sharing.rank ≤ (t.store.container id).sharing.rank) ∧
    (∀ id, (s.store.container id).sharing.isShared →
      s.store.Agrees t.store id ∧ s.store.Refuses id ∧ t.store.Refuses id) ∧
    ∀ (r : Session) (code : Source) (e : Expr), (code.load r.store).1 = .ok e →
      ObjectRun (r.loaded code) s → ∀ node v, (node, v) ∈ e.literals →
        (∀ depth env caller,
          eval (depth + 1) (.constant node v) env caller s = (.ok v, s) ∧
            eval (depth + 1) (.constant node v) env caller t = (.ok v, t)) ∧
        ∀ c, v = .vector c → c.index < (r.loaded code).store.vectors.size →
          s.store.Agrees t.store c := by
  have rising : Rising s.ledger t.ledger := keeps_objectRun run
  have frozen : Frozen s.ledger t.ledger := keeps_objectRun run
  refine ⟨rising, ?_, ?_⟩
  · intro id shared
    obtain ⟨still, agrees⟩ := frozen id shared
    exact ⟨agrees, Store.refuses_of_shared shared, Store.refuses_of_shared still⟩
  · intro r code e read before node v literal
    refine ⟨fun _ _ _ => ⟨rfl, rfl⟩, ?_⟩
    intro c same there
    rw [same] at literal
    exact literal_agrees read before run literal there

set_option maxRecDepth 10000 in
/-- A literal that a variable is bound to, while an element of the variable is replaced and the literal
itself is written to. -/
theorem replaced_literal_stays :
    let s := (start {}).loaded (.integer 1)
    let literal : Expr := .constant ⟨0⟩ (.vector ⟨10⟩)
    let x : Expr := .symbol ⟨1⟩ "x"
    let element : Expr := .call ⟨3⟩ (.symbol ⟨2⟩ "[[") [⟨none, x⟩, ⟨none, literal⟩]
    let other : Expr := .call ⟨5⟩ (.symbol ⟨4⟩ "-") [⟨none, literal⟩]
    let bound := (evalIn (.assign ⟨6⟩ x literal false) global s).2
    let replaced := (evalIn (.assign ⟨7⟩ element other false) global bound).2
    let t := { replaced with store := (Store.setElement ⟨10⟩ 0 .null replaced.store).2 }
    ObjectRun s t ∧ (s.store.container ⟨10⟩).sharing.isShared ∧
      t.store.elements ⟨10⟩ = .integer [1] ∧ t.store.Refuses ⟨10⟩ ∧
      eval 1 literal global ⟨0⟩ t = (.ok (.vector ⟨10⟩), t) ∧ s.store.Agrees t.store ⟨10⟩ := by
  intro s literal x element other bound replaced t
  have run : ObjectRun s t :=
    ((Relation.ReflTransGen.single (.host (.evalIn _ _ _))).tail (.host (.evalIn _ _ _))).tail
      (.setElement ⟨10⟩ 0 .null replaced)
  have shared : (s.store.container ⟨10⟩).sharing.isShared := rfl
  obtain ⟨_, frozen, literals⟩ := shared_containers_never_change run
  obtain ⟨agrees, _, refuses⟩ := frozen ⟨10⟩ shared
  obtain ⟨evaluated, kept⟩ := literals (start {}) (.integer 1) literal rfl .refl ⟨0⟩ (.vector ⟨10⟩)
    (List.mem_singleton.mpr rfl)
  exact ⟨run, shared, agrees.1, refuses, (evaluated 0 global ⟨0⟩).2,
    kept ⟨10⟩ rfl (by decide +kernel)⟩

end Session
end CallByNeed
