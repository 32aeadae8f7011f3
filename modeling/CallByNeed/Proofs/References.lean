import CallByNeed.Proofs.Handling

/-!
The frames and builtins that code and values refer to. A scope says which of them are there; code and
values within a scope refer to no others in any of their parts. A store is within a scope if all its
objects are.
-/
namespace CallByNeed

/-- A frame or a builtin that code or a value refers to. -/
inductive Reference where
  | frame (env : EnvId)
  | builtin (id : Nat)

mutual

/-- What running a value may come to. An environment that is a value itself is only shown. -/
def Value.references : Value → List Reference
  | .null | .missing | .vector _ | .promise _ | .environment _ | .dots _ => []
  | .closure _ f env => .frame env :: f.references
  | .builtin _ id => [.builtin id]
  | .language e => e.references

def Function.references : Function → List Reference
  | ⟨_, formals, body⟩ => Formal.allReferences formals ++ body.references

def Expr.references : Expr → List Reference
  | .constant _ v => v.references
  | .symbol .. | .empty _ => []
  | .call _ f args => f.references ++ Arg.allReferences args
  | .function f => f.references
  | .block _ body => Expr.allReferences body
  | .branch _ test yes no => test.references ++ yes.references ++ Expr.optionReferences no
  | .assign _ target value _ => target.references ++ value.references

def Expr.allReferences : List Expr → List Reference
  | [] => []
  | e :: rest => e.references ++ Expr.allReferences rest

def Expr.optionReferences : Option Expr → List Reference
  | none => []
  | some e => e.references

def Arg.allReferences : List Arg → List Reference
  | [] => []
  | ⟨_, e⟩ :: rest => e.references ++ Arg.allReferences rest

def Formal.allReferences : List Formal → List Reference
  | [] => []
  | ⟨_, default⟩ :: rest => Expr.optionReferences default ++ Formal.allReferences rest

end

mutual

def Source.references : Source → List Reference
  | .null | .logical _ | .integer _ | .double _ | .text _ | .symbol _ | .empty => []
  | .literal v => v.references
  | .call f args => f.references ++ SourceArg.allReferences args
  | .function formals body => SourceFormal.allReferences formals ++ body.references
  | .block body => Source.allReferences body
  | .branch test yes no => test.references ++ yes.references ++ Source.optionReferences no
  | .assign target value _ => target.references ++ value.references

def Source.allReferences : List Source → List Reference
  | [] => []
  | e :: rest => e.references ++ Source.allReferences rest

def Source.optionReferences : Option Source → List Reference
  | none => []
  | some e => e.references

def SourceArg.allReferences : List SourceArg → List Reference
  | [] => []
  | ⟨_, e⟩ :: rest => e.references ++ SourceArg.allReferences rest

def SourceFormal.allReferences : List SourceFormal → List Reference
  | [] => []
  | ⟨_, default⟩ :: rest => Source.optionReferences default ++ SourceFormal.allReferences rest

end

/-- The frames and builtins that are there. -/
structure Scope where
  frame : EnvId → Prop
  builtin : Nat → Prop

namespace Scope

variable (S : Scope)

def Has : Reference → Prop
  | .frame env => S.frame env
  | .builtin id => S.builtin id

def Covers (v : Value) : Prop := ∀ r ∈ v.references, S.Has r

/-- Code that refers only to what is there. -/
def Spans (e : Expr) : Prop := ∀ r ∈ e.references, S.Has r

def CoversAll (vs : List Value) : Prop := ∀ v ∈ vs, S.Covers v

def CoversAny (v : Option Value) : Prop := ∀ w, v = some w → S.Covers w

/-- All that is in one scope is in another. -/
def Within (T : Scope) : Prop := ∀ r, S.Has r → T.Has r

structure AllowsPromise (p : Promise) : Prop where
  expr : S.Spans p.expr
  env : ∀ env, p.state.env? = some env → S.frame env
  value : S.CoversAny p.state.value?
  eager : S.CoversAny (p.eager.map (·.value))

end Scope

/-- All objects refer only to what is in a scope. -/
structure Store.Within (S : Scope) (s : Store) : Prop where
  vectors : ∀ c ∈ s.vectors, S.CoversAll c.held
  promises : ∀ p ∈ s.promises, S.AllowsPromise p
  dots : ∀ d ∈ s.dots, S.CoversAll d.values

namespace Scope

variable {S T : Scope}

attribute [local simp] Value.references Function.references Expr.references Expr.allReferences
  Expr.optionReferences Arg.allReferences Formal.allReferences

theorem Within.trans {U : Scope} (first : S.Within T) (second : T.Within U) : S.Within U :=
  fun r has => second r (first r has)

theorem Covers.mono {v : Value} (ok : S.Covers v) (wider : S.Within T) : T.Covers v :=
  fun r member => wider r (ok r member)

theorem Spans.mono {e : Expr} (ok : S.Spans e) (wider : S.Within T) : T.Spans e :=
  fun r member => wider r (ok r member)

theorem CoversAll.mono {vs : List Value} (ok : S.CoversAll vs) (wider : S.Within T) : T.CoversAll vs :=
  fun v member => (ok v member).mono wider

theorem CoversAny.mono {v : Option Value} (ok : S.CoversAny v) (wider : S.Within T) : T.CoversAny v :=
  fun w same => (ok w same).mono wider

theorem AllowsPromise.mono {p : Promise} (ok : S.AllowsPromise p) (wider : S.Within T) :
    T.AllowsPromise p :=
  ⟨ok.expr.mono wider, fun env same => wider (.frame env) (ok.env env same), ok.value.mono wider,
    ok.eager.mono wider⟩

/-! Values. -/

theorem covers_null : S.Covers .null := List.forall_mem_nil _

theorem covers_missing : S.Covers .missing := List.forall_mem_nil _

theorem covers_vector (id : VectorId) : S.Covers (.vector id) := List.forall_mem_nil _

theorem covers_promise (id : PromiseId) : S.Covers (.promise id) := List.forall_mem_nil _

theorem covers_environment (env : EnvId) : S.Covers (.environment env) := List.forall_mem_nil _

theorem covers_dots (id : DotsId) : S.Covers (.dots id) := List.forall_mem_nil _

theorem covers_builtin {name : Name} {id : Nat} : S.Covers (.builtin name id) ↔ S.builtin id :=
  List.forall_mem_singleton (p := S.Has)

theorem covers_language {e : Expr} : S.Covers (.language e) ↔ S.Spans e := Iff.rfl

theorem covers_closure {id : ClosureId} {f : Function} {env : EnvId} :
    S.Covers (.closure id f env) ↔ S.frame env ∧ S.Spans (.function f) := by
  unfold Covers Spans
  rw [Value.references, Expr.references, List.forall_mem_cons]
  exact Iff.rfl

theorem coversAll_nil : S.CoversAll [] := nofun

theorem coversAll_cons {v : Value} {vs : List Value} :
    S.CoversAll (v :: vs) ↔ S.Covers v ∧ S.CoversAll vs := List.forall_mem_cons

theorem coversAll_append {vs ws : List Value} :
    S.CoversAll (vs ++ ws) ↔ S.CoversAll vs ∧ S.CoversAll ws := List.forall_mem_append

theorem CoversAny.getD {v : Option Value} {d : Value} (ok : S.CoversAny v) (default : S.Covers d) :
    S.Covers (v.getD d) := by
  cases v with
  | none => exact default
  | some w => exact ok w rfl

/-! Code is within a scope with all its parts. -/

theorem spans_symbol (id : NodeId) (name : Name) : S.Spans (.symbol id name) := List.forall_mem_nil _

theorem spans_empty (id : NodeId) : S.Spans (.empty id) := List.forall_mem_nil _

theorem spans_constant {id : NodeId} {v : Value} : S.Spans (.constant id v) ↔ S.Covers v := Iff.rfl

theorem forall_argReferences {p : Reference → Prop} {args : List Arg} :
    (∀ r ∈ Arg.allReferences args, p r) ↔ ∀ a ∈ args, ∀ r ∈ a.value.references, p r := by
  induction args with
  | nil => simp
  | cons a rest ih =>
    obtain ⟨name, e⟩ := a
    rw [Arg.allReferences, List.forall_mem_append, List.forall_mem_cons, ih]

theorem forall_exprReferences {p : Reference → Prop} {es : List Expr} :
    (∀ r ∈ Expr.allReferences es, p r) ↔ ∀ e ∈ es, ∀ r ∈ e.references, p r := by
  induction es with
  | nil => simp
  | cons e rest ih => rw [Expr.allReferences, List.forall_mem_append, List.forall_mem_cons, ih]

theorem forall_optionReferences {p : Reference → Prop} {e : Option Expr} :
    (∀ r ∈ Expr.optionReferences e, p r) ↔ ∀ d, e = some d → ∀ r ∈ d.references, p r := by
  cases e with
  | none => simp
  | some e => simp

theorem forall_formalReferences {p : Reference → Prop} {formals : List Formal} :
    (∀ r ∈ Formal.allReferences formals, p r) ↔
      ∀ f ∈ formals, ∀ e, f.default = some e → ∀ r ∈ e.references, p r := by
  induction formals with
  | nil => simp
  | cons f rest ih =>
    obtain ⟨name, default⟩ := f
    rw [Formal.allReferences, List.forall_mem_append, List.forall_mem_cons, ih, forall_optionReferences]

theorem spans_function {f : Function} : S.Spans (.function f) ↔
    (∀ formal ∈ f.formals, ∀ e, formal.default = some e → S.Spans e) ∧ S.Spans f.body := by
  obtain ⟨node, formals, body⟩ := f
  unfold Spans
  rw [Expr.references, Function.references, List.forall_mem_append, forall_formalReferences]

theorem spans_call {id : NodeId} {f : Expr} {args : List Arg} :
    S.Spans (.call id f args) ↔ S.Spans f ∧ ∀ a ∈ args, S.Spans a.value := by
  unfold Spans
  rw [Expr.references, List.forall_mem_append, forall_argReferences]

theorem spans_block {id : NodeId} {body : List Expr} :
    S.Spans (.block id body) ↔ ∀ e ∈ body, S.Spans e := by
  unfold Spans
  rw [Expr.references, forall_exprReferences]

theorem spans_branch {id : NodeId} {test yes : Expr} {no : Option Expr} :
    S.Spans (.branch id test yes no) ↔
      S.Spans test ∧ S.Spans yes ∧ ∀ e, no = some e → S.Spans e := by
  unfold Spans
  rw [Expr.references, List.forall_mem_append, List.forall_mem_append, and_assoc,
    forall_optionReferences]

theorem spans_assign {id : NodeId} {target value : Expr} {outer : Bool} :
    S.Spans (.assign id target value outer) ↔ S.Spans target ∧ S.Spans value := by
  unfold Spans
  rw [Expr.references, List.forall_mem_append]

theorem Spans.ofConstant {e : Expr} {v : Value} (ok : S.Spans e) (constant : e.constant? = some v) :
    S.Covers v := by
  cases e with
  | constant id w =>
    cases constant
    exact spans_constant.mp ok
  | _ => cases constant

end Scope

namespace Store.Within

variable {S T : Scope} {s : Store}

theorem mono (within : s.Within S) (wider : S.Within T) : s.Within T :=
  ⟨fun c member => Scope.CoversAll.mono (within.vectors c member) wider,
    fun p member => (within.promises p member).mono wider,
    fun d member => Scope.CoversAll.mono (within.dots d member) wider⟩

theorem container (within : s.Within S) (id : VectorId) : S.CoversAll (s.container id).held := by
  unfold Store.container
  cases found : s.vectors[id.index]? with
  | none => exact nofun
  | some c => exact within.vectors c (Array.mem_of_getElem? found)

theorem children (within : s.Within S) (id : VectorId) : S.CoversAll (s.elements id).children :=
  fun v member => within.container id v (List.mem_append_left _ member)

theorem attributes (within : s.Within S) (id : VectorId) :
    S.CoversAll (s.container id).attributes.values :=
  fun v member => within.container id v (List.mem_append_right _ member)

theorem promise (within : s.Within S) (id : PromiseId) : S.AllowsPromise (s.promise id) := by
  unfold Store.promise
  cases found : s.promises[id.index]? with
  | none =>
    refine ⟨Scope.spans_empty _, nofun, fun v same => ?_, nofun⟩
    cases same
    exact Scope.covers_null
  | some p => exact within.promises p (Array.mem_of_getElem? found)

theorem dotsAt (within : s.Within S) (id : DotsId) : S.CoversAll (s.dotsAt id).values := by
  unfold Store.dotsAt
  cases found : s.dots[id.index]? with
  | none => exact nofun
  | some d => exact within.dots d (Array.mem_of_getElem? found)

theorem addPromise {p : Promise} (within : s.Within S) (ok : S.AllowsPromise p) :
    (Store.addPromise p s).2.Within S := by
  refine ⟨within.vectors, fun q member => ?_, within.dots⟩
  rcases Array.mem_push.mp member with old | rfl
  · exact within.promises q old
  · exact ok

theorem addDots {d : Dots} (within : s.Within S) (ok : S.CoversAll d.values) :
    (Store.addDots d s).2.Within S := by
  refine ⟨within.vectors, within.promises, fun e member => ?_⟩
  rcases Array.mem_push.mp member with old | rfl
  · exact within.dots e old
  · exact ok

theorem modifyPromise {f : Promise → Promise} (within : s.Within S)
    (ok : ∀ p, S.AllowsPromise p → S.AllowsPromise (f p)) (id : PromiseId) :
    (s.modifyPromise id f).Within S := by
  refine ⟨within.vectors, fun q member => ?_, within.dots⟩
  obtain ⟨i, found⟩ := Array.mem_iff_getElem?.mp member
  change (s.promises.modify id.index f)[i]? = some q at found
  rw [Array.getElem?_modify] at found
  split at found
  · obtain ⟨p, there, rfl⟩ := Option.map_eq_some_iff.mp found
    exact ok p (within.promises p (Array.mem_of_getElem? there))
  · exact within.promises q (Array.mem_of_getElem? found)

theorem modifyContainer {f : Container → Container} {id : VectorId} (within : s.Within S)
    (ok : S.CoversAll (f (s.container id)).held) : (s.modifyContainer id f).Within S := by
  refine ⟨fun c member => ?_, within.promises, within.dots⟩
  obtain ⟨i, found⟩ := Array.mem_iff_getElem?.mp member
  change (s.vectors.modify id.index f)[i]? = some c at found
  rw [Array.getElem?_modify] at found
  split at found
  · rename_i same
    obtain ⟨old, there, rfl⟩ := Option.map_eq_some_iff.mp found
    unfold Store.container at ok
    rw [same, there] at ok
    exact ok
  · exact within.vectors c (Array.mem_of_getElem? found)

theorem setSharing (within : s.Within S) (f : Sharing → Sharing) (v : Value) :
    (s.setSharing f v).Within S := by
  cases v with
  | vector id => exact within.modifyContainer (within.container id)
  | _ => exact within

end Store.Within
end CallByNeed
