import CallByNeed.Interpreter

/-!
What code and values refer to: vectors, promises, builtins and names. An ambit says which of these may
be mentioned; code and values within it are allowed with all their parts.
-/
namespace CallByNeed

/-- What code or a value refers to. -/
inductive Mention where
  | vector (id : VectorId)
  | promise (id : PromiseId)
  | builtin (id : Nat)
  | symbol (name : Name)

mutual

def Value.mentions : Value → List Mention
  | .null | .missing | .environment _ | .dots _ => []
  | .vector id => [.vector id]
  | .closure _ f _ => f.mentions
  | .builtin _ id => [.builtin id]
  | .promise id => [.promise id]
  | .language e => e.mentions

def Function.mentions : Function → List Mention
  | ⟨_, formals, body⟩ => Formal.allMentions formals ++ body.mentions

def Expr.mentions : Expr → List Mention
  | .constant _ v => v.mentions
  | .symbol _ name => [.symbol name]
  | .empty _ => []
  | .call _ f args => f.mentions ++ Arg.allMentions args
  | .function f => f.mentions
  | .block _ body => Expr.allMentions body
  | .branch _ test yes no => test.mentions ++ yes.mentions ++ Expr.optionMentions no
  | .assign _ target value _ => target.mentions ++ value.mentions

def Expr.allMentions : List Expr → List Mention
  | [] => []
  | e :: rest => e.mentions ++ Expr.allMentions rest

def Expr.optionMentions : Option Expr → List Mention
  | none => []
  | some e => e.mentions

def Arg.allMentions : List Arg → List Mention
  | [] => []
  | ⟨_, e⟩ :: rest => e.mentions ++ Arg.allMentions rest

def Formal.allMentions : List Formal → List Mention
  | [] => []
  | ⟨_, default⟩ :: rest => Expr.optionMentions default ++ Formal.allMentions rest

end

mutual

def Source.mentions : Source → List Mention
  | .null | .logical _ | .integer _ | .double _ | .text _ | .empty => []
  | .literal v => v.mentions
  | .symbol name => [.symbol name]
  | .call f args => f.mentions ++ SourceArg.allMentions args
  | .function formals body => SourceFormal.allMentions formals ++ body.mentions
  | .block body => Source.allMentions body
  | .branch test yes no => test.mentions ++ yes.mentions ++ Source.optionMentions no
  | .assign target value _ => target.mentions ++ value.mentions

def Source.allMentions : List Source → List Mention
  | [] => []
  | e :: rest => e.mentions ++ Source.allMentions rest

def Source.optionMentions : Option Source → List Mention
  | none => []
  | some e => e.mentions

def SourceArg.allMentions : List SourceArg → List Mention
  | [] => []
  | ⟨_, e⟩ :: rest => e.mentions ++ SourceArg.allMentions rest

def SourceFormal.allMentions : List SourceFormal → List Mention
  | [] => []
  | ⟨_, default⟩ :: rest => Source.optionMentions default ++ SourceFormal.allMentions rest

end

/-- Which mentions are allowed, and which writes in place. Names of methods and of replacement functions
always are. -/
structure Ambit where
  /-- Whether a vector that is mentioned has to exist. -/
  closed : Prop
  promise : PromiseId → Prop
  builtin : Nat → Prop
  symbol : Name → Prop
  varargs : symbol Name.varargs
  method : ∀ generic className : Name, symbol (generic ++ "." ++ className)
  setter : ∀ name : Name, symbol (name ++ "<-")
  /-- Whether a write may lead from vectors to others. -/
  write : Array Container → Array Container → Prop := fun _ _ => True

namespace Ambit

variable (A : Ambit) {n k : Nat}

/-- Every write is allowed. -/
def Lax : Prop := ∀ vs ws, A.write vs ws

/-- Whether a mention is allowed where there are so many vectors. -/
def Allows (n : Nat) : Mention → Prop
  | .vector id => A.closed → id.index < n
  | .promise id => A.promise id
  | .builtin id => A.builtin id
  | .symbol name => A.symbol name

/-- A value all of whose mentions are allowed. -/
def Admits (n : Nat) (v : Value) : Prop := ∀ m ∈ v.mentions, A.Allows n m

/-- Code all of whose mentions are allowed. -/
def Reads (n : Nat) (e : Expr) : Prop := ∀ m ∈ e.mentions, A.Allows n m

def AdmitsAll (n : Nat) (vs : List Value) : Prop := ∀ v ∈ vs, A.Admits n v

def AdmitsAny (n : Nat) (v : Option Value) : Prop := ∀ w, v = some w → A.Admits n w

/-- Every promise may be mentioned. -/
def Free : Prop := ∀ id, A.promise id

/-- A value that is admitted where every promise is. -/
def AdmitsFreely (n : Nat) (v : Value) : Prop := A.Free → A.Admits n v

variable {A}

theorem Allows.mono {m : Mention} (allowed : A.Allows n m) (le : n ≤ k) : A.Allows k m := by
  cases m with
  | vector id => exact fun closed => Nat.lt_of_lt_of_le (allowed closed) le
  | promise id | builtin id | symbol name => exact allowed

theorem Admits.mono {v : Value} (ok : A.Admits n v) (le : n ≤ k) : A.Admits k v :=
  fun m mentioned => (ok m mentioned).mono le

theorem Reads.mono {e : Expr} (ok : A.Reads n e) (le : n ≤ k) : A.Reads k e :=
  fun m mentioned => (ok m mentioned).mono le

theorem AdmitsAll.mono {vs : List Value} (ok : A.AdmitsAll n vs) (le : n ≤ k) : A.AdmitsAll k vs :=
  fun v member => (ok v member).mono le

theorem AdmitsAny.mono {v : Option Value} (ok : A.AdmitsAny n v) (le : n ≤ k) : A.AdmitsAny k v :=
  fun w same => (ok w same).mono le

theorem admits_null : A.Admits n .null := List.forall_mem_nil _

theorem admits_missing : A.Admits n .missing := List.forall_mem_nil _

theorem admits_environment (env : EnvId) : A.Admits n (.environment env) := List.forall_mem_nil _

theorem admits_dots (id : DotsId) : A.Admits n (.dots id) := List.forall_mem_nil _

theorem admits_vector {id : VectorId} : A.Admits n (.vector id) ↔ (A.closed → id.index < n) :=
  List.forall_mem_singleton (p := A.Allows n)

theorem admits_promise {id : PromiseId} : A.Admits n (.promise id) ↔ A.promise id :=
  List.forall_mem_singleton (p := A.Allows n)

theorem admits_builtin {name : Name} {id : Nat} : A.Admits n (.builtin name id) ↔ A.builtin id :=
  List.forall_mem_singleton (p := A.Allows n)

theorem admitsAll_nil : A.AdmitsAll n [] := nofun

theorem admitsAll_cons {v : Value} {vs : List Value} :
    A.AdmitsAll n (v :: vs) ↔ A.Admits n v ∧ A.AdmitsAll n vs := List.forall_mem_cons

theorem admitsAll_append {vs ws : List Value} :
    A.AdmitsAll n (vs ++ ws) ↔ A.AdmitsAll n vs ∧ A.AdmitsAll n ws := List.forall_mem_append

theorem AdmitsAll.sublist {vs ws : List Value} (ok : A.AdmitsAll n vs) (sub : ws ⊆ vs) :
    A.AdmitsAll n ws := fun v member => ok v (sub member)

theorem AdmitsAny.getD {v : Option Value} {d : Value} (ok : A.AdmitsAny n v)
    (default : A.Admits n d) : A.Admits n (v.getD d) := by
  cases v with
  | none => exact default
  | some w => exact ok w rfl

theorem admits_language {e : Expr} : A.Admits n (.language e) ↔ A.Reads n e := Iff.rfl

/-! Code is allowed with all its parts. -/

attribute [local simp] Value.mentions Function.mentions Expr.mentions Expr.allMentions Expr.optionMentions
  Arg.allMentions Formal.allMentions

theorem reads_constant {id : NodeId} {v : Value} :
    A.Reads n (.constant id v) ↔ A.Admits n v := Iff.rfl

theorem reads_symbol {id : NodeId} {name : Name} : A.Reads n (.symbol id name) ↔ A.symbol name :=
  List.forall_mem_singleton (p := A.Allows n)

theorem forall_argMentions {p : Mention → Prop} {args : List Arg} :
    (∀ m ∈ Arg.allMentions args, p m) ↔ ∀ a ∈ args, ∀ m ∈ a.value.mentions, p m := by
  induction args with
  | nil => simp
  | cons a rest ih =>
    obtain ⟨name, e⟩ := a
    rw [Arg.allMentions, List.forall_mem_append, List.forall_mem_cons, ih]

theorem forall_exprMentions {p : Mention → Prop} {es : List Expr} :
    (∀ m ∈ Expr.allMentions es, p m) ↔ ∀ e ∈ es, ∀ m ∈ e.mentions, p m := by
  induction es with
  | nil => simp
  | cons e rest ih => rw [Expr.allMentions, List.forall_mem_append, List.forall_mem_cons, ih]

theorem forall_formalMentions {p : Mention → Prop} {formals : List Formal} :
    (∀ m ∈ Formal.allMentions formals, p m) ↔
      ∀ f ∈ formals, ∀ e, f.default = some e → ∀ m ∈ e.mentions, p m := by
  induction formals with
  | nil => simp
  | cons f rest ih =>
    obtain ⟨name, default⟩ := f
    rw [Formal.allMentions, List.forall_mem_append, List.forall_mem_cons, ih]
    cases default with
    | none => simp
    | some e => simp

theorem reads_function {f : Function} : A.Reads n (.function f) ↔
    (∀ formal ∈ f.formals, ∀ e, formal.default = some e → A.Reads n e) ∧ A.Reads n f.body := by
  obtain ⟨node, formals, body⟩ := f
  unfold Reads
  rw [Expr.mentions, Function.mentions, List.forall_mem_append, forall_formalMentions]

theorem admits_closure {id : ClosureId} {f : Function} {env : EnvId} :
    A.Admits n (.closure id f env) ↔ A.Reads n (.function f) := by
  unfold Admits Reads
  rw [Value.mentions, Expr.mentions]

theorem reads_call {id : NodeId} {f : Expr} {args : List Arg} :
    A.Reads n (.call id f args) ↔ A.Reads n f ∧ ∀ a ∈ args, A.Reads n a.value := by
  unfold Reads
  rw [Expr.mentions, List.forall_mem_append, forall_argMentions]

theorem reads_block {id : NodeId} {body : List Expr} :
    A.Reads n (.block id body) ↔ ∀ e ∈ body, A.Reads n e := by
  unfold Reads
  rw [Expr.mentions, forall_exprMentions]

theorem reads_branch {id : NodeId} {test yes : Expr} {no : Option Expr} :
    A.Reads n (.branch id test yes no) ↔
      A.Reads n test ∧ A.Reads n yes ∧ ∀ e, no = some e → A.Reads n e := by
  unfold Reads
  rw [Expr.mentions, List.forall_mem_append, List.forall_mem_append, and_assoc]
  cases no with
  | none => simp
  | some e => simp

theorem reads_assign {id : NodeId} {target value : Expr} {outer : Bool} :
    A.Reads n (.assign id target value outer) ↔ A.Reads n target ∧ A.Reads n value := by
  unfold Reads
  rw [Expr.mentions, List.forall_mem_append]

theorem Reads.ofConstant {e : Expr} {v : Value} (ok : A.Reads n e) (constant : e.constant? = some v) :
    A.Admits n v := by
  cases e with
  | constant id w =>
    cases constant
    exact reads_constant.mp ok
  | _ => cases constant

theorem Reads.ofSymbol {e : Expr} {name : Name} (ok : A.Reads n e) (symbol : e.symbol? = some name) :
    A.symbol name := by
  cases e with
  | symbol id other =>
    cases symbol
    exact reads_symbol.mp ok
  | _ => cases symbol

end Ambit

end CallByNeed
