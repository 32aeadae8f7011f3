import CallByNeed.Name

/-!
Values and expressions. Vectors, promises and `...` lists live in a store and are named by ids;
environments live in a heap of their own. Expressions are trees whose nodes have identities: a
call node keys the state of its call site, and two closures come from one definition when their
functions are one node.
-/
namespace CallByNeed

structure NodeId where
  index : Nat
deriving DecidableEq, Repr, Inhabited

structure VectorId where
  index : Nat
deriving DecidableEq, Repr, Inhabited

structure PromiseId where
  index : Nat
deriving DecidableEq, Repr, Inhabited

structure DotsId where
  index : Nat
deriving DecidableEq, Repr, Inhabited

structure ClosureId where
  index : Nat
deriving DecidableEq, Repr, Inhabited

structure RecordId where
  index : Nat
deriving DecidableEq, Repr, Inhabited

/-- A slot of the heap and the generation of the frame it held when the id was handed out. -/
structure EnvId where
  index : Nat
  generation : Nat
deriving DecidableEq, Repr, Inhabited

def EnvId.text (id : EnvId) : String := s!"env#{id.index}.{id.generation}"

mutual

inductive Value where
  | null
  /-- The marker bound to a formal that is neither supplied nor has a default. -/
  | missing
  | vector (id : VectorId)
  | closure (id : ClosureId) (function : Function) (env : EnvId)
  | builtin (name : Name) (id : Nat)
  | promise (id : PromiseId)
  | environment (id : EnvId)
  | dots (id : DotsId)
  | language (code : Expr)

structure Formal where
  name : Name
  default : Option Expr

structure Function where
  node : NodeId
  formals : List Formal
  body : Expr

structure Arg where
  name : Option Name
  value : Expr

inductive Expr where
  | constant (id : NodeId) (value : Value)
  | symbol (id : NodeId) (name : Name)
  /-- An argument left out, as in `f(1, , 3)`. -/
  | empty (id : NodeId)
  | call (id : NodeId) (function : Expr) (args : List Arg)
  | function (f : Function)
  | block (id : NodeId) (body : List Expr)
  | branch (id : NodeId) (test yes : Expr) (no : Option Expr)
  /-- Assignment to a symbol or a replacement call; an outer one starts above the current frame. -/
  | assign (id : NodeId) (target value : Expr) (outer : Bool)

end

instance : Inhabited Value := ⟨.null⟩
instance : Inhabited Expr := ⟨.empty default⟩
instance : Inhabited Function := ⟨⟨default, [], default⟩⟩

namespace Expr

def id : Expr → NodeId
  | constant n _ | symbol n _ | empty n | call n _ _ | block n _ | branch n _ _ _ | assign n _ _ _ => n
  | function f => f.node

def symbol? : Expr → Option Name
  | symbol _ name => some name
  | _ => none

def constant? : Expr → Option Value
  | constant _ v => some v
  | _ => none

def isEmpty : Expr → Bool
  | empty _ => true
  | _ => false

def isVarargs (e : Expr) : Bool := e.symbol?.any Name.isVarargs

end Expr

def Function.names (f : Function) : List Name := f.formals.map (·.name)

namespace Value

def isNull : Value → Bool
  | null => true
  | _ => false

def isMissing : Value → Bool
  | missing => true
  | _ => false

def isFunction : Value → Bool
  | closure .. | builtin .. => true
  | _ => false

def vector? : Value → Option VectorId
  | vector id => some id
  | _ => none

def promise? : Value → Option PromiseId
  | promise id => some id
  | _ => none

/-- Object identity. Builtins are told apart by their number alone. -/
def same : Value → Value → Bool
  | null, null | missing, missing => true
  | vector a, vector b => a = b
  | closure a _ _, closure b _ _ => a = b
  | builtin _ a, builtin _ b => a = b
  | promise a, promise b => a = b
  | environment a, environment b => a = b
  | dots a, dots b => a = b
  | language a, language b => a.id = b.id
  | _, _ => false

end Value

mutual

/-- The call nodes of an expression, each before those inside it. -/
def Expr.calls : Expr → List Expr
  | .constant .. | .symbol .. | .empty _ => []
  | .call n f args => .call n f args :: (f.calls ++ Arg.allCalls args)
  | .function ⟨_, formals, body⟩ => Formal.allCalls formals ++ body.calls
  | .block _ body => Expr.allCalls body
  | .branch _ test yes no => test.calls ++ yes.calls ++ Expr.optionCalls no
  | .assign _ target value _ => target.calls ++ value.calls

def Expr.allCalls : List Expr → List Expr
  | [] => []
  | e :: rest => e.calls ++ Expr.allCalls rest

def Expr.optionCalls : Option Expr → List Expr
  | none => []
  | some e => e.calls

def Arg.allCalls : List Arg → List Expr
  | [] => []
  | ⟨_, e⟩ :: rest => e.calls ++ Arg.allCalls rest

def Formal.allCalls : List Formal → List Expr
  | [] => []
  | ⟨_, default⟩ :: rest => Expr.optionCalls default ++ Formal.allCalls rest

end

end CallByNeed
