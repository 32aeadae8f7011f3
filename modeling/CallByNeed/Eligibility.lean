import CallByNeed.Builtin
import CallByNeed.Expr

/-!
Static checks that decide which arguments may be evaluated at the call: an expression that can only
produce a value, for a formal that the callee's body always forces. What the names involved are
bound to is checked when the expression runs.
-/
namespace CallByNeed

mutual

/-- Constants, plain variables, and calls of pure builtins over such. -/
def Expr.isSimple (r : Registry) : Expr → Bool
  | .constant .. => true
  | .symbol _ name => !Name.isVarargs name && !Name.isDotIndex name
  | .call _ f args => f.symbol?.any r.isPure && Arg.allSimple r args
  | _ => false

def Arg.allSimple (r : Registry) : List Arg → Bool
  | [] => true
  | ⟨_, e⟩ :: rest => !e.isEmpty && e.isSimple r && Arg.allSimple r rest

end

/-- The formals still bound as on entry, with a blank name for each one rebound, and those known to
be forced. -/
structure Forcing where
  formals : List Name
  forced : List Bool

namespace Forcing

def position? (w : Forcing) (name : Name) : Option Nat := w.formals.findIdx? (· = name)

def read (w : Forcing) (name : Name) : Forcing :=
  if Name.isVarargs name then w
  else match w.position? name with
    | some i => { w with forced := w.forced.set i true }
    | none => w

def rebind (w : Forcing) (name : Name) : Forcing :=
  match w.position? name with
  | some i => { w with formals := w.formals.set i "" }
  | none => w

end Forcing

mutual

/-- What an expression forces on the part of it that always runs, and whether the code after it runs
too. -/
def Expr.forces (r : Registry) : Expr → Forcing → Bool × Forcing
  | .constant .., w | .empty _, w | .function _, w => (true, w)
  | .symbol _ name, w => (true, w.read name)
  | .block _ body, w => Expr.allForce r body w
  | .branch _ test _ _, w => (false, (test.forces r w).2)
  | .assign _ target value _, w =>
    match value.forces r w with
    | (false, w) => (false, w)
    | (true, w) =>
      match target.symbol? with
      | some name => (true, w.rebind name)
      | none => (false, w)
  | .call _ f args, w =>
    if f.symbol?.any fun name => r.isStrict name && r.isPure name then Arg.allForce r args w
    else (false, w)

def Expr.allForce (r : Registry) : List Expr → Forcing → Bool × Forcing
  | [], w => (true, w)
  | e :: rest, w =>
    match e.forces r w with
    | (true, w) => Expr.allForce r rest w
    | (false, w) => (false, w)

def Arg.allForce (r : Registry) : List Arg → Forcing → Bool × Forcing
  | [], w => (true, w)
  | ⟨_, e⟩ :: rest, w =>
    match e.forces r w with
    | (true, w) => Arg.allForce r rest w
    | (false, w) => (false, w)

end

/-- For each formal, whether every run of the body forces it. -/
def Function.alwaysForced (r : Registry) (f : Function) : List Bool :=
  (f.body.forces r ⟨f.names, f.formals.map fun _ => false⟩).2.forced

end CallByNeed
