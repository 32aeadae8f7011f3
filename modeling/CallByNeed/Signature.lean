import CallByNeed.Failure
import CallByNeed.Name

/-!
Signatures: the names of formal parameters, or of the arguments supplied at a call.
-/
namespace CallByNeed

structure Signature where
  names : List (Option Name)
  /-- The position of the formal that collects arguments; supplied arguments have none. -/
  varargs : Option Nat := none
deriving DecidableEq, Repr

namespace Signature

def supplied (names : List (Option Name)) : Signature := ⟨names, none⟩

def ofFormals (names : List Name) : Signature :=
  ⟨names.map some, names.findIdx? Name.isVarargs⟩

/-- The first name that stands before in the list. -/
def firstRepeated? : List Name → List Name → Option Name
  | _, [] => none
  | seen, name :: rest => if seen.contains name then some name else firstRepeated? (name :: seen) rest

/-- The signature of a formal parameter list, whose names must differ. -/
def formals (names : List Name) : Except Failure Signature :=
  match firstRepeated? [] names with
  | some name => .error (.invalidArgument s!"repeated formal argument '{name}'")
  | none => .ok (ofFormals names)

def length (s : Signature) : Nat := s.names.length

def name? (s : Signature) (i : Nat) : Option Name := s.names[i]?.join

def indexOf? (s : Signature) (name : Name) : Option Nat := s.names.findIdx? (· = some name)

def text (s : Signature) : String := ", ".intercalate (s.names.map (·.getD ""))

end Signature
end CallByNeed
