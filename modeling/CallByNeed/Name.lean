/-!
Variable names. A name is a string; three dots stand for the collected arguments, and two dots
followed by ASCII digits for one of them.
-/
namespace CallByNeed

abbrev Name := String

namespace Name

/-- The name of the formal that collects the arguments no other formal takes. -/
def varargs : Name := "..."

def isVarargs (name : Name) : Bool := name == varargs

/-- The digits after two leading dots, if there are any and nothing else follows the dots. -/
def dotDigits? (name : Name) : Option (List Char) :=
  match name.toList with
  | '.' :: '.' :: digits => if !digits.isEmpty && digits.all Char.isDigit then some digits else none
  | _ => none

/-- Names such as `..1` and `..2`. -/
def isDotIndex (name : Name) : Bool := (dotDigits? name).isSome

/-- The number written in a name such as `..2`; one that does not fit 64 bits counts as zero. -/
def dotIndex (name : Name) : Nat :=
  let n := ((dotDigits? name).getD []).foldl (fun n c => 10 * n + (c.toNat - '0'.toNat)) 0
  if n < Nat.pow 2 64 then n else 0

end Name

/-- An argument name counts only when it is not the empty string. -/
def written (name : Option Name) : Option Name := name.filter (· ≠ "")

end CallByNeed
