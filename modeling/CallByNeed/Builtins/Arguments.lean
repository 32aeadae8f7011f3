import CallByNeed.Store

/-!
Evaluated arguments of a builtin, taken by name or by position among the unnamed ones.
-/
namespace CallByNeed

structure Arguments where
  names : List (Option Name)
  values : List Value

namespace Arguments

def named? (args : Arguments) (name : Name) : Option Value :=
  (args.names.findIdx? (· = some name)).bind fun i => args.values[i]?

def unnamed (args : Arguments) : List Value :=
  ((args.names.zip args.values).filter fun a => (written a.1).isNone).map (·.2)

/-- The argument of a name, or else the unnamed one at a position; an empty argument counts as
absent. -/
def get? (args : Arguments) (name : Name) (position : Nat) : Option Value :=
  (if args.names.contains (some name) then args.named? name else args.unnamed[position]?).filter
    (!·.isMissing)

def required (args : Arguments) (name : Name) (position : Nat) : Except Failure Value :=
  match args.get? name position with
  | some v => .ok v
  | none => .error (.missingArgument name)

/-- The arguments of other names than a reserved one, in call order. -/
def rest (args : Arguments) (reserved : Name) : List (Option Name × Value) :=
  (args.names.zip args.values).filter (·.1 ≠ some reserved)

/-- A required argument that must be a character vector with a first string. -/
def requiredString (args : Arguments) (s : Store) (name : Name) (position : Nat) :
    Except Failure String := do
  match s.string? (← args.required name position) with
  | some text => .ok text
  | none => .error (.invalidArgument s!"invalid '{name}' argument")

/-- The strings of an optional argument; none when it is absent or no character vector. -/
def strings? (args : Arguments) (s : Store) (name : Name) (position : Nat) : Option (List String) :=
  (args.get? name position).bind s.strings?

end Arguments
end CallByNeed
