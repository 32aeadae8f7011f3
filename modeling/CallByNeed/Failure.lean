/-!
Failures. A condition belongs to the language: it has a kind, a message and possibly the text of
the call it is attributed to, and `try` may catch it. The other failures concern the evaluator
itself or its host.
-/
namespace CallByNeed

inductive ConditionKind where
  /-- Positional arguments beyond the formals. -/
  | arity
  /-- A formal matched twice, or a partial name that fits several formals. -/
  | ambiguousNameMatch
  /-- A formal that was not supplied and has no default was read. -/
  | missingArgument
  /-- A promise was forced during its own evaluation. -/
  | cyclicPromise
  /-- No method for a generic. -/
  | dispatchNotFound
  /-- A named argument without a formal. -/
  | unusedArgument
  | objectNotFound
  | invalidArgument
  /-- Calls nested deeper than the options allow. -/
  | recursionLimit
  /-- Raised by the program itself. -/
  | user
deriving DecidableEq, Repr

namespace ConditionKind

def all : List ConditionKind :=
  [arity, ambiguousNameMatch, missingArgument, cyclicPromise, dispatchNotFound, unusedArgument,
    objectNotFound, invalidArgument, recursionLimit, user]

def name : ConditionKind → String
  | arity => "Arity"
  | ambiguousNameMatch => "AmbiguousNameMatch"
  | missingArgument => "MissingArgument"
  | cyclicPromise => "CyclicPromise"
  | dispatchNotFound => "DispatchNotFound"
  | unusedArgument => "UnusedArgument"
  | objectNotFound => "ObjectNotFound"
  | invalidArgument => "InvalidArgument"
  | recursionLimit => "RecursionLimit"
  | user => "User"

def code : ConditionKind → String
  | arity => "lzr::arity"
  | ambiguousNameMatch => "lzr::ambiguous_name"
  | missingArgument => "lzr::missing"
  | cyclicPromise => "lzr::cyclic_promise"
  | dispatchNotFound => "lzr::dispatch_not_found"
  | unusedArgument => "lzr::unused_argument"
  | objectNotFound => "lzr::object_not_found"
  | invalidArgument => "lzr::invalid_argument"
  | recursionLimit => "lzr::recursion_limit"
  | user => "lzr::user"

end ConditionKind

structure Condition where
  kind : ConditionKind
  message : String
  call : Option String := none
deriving DecidableEq, Repr

/-- A condition as it is shown to the user. -/
def Condition.shown (c : Condition) : String :=
  match c.call with
  | some call => "Error in " ++ call ++ " : " ++ c.message
  | none => "Error: " ++ c.message

inductive Failure where
  | condition (c : Condition)
  /-- An eager evaluation met something that only lazy evaluation may do. -/
  | cannotOptimize
  /-- A broken invariant of the evaluator. -/
  | internal (message : String)
  | interrupted
  /-- Raised by the host. -/
  | generic (message : String)
  /-- The evaluation was given too small a budget of nested steps. -/
  | exhausted
deriving DecidableEq, Repr

namespace Failure

def raise (kind : ConditionKind) (message : String) : Failure := condition ⟨kind, message, none⟩

def invalidArgument (message : String) : Failure := raise .invalidArgument message

def missingArgument (name : String) : Failure :=
  raise .missingArgument s!"argument \"{name}\" is missing, with no default"

def objectNotFound (name : String) : Failure := raise .objectNotFound s!"object '{name}' not found"

def dotsMisused : Failure := invalidArgument "'...' used in an incorrect context"

def outOfBounds : Failure := invalidArgument "subscript out of bounds"

/-- Attributes a condition to a call unless it already carries one. -/
def withCall (call : Option String) : Failure → Failure
  | condition c => condition { c with call := c.call.or call }
  | f => f

def name : Failure → String
  | condition c => c.kind.name
  | cannotOptimize => "CannotOptimize"
  | internal _ => "Internal"
  | interrupted => "Interrupted"
  | generic _ => "Generic"
  | exhausted => "Exhausted"

/-- The failure of a name, with the message and call that its class carries. -/
def ofName? (name message : String) (call : Option String) : Option Failure :=
  match name with
  | "CannotOptimize" => some cannotOptimize
  | "Internal" => some (internal message)
  | "Interrupted" => some interrupted
  | "Generic" => some (generic message)
  | _ => (ConditionKind.all.find? (·.name = name)).map fun kind => condition ⟨kind, message, call⟩

def kind? : Failure → Option ConditionKind
  | condition c => some c.kind
  | _ => none

/-- Whether `try` may catch the failure. -/
def isCatchable : Failure → Bool
  | condition _ | generic _ => true
  | _ => false

def code : Failure → String
  | condition c => c.kind.code
  | cannotOptimize => "lzr::cannot_optimize"
  | internal _ => "lzr::internal"
  | interrupted => "lzr::interrupted"
  | generic _ => "lzr::generic"
  | exhausted => "lzr::exhausted"

def text : Failure → String
  | condition c => c.shown
  | cannotOptimize => "eager evaluation aborted"
  | internal message => "internal error: " ++ message
  | interrupted => "evaluation interrupted"
  | generic message => "Generic error: " ++ message
  | exhausted => "evaluation budget exhausted"

end Failure
end CallByNeed
