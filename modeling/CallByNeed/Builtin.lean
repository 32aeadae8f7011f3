import CallByNeed.Failure
import CallByNeed.Name

/-!
Builtin functions. A strict builtin receives evaluated arguments; a special one receives the call
unevaluated and decides itself what to evaluate. A host may register builtins of its own, also in
place of the standard ones.
-/
namespace CallByNeed

inductive Arithmetic where
  | add | subtract | multiply | divide
deriving DecidableEq, Repr

inductive Comparison where
  | equal | notEqual | less | greater | lessOrEqual | greaterOrEqual
deriving DecidableEq, Repr

inductive Summary where
  | maximum | minimum | total
deriving DecidableEq, Repr

def Arithmetic.symbol : Arithmetic → Name
  | add => "+"
  | subtract => "-"
  | multiply => "*"
  | divide => "/"

def Comparison.symbol : Comparison → Name
  | equal => "=="
  | notEqual => "!="
  | less => "<"
  | greater => ">"
  | lessOrEqual => "<="
  | greaterOrEqual => ">="

def Summary.symbol : Summary → Name
  | maximum => "max"
  | minimum => "min"
  | total => "sum"

/-- What a strict builtin of the host does. -/
inductive HostOp where
  /-- Raises the interrupt flag and gives a number, or `NULL`. -/
  | interrupt (result : Option Float)
  /-- Twice a number. -/
  | twice
  | countArguments
  | fail (f : Failure)

inductive StrictOp where
  | combine | makeList | element | setElement | length | identical | isNull
  | getAttribute | setAttribute | withAttributes
  | classOf | oldClass | setClassOf | unclass | inherits
  | arithmetic (op : Arithmetic) | compare (op : Comparison) | negate | summary (op : Summary)
  | absolute
  | write | stop | warn | identity
  | registerMethod | defineClass | defineGeneric | defineMethod | newObject
  | host (op : HostOp)

inductive SpecialOp where
  | attempt | leave | isMissing | currentCall | currentFunction | parentFrame | environment
  | useMethod | nextMethod | standardGeneric | quote
deriving DecidableEq, Repr

inductive Operation where
  | strict (op : StrictOp)
  | special (op : SpecialOp)

/-- The search for methods that a builtin makes on classed arguments before it runs. -/
inductive InternalDispatch where
  | none
  /-- On the first argument. -/
  | generic
  /-- On both operands, also for methods of the group. -/
  | ops
  /-- On the first argument, also for methods of the group. -/
  | summary
  /-- On the first argument, also for methods of the group. -/
  | math
deriving DecidableEq, Repr

def InternalDispatch.group? : InternalDispatch → Option Name
  | ops => some "Ops"
  | summary => some "Summary"
  | math => some "Math"
  | none | generic => Option.none

structure Builtin where
  name : Name
  operation : Operation
  /-- Free of side effects, and never calls a closure. -/
  isPure : Bool := false
  dispatch : InternalDispatch := .none

def Builtin.isStrict (b : Builtin) : Bool :=
  match b.operation with
  | .strict _ => true
  | .special _ => false

/-- Builtins by the number that builtin values carry. -/
structure Registry where
  functions : Array Builtin := #[]

namespace Registry

def id? (r : Registry) (name : Name) : Option Nat := r.functions.findIdx? (·.name = name)

def lookup? (r : Registry) (name : Name) : Option Builtin := r.functions.find? (·.name = name)

/-- Adds a builtin, or replaces the one of its name; the result is its number. -/
def register (b : Builtin) (r : Registry) : Nat × Registry :=
  match r.id? b.name with
  | some id => (id, ⟨r.functions.modify id fun _ => b⟩)
  | none => (r.functions.size, ⟨r.functions.push b⟩)

def isPure (r : Registry) (name : Name) : Bool := (r.lookup? name).any (·.isPure)

def isStrict (r : Registry) (name : Name) : Bool := (r.lookup? name).any Builtin.isStrict

def vectorBuiltins : List Builtin :=
  [⟨"c", .strict .combine, true, .none⟩,
    ⟨"list", .strict .makeList, true, .none⟩,
    ⟨"[[", .strict .element, true, .generic⟩,
    ⟨"[[<-", .strict .setElement, false, .none⟩,
    ⟨"length", .strict .length, true, .generic⟩,
    ⟨"identical", .strict .identical, true, .none⟩,
    ⟨"is.null", .strict .isNull, true, .none⟩]

def classBuiltins : List Builtin :=
  [⟨"attr", .strict .getAttribute, true, .none⟩,
    ⟨"attr<-", .strict .setAttribute, false, .none⟩,
    ⟨"structure", .strict .withAttributes, false, .none⟩,
    ⟨"class", .strict .classOf, true, .none⟩,
    ⟨"oldClass", .strict .oldClass, true, .none⟩,
    ⟨"class<-", .strict .setClassOf, false, .none⟩,
    ⟨"unclass", .strict .unclass, true, .none⟩,
    ⟨"inherits", .strict .inherits, true, .none⟩]

def numericBuiltins : List Builtin :=
  [Arithmetic.add, .subtract, .multiply, .divide].map
      (fun op => ⟨op.symbol, .strict (.arithmetic op), true, .ops⟩) ++
    [Comparison.equal, .notEqual, .less, .greater, .lessOrEqual, .greaterOrEqual].map
      (fun op => ⟨op.symbol, .strict (.compare op), true, .ops⟩) ++
    [⟨"!", .strict .negate, true, .ops⟩] ++
    [Summary.maximum, .minimum, .total].map
      (fun op => ⟨op.symbol, .strict (.summary op), true, .summary⟩) ++
    [⟨"abs", .strict .absolute, true, .math⟩]

def languageBuiltins : List Builtin :=
  [⟨"cat", .strict .write, false, .none⟩,
    ⟨"stop", .strict .stop, false, .none⟩,
    ⟨"warning", .strict .warn, false, .none⟩,
    ⟨"try", .special .attempt, false, .none⟩,
    ⟨"return", .special .leave, false, .none⟩,
    ⟨"force", .strict .identity, true, .none⟩,
    ⟨"identity", .strict .identity, true, .none⟩,
    ⟨"invisible", .strict .identity, true, .none⟩,
    ⟨"missing", .special .isMissing, false, .none⟩,
    ⟨"sys.call", .special .currentCall, false, .none⟩,
    ⟨"sys.function", .special .currentFunction, false, .none⟩,
    ⟨"parent.frame", .special .parentFrame, false, .none⟩,
    ⟨"environment", .special .environment, false, .none⟩]

def dispatchBuiltins : List Builtin :=
  [⟨"UseMethod", .special .useMethod, false, .none⟩,
    ⟨"NextMethod", .special .nextMethod, false, .none⟩,
    ⟨"registerS3method", .strict .registerMethod, false, .none⟩,
    ⟨"standardGeneric", .special .standardGeneric, false, .none⟩,
    ⟨"setClass", .strict .defineClass, false, .none⟩,
    ⟨"setGeneric", .strict .defineGeneric, false, .none⟩,
    ⟨"setMethod", .strict .defineMethod, false, .none⟩,
    ⟨"new", .strict .newObject, false, .none⟩]

/-- The builtins every session starts with. -/
def standard : Registry :=
  ⟨(vectorBuiltins ++ classBuiltins ++ numericBuiltins ++ languageBuiltins ++
    dispatchBuiltins).toArray⟩

end Registry
end CallByNeed
