import CallByNeed.Signature

/-!
Matching of supplied arguments to formals: exact names first, then unique prefixes of the formals
before `...`, then the remaining formals before `...` by position. What is left goes to `...` in
call order, and is an error when there is no `...`.
-/
namespace CallByNeed

/-- What a formal is bound to. -/
inductive FormalSlot where
  /-- The supplied argument at this index. -/
  | supplied (index : Nat)
  /-- The supplied arguments that `...` collects. -/
  | varargs (indices : List Nat)
  | unfilled
deriving DecidableEq, Repr, Inhabited

inductive MatchError where
  /-- Unnamed arguments beyond the formals. -/
  | tooManyPositional (arguments : List Nat)
  /-- Arguments left over, at least one of them named. -/
  | unused (arguments : List Nat)
  | formalMatchedMultiple (formal : Name)
  | ambiguousPartialMatch (index : Nat)
deriving DecidableEq, Repr

def indexList (indices : List Nat) : String :=
  "[" ++ ", ".intercalate (indices.map fun i => toString i) ++ "]"

def MatchError.name : MatchError → String
  | tooManyPositional _ => "TooManyPositional"
  | unused _ => "Unused"
  | formalMatchedMultiple _ => "FormalMatchedMultiple"
  | ambiguousPartialMatch _ => "AmbiguousPartialMatch"

def MatchError.message : MatchError → String
  | tooManyPositional args => "too many positional arguments: " ++ indexList args
  | unused args => "unused arguments: " ++ indexList args
  | formalMatchedMultiple formal =>
    s!"formal argument \"{formal}\" matched by multiple actual arguments"
  | ambiguousPartialMatch i => s!"argument {i + 1} matches multiple formal arguments"

/-- Pairs of a formal and the supplied argument bound to it, the latest first. -/
abbrev Bound := List (Nat × Nat)

namespace Bound

def argOf? (b : Bound) (formal : Nat) : Option Nat := b.lookup formal

def isFilled (b : Bound) (formal : Nat) : Bool := (b.argOf? formal).isSome

def isUsed (b : Bound) (arg : Nat) : Bool := b.any (·.2 = arg)

end Bound

/-- Supplied arguments with their position and the name they are written with, if any. -/
abbrev Named := List (Nat × Option Name)

def numbered (supplied : Signature) : Named :=
  (supplied.names.map written).zipIdx.map fun (name, i) => (i, name)

/-- Binds each argument that carries the very name of a formal other than `...`. -/
def bindExact (formals : Signature) : Named → Bound → Except MatchError Bound
  | [], b => .ok b
  | (_, none) :: rest, b => bindExact formals rest b
  | (i, some name) :: rest, b =>
    match (formals.indexOf? name).filter fun f => some f ≠ formals.varargs with
    | none => bindExact formals rest b
    | some f =>
      if b.isFilled f then .error (.formalMatchedMultiple name)
      else bindExact formals rest ((f, i) :: b)

/-- The formals before `...` without an exact match of which a name is a prefix. -/
def partialCandidates (formals : Signature) (before : Nat) (fixed : Bound) (name : Name) : List Nat :=
  (List.range before).filter fun f =>
    !fixed.isFilled f && (formals.name? f).any fun formal => name.toList.isPrefixOf formal.toList

/-- Binds each named argument left over that is a prefix of exactly one formal. -/
def bindPartial (formals : Signature) (before : Nat) (fixed : Bound) :
    Named → Bound → Except MatchError Bound
  | [], b => .ok b
  | (_, none) :: rest, b => bindPartial formals before fixed rest b
  | (i, some name) :: rest, b =>
    if fixed.isUsed i then bindPartial formals before fixed rest b
    else match partialCandidates formals before fixed name with
      | [] => bindPartial formals before fixed rest b
      | [f] =>
        if b.isFilled f then .error (.formalMatchedMultiple ((formals.name? f).getD name))
        else bindPartial formals before fixed rest ((f, i) :: b)
      | _ => .error (.ambiguousPartialMatch i)

/-- Pairs the unfilled formals before `...` with the unnamed arguments, both in order. -/
def bindPositional (before : Nat) (args : Named) (b : Bound) : Bound :=
  let formals := (List.range before).filter (!b.isFilled ·)
  let unnamed := (args.filter (·.2.isNone)).map (·.1)
  formals.zip unnamed ++ b

/-- The slot of every formal for a call with the given supplied names. -/
def matchArguments (formals supplied : Signature) (allowPartial : Bool) :
    Except MatchError (List FormalSlot) := do
  let before := formals.varargs.getD formals.length
  let args := numbered supplied
  let fixed ← bindExact formals args []
  let byName ← if allowPartial then bindPartial formals before fixed args fixed else .ok fixed
  let bound := bindPositional before args byName
  let leftover := args.filter fun a => !bound.isUsed a.1
  let slot (f : Nat) : FormalSlot :=
    if formals.varargs = some f then .varargs (leftover.map (·.1))
    else ((bound.argOf? f).map FormalSlot.supplied).getD .unfilled
  if formals.varargs.isNone && !leftover.isEmpty then
    if leftover.any (·.2.isSome) then .error (.unused (leftover.map (·.1)))
    else .error (.tooManyPositional (leftover.map (·.1)))
  else .ok ((List.range formals.length).map slot)

/-- The formal a supplied argument was matched to, unless it went to `...`. -/
def formalOf? (slots : List FormalSlot) (arg : Nat) : Option Nat :=
  slots.findIdx? (· = .supplied arg)

end CallByNeed
