import CallByNeed.Failure
import CallByNeed.Options.Json

/-!
Options of a session: their defaults, their JSON form, and the variables of the process
environment that override them.
-/
namespace CallByNeed

structure Options where
  /-- Evaluate arguments at the call when that cannot be told from forcing them later. -/
  eagerPromises : Bool := true
  /-- Let unique prefixes of formal names match. -/
  partialMatching : Bool := true
  /-- Make forcing a promise during its own evaluation a condition. -/
  strictPromiseCycles : Bool := false
  maxDepth : Nat := 256
  diagnosticContext : String := "lzr"
deriving DecidableEq, Repr, Inhabited

namespace Options

inductive Field where
  | eagerPromises
  | partialMatching
  | strictPromiseCycles
  | maxDepth
  | diagnosticContext
deriving DecidableEq

def Field.all : List Field :=
  [.eagerPromises, .partialMatching, .strictPromiseCycles, .maxDepth, .diagnosticContext]

def Field.key : Field → String
  | .eagerPromises => "eager_promises"
  | .partialMatching => "partial_matching"
  | .strictPromiseCycles => "strict_promise_cycles"
  | .maxDepth => "max_depth"
  | .diagnosticContext => "diagnostic_context"

/-- A number of at most 64 bits from its decimal digits. -/
def word? (digits : List Char) : Option Nat :=
  if digits.isEmpty || !digits.all Char.isDigit then none
  else
    let n := digits.foldl (fun n c => 10 * n + (c.toNat - '0'.toNat)) 0
    if n < Nat.pow 2 64 then some n else none

/-- Sets one field from a JSON value of the field's own type. -/
def setField (o : Options) : Field → Json → Option Options
  | .eagerPromises, .bool b => some { o with eagerPromises := b }
  | .partialMatching, .bool b => some { o with partialMatching := b }
  | .strictPromiseCycles, .bool b => some { o with strictPromiseCycles := b }
  | .maxDepth, .number t => (word? t.toList).map fun n => { o with maxDepth := n }
  | .diagnosticContext, .string (some s) => some { o with diagnosticContext := s }
  | _, _ => none

/-- Sets the fields an object names. Other members are passed over; a field may occur once. -/
def ofMembers (o : Options) (seen : List Field) : List (Option String × Json) → Option Options
  | [] => some o
  | (none, _) :: _ => none
  | (some key, v) :: rest =>
    match Field.all.find? (·.key = key) with
    | none => ofMembers o seen rest
    | some field =>
      if seen.contains field then none
      else (o.setField field v).bind fun o => ofMembers o (field :: seen) rest

/-- Sets the fields in order from the items of an array. -/
def ofItems (o : Options) : List Field → List Json → Option Options
  | _, [] => some o
  | [], _ :: _ => none
  | field :: fields, v :: rest => (o.setField field v).bind fun o => ofItems o fields rest

def ofJson? : Json → Option Options
  | .object members => ofMembers {} [] members
  | .array items => ofItems {} Field.all items
  | _ => none

def rejected : Failure := .generic "invalid interpreter options"

/-- The options a JSON value gives, if there is a value and it gives any. -/
def decode (json : Option Json) : Except Failure Options :=
  match json.bind ofJson? with
  | some o => .ok o
  | none => .error rejected

def parse (text : String) : Except Failure Options := decode (Json.parse? text)

/-- Reads options that stand under a key of a larger JSON text. -/
def parseMember (key text : String) : Except Failure Options :=
  decode ((Json.parse? text).bind (·.member? key))

/-- The failure to read an options file. -/
def unreadable (path : String) : Failure :=
  .generic ("failed to read interpreter options from " ++ path)

/-- Characters with the property White_Space. -/
def isBlank (c : Char) : Bool :=
  let n := c.toNat
  (0x9 ≤ n && n ≤ 0xD) || n = 0x20 || n = 0x85 || n = 0xA0 || n = 0x1680 ||
    (0x2000 ≤ n && n ≤ 0x200A) || n = 0x2028 || n = 0x2029 || n = 0x202F || n = 0x205F || n = 0x3000

def trim (s : String) : List Char :=
  ((s.toList.dropWhile isBlank).reverse.dropWhile isBlank).reverse

/-- Every variable that is set counts as true unless it is blank or one of four words. -/
def truth (s : String) : Bool :=
  !(["", "0", "false", "FALSE", "False"].contains (String.ofList (trim s)))

/-- A whole number with optional plus sign, between blanks. -/
def readWord? (s : String) : Option Nat :=
  match trim s with
  | '+' :: digits => word? digits
  | digits => word? digits

/-- Options overridden by variables of the process environment. -/
def withVariables (o : Options) (lookup? : String → Option String) : Options where
  eagerPromises := ((lookup? "LZR_EAGER_PROMISES").map truth).getD o.eagerPromises
  partialMatching := ((lookup? "LZR_PARTIAL_MATCHING").map truth).getD o.partialMatching
  strictPromiseCycles :=
    ((lookup? "LZR_STRICT_PROMISE_CYCLES").map truth).getD o.strictPromiseCycles
  maxDepth := ((lookup? "LZR_MAX_DEPTH").bind readWord?).getD o.maxDepth
  diagnosticContext := o.diagnosticContext

end Options
end CallByNeed
