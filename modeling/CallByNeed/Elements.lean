import CallByNeed.Decimal.Double
import CallByNeed.Expr

/-!
Contents of a vector. The five types are ranked logical, integer, double, character, list; atomic
contents convert upwards through this order.
-/
namespace CallByNeed

inductive Elements where
  | logical (xs : List Bool)
  | integer (xs : List Int64)
  | double (xs : List Float)
  | character (xs : List String)
  | list (xs : List Value)
deriving Inhabited

namespace Elements

def length : Elements → Nat
  | logical xs => xs.length
  | integer xs => xs.length
  | double xs => xs.length
  | character xs => xs.length
  | list xs => xs.length

def typeName : Elements → String
  | logical _ => "logical"
  | integer _ => "integer"
  | double _ => "double"
  | character _ => "character"
  | list _ => "list"

def rank : Elements → Nat
  | logical _ => 0
  | integer _ => 1
  | double _ => 2
  | character _ => 3
  | list _ => 4

def listRank : Nat := 4

def emptyOfRank : Nat → Elements
  | 0 => logical []
  | 1 => integer []
  | 2 => double []
  | 3 => character []
  | _ => list []

def isList : Elements → Bool
  | list _ => true
  | _ => false

/-- Children of a list; atomic contents have none. -/
def children : Elements → List Value
  | list xs => xs
  | _ => []

def strings? : Elements → Option (List String)
  | character xs => some xs
  | _ => none

def ofBool (b : Bool) : Int64 := if b then 1 else 0

def logicalText (b : Bool) : String := if b then "TRUE" else "FALSE"

/-- The text of every element, children of a list shown by `child`. -/
def texts (child : Value → String) : Elements → List String
  | logical xs => xs.map logicalText
  | integer xs => xs.map fun x => toString x.toInt
  | double xs => xs.map Decimal.text
  | character xs => xs
  | list xs => xs.map child

/-- As `texts`, with strings in quotation marks. -/
def quotedTexts (child : Value → String) : Elements → List String
  | character xs => xs.map fun s => "\"" ++ s ++ "\""
  | xs => xs.texts child

def shown (child : Value → String) (xs : Elements) : String :=
  let parts := xs.quotedTexts child
  match xs with
  | list _ => "list(" ++ ", ".intercalate parts ++ ")"
  | _ => if xs.length = 1 then String.join parts else "c(" ++ ", ".intercalate parts ++ ")"

/-- Atomic contents converted up to an atomic rank; nothing is ever converted down. -/
def widen (xs : Elements) (rank : Nat) : Elements :=
  if rank ≤ xs.rank then xs
  else match xs, rank with
    | logical xs, 1 => integer (xs.map ofBool)
    | logical xs, 2 => double (xs.map fun b => if b then 1 else 0)
    | integer xs, 2 => double (xs.map Int64.toFloat)
    | xs, _ => character (xs.texts fun _ => "")

/-- Each element of atomic contents as contents of its own; the children of a list count as none. -/
def singletons : Elements → List Elements
  | logical xs => xs.map fun x => logical [x]
  | integer xs => xs.map fun x => integer [x]
  | double xs => xs.map fun x => double [x]
  | character xs => xs.map fun x => character [x]
  | list _ => []

/-- Concatenation of contents of one rank; a part of another rank is left out. -/
def append : Elements → Elements → Elements
  | logical xs, logical ys => logical (xs ++ ys)
  | integer xs, integer ys => integer (xs ++ ys)
  | double xs, double ys => double (xs ++ ys)
  | character xs, character ys => character (xs ++ ys)
  | list xs, list ys => list (xs ++ ys)
  | xs, _ => xs

/-- Writes at a position of a list, or at its end. -/
def write {α : Type} (xs : List α) (i : Nat) (x : α) : List α :=
  if i = xs.length then xs ++ [x] else xs.set i x

/-- Writes the single element of the second contents into the first; both have one rank. -/
def writeFirst : Elements → Nat → Elements → Option Elements
  | logical xs, i, logical (y :: _) => some (logical (write xs i y))
  | integer xs, i, integer (y :: _) => some (integer (write xs i y))
  | double xs, i, double (y :: _) => some (double (write xs i y))
  | character xs, i, character (y :: _) => some (character (write xs i y))
  | list xs, i, list (y :: _) => some (list (write xs i y))
  | _, _, _ => none

/-- The number held by numeric contents of length one. -/
def number? : Elements → Option Float
  | logical [x] => some (if x then 1 else 0)
  | integer [x] => some x.toFloat
  | double [x] => some x
  | _ => none

/-- Equal numbers are identical, and so are two that are no numbers. -/
def sameDouble (x y : Float) : Bool := x == y || (x.isNaN && y.isNaN)

/-- Whether two lists have one length and related elements at each place. -/
def allSame {α : Type} (same : α → α → Bool) : List α → List α → Bool
  | [], [] => true
  | x :: xs, y :: ys => same x y && allSame same xs ys
  | _, _ => false

def identical (child : Value → Value → Bool) : Elements → Elements → Bool
  | logical xs, logical ys => xs == ys
  | integer xs, integer ys => xs == ys
  | double xs, double ys => allSame sameDouble xs ys
  | character xs, character ys => xs == ys
  | list xs, list ys => allSame child xs ys
  | _, _ => false

end Elements
end CallByNeed
