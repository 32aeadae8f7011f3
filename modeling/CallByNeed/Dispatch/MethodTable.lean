import CallByNeed.Expr
import CallByNeed.Table

/-!
The methods of one generic, keyed by class names. Entries found by inheritance are kept beside the
explicit ones and are dropped whenever a method is defined.
-/
namespace CallByNeed

structure MethodTable where
  methods : Table String Value := {}
  /-- The keys of entries found by inheritance. -/
  inherited : List String := []
  /-- The number of definitions made. -/
  version : Nat := 0
  lookups : Nat := 0
  slowPaths : Nat := 0
deriving Inhabited

namespace MethodTable

def peek? (t : MethodTable) (key : String) : Option Value := t.methods.get? key

/-- As `peek?`, counting the lookup. -/
def lookup (t : MethodTable) (key : String) : Option Value × MethodTable :=
  (t.peek? key, { t with lookups := t.lookups + 1 })

/-- Defines a method and drops the entries found by inheritance. -/
def define (t : MethodTable) (key : String) (method : Value) : MethodTable :=
  let explicit := t.inherited.foldl Table.erase t.methods
  { t with methods := explicit.insert key method, inherited := [], version := t.version + 1 }

/-- Stores a method found by inheritance under the key it was found for. -/
def install (t : MethodTable) (key : String) (method : Value) : MethodTable :=
  { t with
    methods := t.methods.insert key method
    inherited := if t.inherited.contains key then t.inherited else key :: t.inherited }

def recordSlowPath (t : MethodTable) : MethodTable := { t with slowPaths := t.slowPaths + 1 }

/-- The keys in order. -/
def keys (t : MethodTable) : List String := t.methods.keys.mergeSort fun a b => !(b < a)

end MethodTable
end CallByNeed
