import CallByNeed.Builtin
import CallByNeed.Diagnostic
import CallByNeed.Dispatch.Formal
import CallByNeed.Heap
import CallByNeed.Options
import CallByNeed.Record
import CallByNeed.Store.Text

/-!
The state of a session: objects, frames, call records, builtins, methods, and what was counted and
reported so far.
-/
namespace CallByNeed

/-- What is known about a call node. -/
structure CallSite where
  /-- For each argument, whether it is an expression that can only produce a value. -/
  simpleArgs : Option (List Bool) := none
  cache : DispatchCache := {}

structure Stats where
  promisesForced : Nat := 0
  eagerPromisesCreated : Nat := 0
  eagerHits : Nat := 0
  eagerDeopts : Nat := 0
  eagerAborts : Nat := 0
  classSearches : Nat := 0
  formalSlowPaths : Nat := 0
  framesCollected : Nat := 0
deriving DecidableEq, Repr

structure TableId where
  index : Nat
deriving DecidableEq, Repr, Inhabited

/-- A generic over formal classes. -/
structure Generic where
  name : Name
  /-- The formals it dispatches on, in order. -/
  signature : List Name
  table : TableId

structure Session where
  store : Store := {}
  heap : Heap := {}
  records : Records := {}
  options : Options := {}
  implicit : ImplicitClasses := default
  builtins : Registry := {}
  sites : Table NodeId CallSite := {}
  /-- The always-forced analysis of each function that was called. -/
  forced : Table NodeId (List Bool) := {}
  /-- Methods registered for a generic and a class, by their joined name. -/
  methods : Table Name Value := {}
  methodsVersion : Nat := 0
  classes : ClassRegistry := {}
  generics : Table Name Generic := {}
  tables : Array MethodTable := #[]
  resolver : Resolver := .superclasses
  diagnostics : List Diagnostic := []
  output : String := ""
  interrupt : Bool := false
  stats : Stats := {}

namespace Session

def base : EnvId := ⟨0, 0⟩

def global : EnvId := ⟨1, 0⟩

def site (s : Session) (node : NodeId) : CallSite := (s.sites.get? node).getD {}

def setSite (node : NodeId) (f : CallSite → CallSite) (s : Session) : Session :=
  { s with sites := s.sites.insert node (f (s.site node)) }

def tableAt (s : Session) (id : TableId) : MethodTable := s.tables[id.index]?.getD {}

def setTable (id : TableId) (t : MethodTable) (s : Session) : Session :=
  { s with tables := s.tables.modify id.index fun _ => t }

/-- The method table of a generic. -/
def methodTable? (s : Session) (generic : Name) : Option MethodTable :=
  (s.generics.get? generic).map fun g => s.tableAt g.table

def classOf (s : Session) (v : Value) : VectorId := s.store.classOf s.implicit v

def classView (s : Session) (id : VectorId) : ClassView := ⟨id, (s.store.elements id).strings?⟩

def addDiagnostic (d : Diagnostic) (s : Session) : Session :=
  { s with diagnostics := s.diagnostics ++ [d] }

/-- The text of the call that errors raised under a record are attributed to. -/
def errorCall (s : Session) (caller : RecordId) : Option String :=
  ((s.records.logicalFunction caller).bind (·.call)).map s.store.exprText

end Session
end CallByNeed
