import CallByNeed.Signature
import CallByNeed.Store.Ownership

/-!
Programs as plain trees, before their nodes have identities. Loading a tree gives every node an
identity of its own and makes its literals permanent.
-/
namespace CallByNeed

mutual

inductive Source where
  | null
  | logical (b : Bool)
  | integer (n : Int64)
  | double (x : Float)
  | text (s : String)
  /-- A value of the store as a literal. -/
  | literal (v : Value)
  | symbol (name : Name)
  | empty
  | call (function : Source) (args : List SourceArg)
  | function (formals : List SourceFormal) (body : Source)
  | block (body : List Source)
  | branch (test yes : Source) (no : Option Source)
  | assign (target value : Source) (outer : Bool)

structure SourceArg where
  name : Option Name
  value : Source

structure SourceFormal where
  name : Name
  default : Option Source

end

/-- A literal; its value is never writable. -/
def constantNode (v : Value) : StoreM Expr := do
  modify (·.markPermanent v)
  let id ← Store.freshNode
  pure (.constant id v)

def symbolNode (name : Name) : StoreM Expr := do
  let id ← Store.freshNode
  pure (.symbol id name)

def callNode (f : Expr) (args : List Arg) : StoreM Expr := do
  let id ← Store.freshNode
  pure (.call id f args)

/-- A function; its formals must have different names. -/
def functionNode (formals : List Formal) (body : Expr) : StoreM Expr := do
  match Signature.formals (formals.map (·.name)) with
  | .error e => throw e
  | .ok _ =>
    let id ← Store.freshNode
    pure (.function ⟨id, formals, body⟩)

mutual

def Source.load : Source → StoreM Expr
  | .null => constantNode .null
  | .logical b => do constantNode (← Store.vector (.logical [b]))
  | .integer n => do constantNode (← Store.vector (.integer [n]))
  | .double x => do constantNode (← Store.vector (.double [x]))
  | .text s => do constantNode (← Store.vector (.character [s]))
  | .literal v => constantNode v
  | .symbol name => symbolNode name
  | .empty => do pure (.empty (← Store.freshNode))
  | .call f args => do callNode (← f.load) (← SourceArg.loadAll args)
  | .function formals body => do functionNode (← SourceFormal.loadAll formals) (← body.load)
  | .block body => do
    let body ← Source.loadAll body
    pure (.block (← Store.freshNode) body)
  | .branch test yes no => do
    let test ← test.load
    let yes ← yes.load
    let no ← Source.loadOption no
    pure (.branch (← Store.freshNode) test yes no)
  | .assign target value outer => do
    let target ← target.load
    let value ← value.load
    pure (.assign (← Store.freshNode) target value outer)

def Source.loadAll : List Source → StoreM (List Expr)
  | [] => pure []
  | e :: rest => do pure ((← e.load) :: (← Source.loadAll rest))

def Source.loadOption : Option Source → StoreM (Option Expr)
  | none => pure none
  | some e => do pure (some (← e.load))

def SourceArg.loadAll : List SourceArg → StoreM (List Arg)
  | [] => pure []
  | ⟨name, e⟩ :: rest => do pure (⟨name, ← e.load⟩ :: (← SourceArg.loadAll rest))

def SourceFormal.loadAll : List SourceFormal → StoreM (List Formal)
  | [] => pure []
  | ⟨name, default⟩ :: rest => do
    pure (⟨name, ← Source.loadOption default⟩ :: (← SourceFormal.loadAll rest))

end

end CallByNeed
