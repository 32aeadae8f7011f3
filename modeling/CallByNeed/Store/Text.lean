import CallByNeed.Store

/-!
Text of values and expressions, as messages and output show them. Expressions are written by
recursion on the tree. Vectors inside vectors are followed through the store, each level taking one
unit of a budget larger than any chain of distinct vectors.
-/
namespace CallByNeed

/-- Operators written between their two arguments. -/
def binaryOperators : List Name := ["+", "-", "*", "/", "==", "!=", "<", ">", "<=", ">="]

def commaSeparated (parts : List String) : String := ", ".intercalate parts

def Function.header (f : Function) : String := "function(" ++ commaSeparated f.names ++ ")"

def named (name : Option Name) (text : String) : String :=
  match name with
  | some name => name ++ " = " ++ text
  | none => text

/-- The text of a call from its function's name, if it is a symbol, the function's text and the
arguments' names and texts. -/
def callText (symbol : Option Name) (function : String) (args : List (Option Name × String)) :
    String :=
  let listed (args : List (Option Name × String)) := commaSeparated (args.map fun a => named a.1 a.2)
  let general := function ++ "(" ++ listed args ++ ")"
  match symbol, args with
  | some op, [lhs, rhs] =>
    if binaryOperators.contains op then lhs.2 ++ " " ++ op ++ " " ++ rhs.2
    else if op = "[[" then lhs.2 ++ "[[" ++ listed [rhs] ++ "]]"
    else general
  | some op, target :: rest =>
    if rest.isEmpty && (op = "-" || op = "!") then op ++ target.2
    else if op = "[[" then target.2 ++ "[[" ++ listed rest ++ "]]"
    else general
  | _, _ => general

mutual

def Value.textWith (dots : DotsId → Nat) (vector : VectorId → String) : Value → String
  | .null => "NULL"
  | .missing => "<missing>"
  | .vector id => vector id
  | .closure _ f _ => f.header
  | .builtin name _ => ".Primitive(\"" ++ name ++ "\")"
  | .promise _ => "<promise>"
  | .environment id => "<environment: " ++ id.text ++ ">"
  | .dots id => s!"<... of {dots id}>"
  | .language e => e.textWith dots vector

def Expr.textWith (dots : DotsId → Nat) (vector : VectorId → String) : Expr → String
  | .constant _ v => v.textWith dots vector
  | .symbol _ name => name
  | .empty _ => ""
  | .call _ f args => callText f.symbol? (f.textWith dots vector) (Arg.textsWith dots vector args)
  | .function ⟨_, formals, body⟩ =>
    "function(" ++ commaSeparated (Formal.textsWith dots vector formals) ++ ") " ++
      body.textWith dots vector
  | .block _ body => "\x7b" ++ "; ".intercalate (Expr.textsWith dots vector body) ++ "\x7d"
  | .branch _ test yes no =>
    "if (" ++ test.textWith dots vector ++ ") " ++ yes.textWith dots vector ++
      Expr.elseWith dots vector no
  | .assign _ target value outer =>
    target.textWith dots vector ++ (if outer then " <<- " else " <- ") ++ value.textWith dots vector

def Expr.elseWith (dots : DotsId → Nat) (vector : VectorId → String) : Option Expr → String
  | none => ""
  | some e => " else " ++ e.textWith dots vector

def Expr.textsWith (dots : DotsId → Nat) (vector : VectorId → String) : List Expr → List String
  | [] => []
  | e :: rest => e.textWith dots vector :: Expr.textsWith dots vector rest

def Arg.textsWith (dots : DotsId → Nat) (vector : VectorId → String) :
    List Arg → List (Option Name × String)
  | [] => []
  | ⟨name, e⟩ :: rest => (name, e.textWith dots vector) :: Arg.textsWith dots vector rest

def Formal.textsWith (dots : DotsId → Nat) (vector : VectorId → String) : List Formal → List String
  | [] => []
  | ⟨name, none⟩ :: rest => name :: Formal.textsWith dots vector rest
  | ⟨name, some e⟩ :: rest =>
    (name ++ " = " ++ e.textWith dots vector) :: Formal.textsWith dots vector rest

end

namespace Store

def dotsLength (s : Store) (id : DotsId) : Nat := (s.dotsAt id).values.length

/-- The text of a vector, following vectors inside it to the given depth. -/
def vectorText (s : Store) : Nat → VectorId → String
  | 0, _ => ""
  | depth + 1, id =>
    (s.elements id).shown fun v => v.textWith s.dotsLength (s.vectorText depth)

/-- More than the length of any chain of distinct vectors. -/
def depthBound (s : Store) : Nat := s.vectors.size + 1

def valueText (s : Store) (v : Value) : String :=
  v.textWith s.dotsLength (s.vectorText s.depthBound)

def exprText (s : Store) (e : Expr) : String :=
  e.textWith s.dotsLength (s.vectorText s.depthBound)

/-- The unquoted text of every element of a vector. -/
def elementTexts (s : Store) (id : VectorId) : List String := (s.elements id).texts s.valueText

end Store
end CallByNeed
