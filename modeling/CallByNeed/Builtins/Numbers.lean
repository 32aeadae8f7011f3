import CallByNeed.Builtin
import CallByNeed.Builtins.Arguments

/-!
Arithmetic, comparison and summaries. Logical values count as integers; integers wrap at 64 bits;
the shorter operand is recycled, and an empty one makes the result empty.
-/
namespace CallByNeed.Builtins

inductive Numbers where
  | integers (xs : List Int64)
  | doubles (xs : List Float)

namespace Numbers

def toDoubles : Numbers → List Float
  | integers xs => xs.map Int64.toFloat
  | doubles xs => xs

def elements : Numbers → Elements
  | integers xs => .integer xs
  | doubles xs => .double xs

end Numbers

def numbers (s : Store) (v : Value) (op : Name) : Except Failure Numbers :=
  match v.vector?.map s.elements with
  | some (.logical xs) => .ok (.integers (xs.map Elements.ofBool))
  | some (.integer xs) => .ok (.integers xs)
  | some (.double xs) => .ok (.doubles xs)
  | _ => .error (.invalidArgument s!"non-numeric argument to binary operator '{op}'")

/-- Applies a function to two lists element by element, the shorter one recycled. -/
def recycle {α β : Type} (f : α → α → β) (xs ys : List α) : List β :=
  let length := if xs.isEmpty || ys.isEmpty then 0 else max xs.length ys.length
  (List.range length).filterMap fun i =>
    (xs[i % xs.length]?).bind fun x => (ys[i % ys.length]?).map (f x)

def integerOp? : Arithmetic → Option (Int64 → Int64 → Int64)
  | .add => some (· + ·)
  | .subtract => some (· - ·)
  | .multiply => some (· * ·)
  | .divide => none

def doubleOp : Arithmetic → Float → Float → Float
  | .add => (· + ·)
  | .subtract => (· - ·)
  | .multiply => (· * ·)
  | .divide => (· / ·)

def unary (op : Arithmetic) (x : Numbers) : Except Failure Elements :=
  match op, x with
  | .add, x => .ok x.elements
  | .subtract, .integers xs => .ok (.integer (xs.map (-·)))
  | .subtract, .doubles xs => .ok (.double (xs.map (-·)))
  | _, _ => .error (.raise .arity "invalid unary operator")

def binary (op : Arithmetic) (x y : Numbers) : Elements :=
  match integerOp? op, x, y with
  | some f, .integers xs, .integers ys => .integer (recycle f xs ys)
  | _, x, y => .double (recycle (doubleOp op) x.toDoubles y.toDoubles)

def arithmetic (op : Arithmetic) (s : Store) (args : Arguments) : Except Failure Elements := do
  let x ← numbers s (← args.required "e1" 0) op.symbol
  match args.get? "e2" 1 with
  | none => unary op x
  | some y => .ok (binary op x (← numbers s y op.symbol))

def orderDoubles (x y : Float) : Option Ordering :=
  if x < y then some .lt else if x == y then some .eq else if y < x then some .gt else none

def orderStrings (x y : String) : Option Ordering :=
  some (if x < y then .lt else if x = y then .eq else .gt)

/-- Whether a comparison holds; numbers without an order satisfy none. -/
def Comparison.holds : Comparison → Option Ordering → Bool
  | _, none => false
  | .equal, some o => o = .eq
  | .notEqual, some o => o ≠ .eq
  | .less, some o => o = .lt
  | .greater, some o => o = .gt
  | .lessOrEqual, some o => o ≠ .gt
  | .greaterOrEqual, some o => o ≠ .lt

/-- The strings of contents that are compared as text. -/
def comparedStrings (xs : Elements) : Except Failure (List String) :=
  match xs.widen 3 with
  | .character xs => .ok xs
  | _ => .error (.invalidArgument "comparison is possible only for atomic types")

/-- Whether a comparison of two values goes by text: both are vectors and one is of strings. -/
def comparedAsText (s : Store) (x y : Value) : Option (Elements × Elements) :=
  match x.vector?.map s.elements, y.vector?.map s.elements with
  | some xs, some ys => if xs.strings?.isSome || ys.strings?.isSome then some (xs, ys) else none
  | _, _ => none

def compare (op : Comparison) (s : Store) (args : Arguments) : Except Failure Elements := do
  let x ← args.required "e1" 0
  let y ← args.required "e2" 1
  let orders ←
    match comparedAsText s x y with
    | some (xs, ys) => do .ok (recycle orderStrings (← comparedStrings xs) (← comparedStrings ys))
    | none => do
      let xs ← numbers s x op.symbol
      let ys ← numbers s y op.symbol
      .ok (recycle orderDoubles xs.toDoubles ys.toDoubles)
  .ok (.logical (orders.map (Comparison.holds op)))

def negate (s : Store) (args : Arguments) : Except Failure Elements := do
  match ← numbers s (← args.required "x" 0) "!" with
  | .integers xs => .ok (.logical (xs.map (· == 0)))
  | .doubles xs => .ok (.logical (xs.map (· == 0)))

/-- The summary of doubles. A total starts from negative zero; the extremes pass over what is no
number, and of equal ones keep the first. -/
def summarize : Summary → List Float → Float
  | .total, xs => xs.foldl (· + ·) (-0.0)
  | .maximum, xs => xs.foldl (fun m x => if m < x then x else m) (-1.0 / 0.0)
  | .minimum, xs => xs.foldl (fun m x => if x < m then x else m) (1.0 / 0.0)

/-- A summary of every element of every argument, an integer when all of them are and it is finite. -/
def summary (op : Summary) (s : Store) (args : Arguments) : Except Failure Elements := do
  let parts ← (args.values.filter (!·.isNull)).mapM fun v => numbers s v op.symbol
  let result := summarize op (parts.flatMap Numbers.toDoubles)
  let allIntegers := parts.all fun
    | .integers _ => true
    | .doubles _ => false
  .ok (if allIntegers && result.isFinite then .integer [result.toInt64] else .double [result])

/-- Magnitudes; that of the smallest integer only fits a double. -/
def absolute (s : Store) (args : Arguments) : Except Failure Elements := do
  match ← numbers s (← args.required "x" 0) "abs" with
  | .integers xs =>
    .ok (if xs.contains Int64.minValue then .double (xs.map fun x => x.toFloat.abs)
      else .integer (xs.map Int64.abs))
  | .doubles xs => .ok (.double (xs.map Float.abs))

def twice (s : Store) (args : Arguments) : Except Failure Elements := do
  let x := (s.number? (← args.required "x" 0)).getD 0
  .ok (.double [x * 2])

end CallByNeed.Builtins
