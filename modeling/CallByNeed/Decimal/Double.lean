import CallByNeed.Decimal.Shortest

/-!
Text of doubles: the shortest decimal that reads back, always positional, without a fraction when
the number is whole.
-/
namespace CallByNeed.Decimal

/-- Mantissa, exponent and lower gap of a finite nonzero double. -/
def Binary.ofDouble (x : Float) : Binary :=
  let bits : Nat := x.toBits.toNat
  let fraction : Nat := bits % Nat.pow 2 52
  let exponent : Nat := bits / Nat.pow 2 52 % Nat.pow 2 11
  if exponent = 0 then ⟨fraction, -1074, 2⟩
  else ⟨fraction + Nat.pow 2 52, (exponent : Int) - 1075, if fraction = 0 then 1 else 2⟩

/-- Digits without the zeros they end in, and one exponent more for each zero dropped. -/
def Scaled.trim : Nat → Scaled → Scaled
  | 0, s => s
  | n + 1, s => if s.digits % 10 = 0 then trim n ⟨s.digits / 10, s.exponent + 1⟩ else s

/-- Positional text of a decimal. -/
def Scaled.text (s : Scaled) : String :=
  let t := s.trim 17
  let digits := Nat.toDigits 10 t.digits
  let places := (-t.exponent).toNat
  if places = 0 then String.ofList (digits ++ List.replicate t.exponent.toNat '0')
  else
    let padded := List.replicate (places + 1 - digits.length) '0' ++ digits
    String.ofList (padded.take (padded.length - places)) ++ "." ++
      String.ofList (padded.drop (padded.length - places))

/-- The text of a double. -/
def text (x : Float) : String :=
  if x.isNaN then "NaN"
  else
    let sign := if x.toBits ≥ 0x8000000000000000 then "-" else ""
    if x.isInf then sign ++ "Inf"
    else if x == 0 then sign ++ "0"
    else sign ++ (Binary.ofDouble x).shortest.text

/-- The number written by a run of decimal digits. -/
def ofDigits (digits : List Char) : Nat :=
  digits.foldl (fun n c => 10 * n + (c.toNat - '0'.toNat)) 0

/-- An optional sign and what follows it. -/
def sign : List Char → Bool × List Char
  | '-' :: rest => (true, rest)
  | '+' :: rest => (false, rest)
  | rest => (false, rest)

/-- The exponent after the digits of a decimal literal; no exponent counts as zero. -/
def exponent? : List Char → Option Int
  | [] => some 0
  | c :: rest =>
    if c = 'e' ∨ c = 'E' then
      let (negative, digits) := sign rest
      if digits.isEmpty || !digits.all Char.isDigit then none
      else some (if negative then -(ofDigits digits : Int) else ofDigits digits)
    else none

/-- The double nearest to a decimal literal without its sign. -/
def readMagnitude? (cs : List Char) : Option Float :=
  let whole := cs.takeWhile Char.isDigit
  let rest := cs.dropWhile Char.isDigit
  let (fraction, rest) := match rest with
    | '.' :: tail => (tail.takeWhile Char.isDigit, tail.dropWhile Char.isDigit)
    | _ => ([], rest)
  if whole.isEmpty && fraction.isEmpty then none
  else (exponent? rest).map fun e =>
    let e : Int := e - fraction.length
    Float.ofScientific (ofDigits (whole ++ fraction)) (e < 0) e.natAbs

/-- Reads the names of the special doubles and decimal literals with optional exponent. -/
def read? (s : String) : Option Float :=
  let (negative, cs) := sign s.toList
  let magnitude := match String.ofList cs with
    | "NaN" => some (0.0 / 0.0)
    | "Inf" => some (1.0 / 0.0)
    | _ => readMagnitude? cs
  magnitude.map fun x => if negative then -x else x

end CallByNeed.Decimal
