namespace TreeRepair

/-- The number `digits * 10 ^ exponent` with a sign, which zero has too. -/
structure Decimal where
  negative : Bool := false
  digits : Nat
  exponent : Int := 0
deriving DecidableEq

namespace Decimal

/-- Moves trailing zeros of the digits, at most as many as allowed, to the exponent. -/
def stripZeros : Nat → Nat → Int → Nat × Int
  | 0, digits, exponent => (digits, exponent)
  | allowed + 1, digits, exponent =>
    if digits % 10 = 0 then stripZeros allowed (digits / 10) (exponent + 1) else (digits, exponent)

/-- The same number written with the fewest digits. -/
def normalize (d : Decimal) : Decimal :=
  if d.digits = 0 then { d with exponent := 0 }
  else
    let (digits, exponent) := stripZeros d.digits d.digits d.exponent
    { d with digits, exponent }

/-- The value, if it is a whole number. -/
def toInt? (d : Decimal) : Option Int :=
  let n := d.normalize
  if 0 ≤ n.exponent then
    let magnitude : Nat := n.digits * Nat.pow 10 n.exponent.toNat
    some (if n.negative then -(magnitude : Int) else magnitude)
  else none

/-- The digits with the point after the given number of them, and at least one digit on each side
of it. -/
def positional (digits : List Char) (point : Int) : List Char :=
  if point ≤ 0 then '0' :: '.' :: List.replicate (-point).toNat '0' ++ digits
  else
    let whole := digits.take point.toNat
    let fraction := digits.drop point.toNat
    whole ++ List.replicate (point.toNat - digits.length) '0' ++
      '.' :: (if fraction.isEmpty then ['0'] else fraction)

/-- One digit before the point, and an exponent of at least two digits. -/
def scientific (digits : List Char) (point : Int) : List Char :=
  let power := point - 1
  let powerDigits := (toString power.natAbs).toList
  let mantissa := match digits with
    | [] => ['0']
    | [d] => [d]
    | d :: rest => d :: '.' :: rest
  mantissa ++ 'e' :: (if power < 0 then '-' else '+') ::
    List.replicate (2 - powerDigits.length) '0' ++ powerDigits

/-- The point is written in place as long as at most sixteen digits or three zeros precede the
last or first digit; beyond that an exponent is written. -/
def text (d : Decimal) : String :=
  let n := d.normalize
  let digits := (toString n.digits).toList
  let point := if n.digits = 0 then 1 else digits.length + n.exponent
  let body := if -4 < point && point ≤ 16 then positional digits point else scientific digits point
  String.ofList (if d.negative then '-' :: body else body)

/-- A run of decimal digits, read as a number together with its length. -/
def readDigits (s : List Char) : Option (Nat × Nat) :=
  if s.isEmpty || s.any (fun c => !c.isDigit) then none
  else some (s.foldl (fun n c => 10 * n + (c.toNat - '0'.toNat)) 0, s.length)

/-- An exponent with an optional sign. -/
def readExponent : List Char → Option Int
  | '-' :: s => (readDigits s).map fun (n, _) => -(n : Int)
  | '+' :: s => (readDigits s).map fun (n, _) => (n : Int)
  | s => (readDigits s).map fun (n, _) => (n : Int)

/-- Digits with at most one point between them, as a number and the length of its fraction. -/
def readMantissa (s : List Char) : Option (Nat × Nat) :=
  match s.span (· ≠ '.') with
  | (whole, []) => (readDigits whole).map fun (n, _) => (n, 0)
  | (whole, _ :: fraction) => do
    let _ ← readDigits whole
    let (_, places) ← readDigits fraction
    let (n, _) ← readDigits (whole ++ fraction)
    return (n, places)

/-- Reads digits, an optional fraction and an optional exponent, after an optional sign. -/
def ofText? (s : String) : Option Decimal :=
  let (negative, body) := match s.toList with
    | '-' :: rest => (true, rest)
    | '+' :: rest => (false, rest)
    | rest => (false, rest)
  match body.span fun c => c ≠ 'e' && c ≠ 'E' with
  | (mantissa, []) => (readMantissa mantissa).map fun (digits, places) =>
    { negative, digits, exponent := -(places : Int) }
  | (mantissa, _ :: power) => do
    let (digits, places) ← readMantissa mantissa
    let exponent ← readExponent power
    return { negative, digits, exponent := exponent - places }

end Decimal

/-- A decimal number, or one of the values beyond all of them. -/
inductive Number where
  | finite (value : Decimal)
  | infinite (negative : Bool)
  | nan
deriving DecidableEq

namespace Number

def text : Number → String
  | .finite d => d.text
  | .infinite false => "inf"
  | .infinite true => "-inf"
  | .nan => "nan"

def ofText? (s : String) : Option Number :=
  if s = "inf" || s = "+inf" then some (.infinite false)
  else if s = "-inf" then some (.infinite true)
  else if s = "nan" || s = "+nan" || s = "-nan" then some .nan
  else (Decimal.ofText? s).map .finite

end Number

end TreeRepair
