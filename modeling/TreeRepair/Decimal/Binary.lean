import TreeRepair.Decimal

namespace TreeRepair

/-- The number `mantissa * 2 ^ exponent`. -/
structure Binary where
  mantissa : Nat
  exponent : Int
deriving DecidableEq

namespace Binary

/-- The whole number nearest to a quotient, of two the even one. -/
def roundDiv (a b : Nat) : Nat :=
  let q := a / b
  if 2 * (a % b) < b then q else if b < 2 * (a % b) then q + 1 else q + q % 2

/-- A whole number times a power, as a numerator and a denominator. -/
def ratio (n base : Nat) (power : Int) : Nat × Nat :=
  (n * Nat.pow base power.toNat, Nat.pow base (-power).toNat)

/-- The number nearest to a quotient among those of 53 bits whose last bit is worth at least
`2 ^ -1074`, of two the one with an even mantissa. -/
def ofRatio (a b : Nat) : Binary :=
  let guess : Int := (a.log2 : Int) - b.log2
  let top := if a * Nat.pow 2 (-guess).toNat < b * Nat.pow 2 guess.toNat then guess - 1 else guess
  let exponent := max (top - 52) (-1074)
  let mantissa := roundDiv (a * Nat.pow 2 (-exponent).toNat) (b * Nat.pow 2 exponent.toNat)
  if mantissa = 0x20000000000000 then ⟨0x10000000000000, exponent + 1⟩ else ⟨mantissa, exponent⟩

def ofDecimal (digits : Nat) (exponent : Int) : Binary :=
  let (a, b) := ratio digits 10 exponent
  ofRatio a b

/-- How many digits a quotient has before the point, counting zeros behind the point as less than
none. -/
def pointOf (a b : Nat) : Int :=
  if b ≤ a then (toString (a / b)).length else 1 - ((toString ((b - 1) / a)).length : Int)

/-- A decimal of the given number of digits for which this is the nearest binary number. -/
def onGrid (x : Binary) (digits : Nat) : Option Decimal :=
  let (a, b) := ratio x.mantissa 2 x.exponent
  let unit := pointOf a b - digits
  let num := a * Nat.pow 10 (-unit).toNat
  let den := b * Nat.pow 10 unit.toNat
  let hit := [roundDiv num den, num / den, num / den + 1].find? fun n => ofDecimal n unit = x
  hit.map fun n => { digits := n, exponent := unit }

/-- The decimal of fewest digits for which this is the nearest binary number. Seventeen always
suffice. -/
def shortest (x : Binary) : Decimal :=
  ((List.range 17).findSome? fun n => x.onGrid (n + 1)).getD { digits := 0 }

/-- The same number in full: a power of two below one has as many decimal places as it has binary
ones. -/
def toDecimal (x : Binary) : Decimal where
  digits := x.mantissa * Nat.pow 2 x.exponent.toNat * Nat.pow 5 (-x.exponent).toNat
  exponent := min x.exponent 0

end Binary

namespace Decimal

/-- The nearest binary number, written as asked. Numbers from about `2 ^ 1024` on are infinite. -/
def nearest (write : Binary → Decimal) (d : Decimal) : Number :=
  let zero : Number := .finite { d with digits := 0, exponent := 0 }
  let point := (toString d.digits).length + d.exponent
  if d.digits = 0 || point < -330 then zero
  else if 310 < point then .infinite d.negative
  else
    let x := Binary.ofDecimal d.digits d.exponent
    if x.mantissa = 0 then zero
    else if 971 < x.exponent then .infinite d.negative
    else .finite { write x with negative := d.negative }

/-- The nearest binary number, written with the fewest digits. -/
def rounded (d : Decimal) : Number := d.nearest Binary.shortest

/-- The nearest binary number in full. -/
def exact (d : Decimal) : Number := d.nearest Binary.toDecimal

end Decimal

end TreeRepair
