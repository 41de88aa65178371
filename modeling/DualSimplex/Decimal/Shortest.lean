import DualSimplex.Decimal.Binary

/-!
# Shortest decimals

The decimal with the fewest digits that lies nearer to a given binary number
than to its neighbours, and the rounding of a binary number to a fixed number
of places.  Everything is computed in natural numbers.
-/

namespace DualSimplex
namespace Decimal

def tenTo (n : Nat) : Nat := Nat.pow 10 n

/-- The number of decimal digits, none for zero. -/
def length (n : Nat) : Nat :=
  if h : n = 0 then 0 else length (n / 10) + 1
termination_by n
decreasing_by omega

/-- The number `digits * 10 ^ exponent`. -/
structure Digits where
  digits : Nat
  exponent : Int

/-- The exponent of the leading digit, zero for zero. -/
def Digits.lead (d : Digits) : Int :=
  if d.digits == 0 then 0 else d.exponent + (length d.digits : Int) - 1

/-- The same number without trailing zeros. -/
def Digits.strip (d : Digits) : Digits :=
  go (length d.digits) d
where
  go : Nat → Digits → Digits
    | 0, d => d
    | fuel + 1, d =>
      if d.digits % 10 == 0 then go fuel { digits := d.digits / 10, exponent := d.exponent + 1 }
      else d

/-- A fraction of natural numbers, with a positive denominator. -/
structure Ratio where
  num : Nat
  den : Nat

/-- The exponent of the leading decimal digit of a positive ratio. -/
def Ratio.magnitude (r : Ratio) : Int :=
  if r.den ≤ r.num then (length (r.num / r.den) : Int) - 1
  else -(length ((r.den + r.num - 1) / r.num - 1) : Int)

/-- The ratio over a power of ten. -/
def Ratio.overPowerOfTen (r : Ratio) : Int → Ratio
  | .ofNat k => { num := r.num, den := r.den * tenTo k }
  | .negSucc k => { num := r.num * tenTo (k + 1), den := r.den }

/-- The numbers that round to a given one, in quarters of its mantissa's unit:
the number itself, how far the interval reaches down, whether the ends belong
to it, and the value of a quarter.  It always reaches two quarters up. -/
structure Interval where
  center : Nat
  below : Nat
  closed : Bool
  quarter : Ratio

def Interval.of (v : Binary.Magnitude) : Interval where
  center := 4 * v.mantissa
  below := if v.narrowBelow then 1 else 2
  closed := v.mantissa % 2 == 0
  quarter :=
    match v.exponent - 2 with
    | .ofNat k => { num := Binary.twoTo k, den := 1 }
    | .negSucc k => { num := 1, den := Binary.twoTo (k + 1) }

/-- Whether `q` units of ten to some power round to the number, for an interval
whose quarter is given in these units. -/
def Interval.contains (i : Interval) (q : Nat) : Bool :=
  let x := q * i.quarter.den
  let low := (i.center - i.below) * i.quarter.num
  let high := (i.center + 2) * i.quarter.num
  if i.closed then low ≤ x && x ≤ high else low < x && x < high

/-- The better of the number's two neighbours on the grid of multiples of
`10 ^ place`, of those that round to it.  A tie goes up. -/
def Interval.onGrid (i : Interval) (place : Int) : Option Digits :=
  let i := { i with quarter := i.quarter.overPowerOfTen place }
  let value := i.center * i.quarter.num
  let q := value / i.quarter.den
  let rest := value % i.quarter.den
  match i.contains q, i.contains (q + 1) with
  | true, true =>
    some { digits := if 2 * rest < i.quarter.den then q else q + 1, exponent := place }
  | true, false => some { digits := q, exponent := place }
  | false, true => some { digits := q + 1, exponent := place }
  | false, false => none

/-- The shortest digits of a magnitude, and the nearest to it among those. -/
def shortest (v : Binary.Magnitude) : Digits :=
  if v.mantissa == 0 then { digits := 0, exponent := 0 }
  else
    let i := Interval.of v
    let lead := Ratio.magnitude { num := i.center * i.quarter.num, den := i.quarter.den }
    let places := (List.range 20).map fun (d : Nat) => lead - d
    ((places.findSome? i.onGrid).getD { digits := 0, exponent := 0 }).strip

/-- The magnitude in units of `10 ^ (-places)`, rounded to the nearest whole
number.  A tie goes to the even neighbour. -/
def roundToPlaces (places : Nat) (v : Binary.Magnitude) : Nat :=
  let i := Interval.of v
  let num := v.mantissa * 4 * i.quarter.num * tenTo places
  let q := num / i.quarter.den
  let twice := 2 * (num % i.quarter.den)
  if twice < i.quarter.den || (twice == i.quarter.den && q % 2 == 0) then q else q + 1

end Decimal
end DualSimplex
