/-!
# Binary floating point data

What the bits of a floating point number say: whether it is a number at all,
its sign, and its magnitude as a whole mantissa times a power of two.
-/

namespace DualSimplex
namespace Binary

def twoTo (n : Nat) : Nat := Nat.pow 2 n

/-- The widths of the two fields below the sign bit. -/
structure Format where
  fractionBits : Nat
  exponentBits : Nat

def Format.double : Format := { fractionBits := 52, exponentBits := 11 }

def Format.single : Format := { fractionBits := 23, exponentBits := 8 }

/-- The number `mantissa * 2 ^ exponent`.  Its neighbours in the format lie one
unit of the mantissa away, except that the one below a power of two is only
half as far: then `narrowBelow` holds. -/
structure Magnitude where
  mantissa : Nat
  exponent : Int
  narrowBelow : Bool

inductive Datum
  | nan
  | infinite (negative : Bool)
  | finite (negative : Bool) (magnitude : Magnitude)

/-- The datum that a bit pattern stands for. -/
def Format.decode (f : Format) (bits : Nat) : Datum :=
  let hidden := twoTo f.fractionBits
  let top := twoTo f.exponentBits
  let fraction := bits % hidden
  let field := bits / hidden % top
  let negative := bits / hidden / top % 2 == 1
  let lowest : Int := 2 - (top / 2 : Nat) - f.fractionBits
  if field + 1 == top then
    if fraction == 0 then .infinite negative else .nan
  else if field == 0 then
    .finite negative { mantissa := fraction, exponent := lowest, narrowBelow := false }
  else
    .finite negative {
      mantissa := hidden + fraction
      exponent := lowest + (field - 1 : Nat)
      narrowBelow := fraction == 0 && field != 1 }

/-- Types whose values are binary floating point data. -/
class Encoded (α : Type) where
  datum : α → Datum

instance : Encoded Float where
  datum x := Format.double.decode x.toBits.toNat

instance : Encoded Float32 where
  datum x := Format.single.decode x.toBits.toNat

end Binary
end DualSimplex
