import DualSimplex.Decimal.Shortest

/-!
# Layouts of decimal numbers

How shortest digits become text.  A `Layout` holds the decisions: up to where a
number is written positionally, what a whole number looks like, and the words
for the values that are no numbers.
-/

namespace DualSimplex
namespace Decimal

structure Layout where
  /-- The exponents of the leading digit for which no exponent is written. -/
  positional : Int → Bool
  /-- Whether a whole number written positionally ends in `.0`. -/
  wholePoint : Bool
  /-- Whether a positive exponent has a sign. -/
  plusSign : Bool
  /-- Whether zero keeps its minus sign. -/
  minusZero : Bool
  nan : String
  infinity : String

/-- Numbers in data: positional from `1e-5` up to but not including `1e16`. -/
def Layout.data : Layout where
  positional e := -5 ≤ e && e < 16
  wholePoint := true
  plusSign := true
  minusZero := false
  nan := "nan"
  infinity := "inf"

/-- Numbers in running text: never an exponent. -/
def Layout.plain : Layout where
  positional _ := true
  wholePoint := false
  plusSign := false
  minusZero := true
  nan := "NaN"
  infinity := "inf"

/-- Small quantities in running text: always an exponent. -/
def Layout.scientific : Layout where
  positional _ := false
  wholePoint := false
  plusSign := false
  minusZero := true
  nan := "NaN"
  infinity := "inf"

def zeros (n : Nat) : String := String.ofList (List.replicate n '0')

/-- Digits written without an exponent. -/
def writePositional (wholePoint : Bool) (d : Digits) : String :=
  let text := toString d.digits
  let point := if wholePoint then ".0" else ""
  match d.exponent with
  | .ofNat k => (if d.digits == 0 then text else text ++ zeros k) ++ point
  | .negSucc k =>
    let places := k + 1
    let whole := d.digits / tenTo places
    let fraction := toString (d.digits % tenTo places)
    toString whole ++ "." ++ zeros (places - fraction.length) ++ fraction

/-- Digits written with one digit before the point and an exponent. -/
def writeScientific (plusSign : Bool) (d : Digits) : String :=
  let text := (toString d.digits).toList
  let mantissa := if text.length ≤ 1 then text else text.take 1 ++ '.' :: text.drop 1
  let sign := if plusSign && 0 ≤ d.lead then "+" else ""
  String.ofList mantissa ++ "e" ++ sign ++ toString d.lead

def Layout.unsigned (layout : Layout) (v : Binary.Magnitude) : String :=
  let d := shortest v
  if layout.positional d.lead then writePositional layout.wholePoint d
  else writeScientific layout.plusSign d

def Layout.ofDatum (layout : Layout) : Binary.Datum → String
  | .nan => layout.nan
  | .infinite negative => if negative then "-" ++ layout.infinity else layout.infinity
  | .finite negative v =>
    let minus := negative && (layout.minusZero || v.mantissa != 0)
    (if minus then "-" else "") ++ layout.unsigned v

/-- The text of a number in a layout. -/
def Layout.format {α : Type} [Binary.Encoded α] (layout : Layout) (x : α) : String :=
  layout.ofDatum (Binary.Encoded.datum x)

/-- The text of a number with a fixed number of places after the point. -/
def fixed {α : Type} [Binary.Encoded α] (places : Nat) (x : α) : String :=
  match Binary.Encoded.datum x with
  | .finite negative v =>
    let scaled := roundToPlaces places v
    let fraction := toString (scaled % tenTo places)
    (if negative then "-" else "") ++ toString (scaled / tenTo places) ++ "."
      ++ zeros (places - fraction.length) ++ fraction
  | other => Layout.plain.ofDatum other

end Decimal
end DualSimplex
