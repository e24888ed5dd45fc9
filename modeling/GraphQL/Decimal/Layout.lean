import GraphQL.Decimal.Shortest

/-!
# How numbers are written

A format decides which magnitudes are written positionally, whether a whole number keeps a point,
how an exponent is signed and where a tie goes. The digits themselves are those of
`Decimal.shortest`.
-/

namespace GraphQL

/-- The decisions of a number format. -/
structure NumberFormat where
  /-- Are numbers of this magnitude written without an exponent? -/
  positional : Int → Bool
  /-- Does a whole number written positionally end in `.0`? -/
  pointZero : Bool
  /-- Does a positive exponent carry its sign? -/
  signedExponent : Bool
  tie : Tie

namespace NumberFormat

/-- The digits with the point behind the one of magnitude zero. -/
def positionalText (f : NumberFormat) (d : Decimal) : String :=
  let digits := d.digits
  let magnitude := d.magnitude
  if magnitude < 0 then
    "0." ++ String.ofList (List.replicate (-magnitude - 1).toNat '0' ++ digits)
  else
    let whole := digits.take (magnitude.toNat + 1)
    let zeros := List.replicate (magnitude.toNat + 1 - digits.length) '0'
    let fraction := digits.drop (magnitude.toNat + 1)
    let tail := if fraction.isEmpty then (if f.pointZero then ".0" else "")
      else "." ++ String.ofList fraction
    String.ofList (whole ++ zeros) ++ tail

/-- One digit, the others behind a point, and the magnitude as exponent. -/
def scientificText (f : NumberFormat) (d : Decimal) : String :=
  let digits := d.digits
  let fraction := digits.drop 1
  let mark := if f.signedExponent && 0 ≤ d.magnitude then "e+" else "e"
  String.ofList (digits.take 1) ++ (if fraction.isEmpty then "" else "." ++ String.ofList fraction)
    ++ mark ++ toString d.magnitude

/-- The text of a number in the format. Zero keeps its sign. -/
def render (f : NumberFormat) (x : Float) : String :=
  match Binary64.ofFloat x with
  | .nan => "NaN"
  | .infinite negative => if negative then "-inf" else "inf"
  | .finite negative mantissa exponent =>
    let d := Decimal.shortest f.tie mantissa exponent
    let text := if f.positional d.magnitude then f.positionalText d else f.scientificText d
    if negative then "-" ++ text else text

/-- Numbers in messages and displayed values never carry an exponent, and whole numbers no point. -/
def display : NumberFormat where
  positional _ := true
  pointZero := false
  signedExponent := false
  tie := .up

/-- Numbers in descriptions keep a point, and have an exponent below `0.0001` and from `1e16` on. -/
def descriptive : NumberFormat where
  positional e := -4 ≤ e && e < 16
  pointZero := true
  signedExponent := false
  tie := .up

/-- Numbers in JSON documents keep a point, and have a signed exponent below `0.00001` and from
`1e+16` on. -/
def document : NumberFormat where
  positional e := -5 ≤ e && e < 16
  pointZero := true
  signedExponent := true
  tie := .toEven

example : display.render 1e21 = "1000000000000000000000" := by decide +kernel
example : display.render (-0.0) = "-0" := by decide +kernel
example : display.render 1e-7 = "0.0000001" := by decide +kernel
example : document.render 1.5e300 = "1.5e+300" := by decide +kernel
example : document.render 0.00001 = "0.00001" := by decide +kernel
example : descriptive.render 1e16 = "1e16" := by decide +kernel
example : descriptive.render 2.98023223876953125e-8 = "2.9802322387695313e-8" := by decide +kernel

end NumberFormat

end GraphQL
