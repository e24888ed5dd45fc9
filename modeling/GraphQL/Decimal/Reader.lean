/-!
# Reading numbers

`Decimal.toFloat` rounds a decimal correctly to binary64, with exponents of any size. `readFloat?`
accepts an optional sign, then `inf`, `infinity` or `nan` in any letter case, or digits with an
optional fraction and an optional exponent; at least one digit must stand before the exponent.
-/

namespace GraphQL

namespace Decimal

/-- The binary64 number nearest to `significand * 10 ^ exponent`; from halfway beyond the greatest
finite one on, infinity. Magnitudes out of reach are settled before any power is formed. -/
def toFloat (significand : Nat) (exponent : Int) : Float :=
  if significand = 0 then 0.0
  else
    let size : Int := (Nat.toDigits 10 significand).length + exponent
    if 400 < size then 1.0 / 0.0
    else if size < -400 then 0.0
    else Float.ofScientific significand (exponent < 0) exponent.natAbs

/-- The value of a row of decimal digits. -/
def ofDigits (digits : List Char) : Nat :=
  digits.foldl (fun n c => 10 * n + (c.toNat - '0'.toNat)) 0

/-- The digits in front of a text. -/
def leadingDigits (cs : List Char) : List Char :=
  cs.takeWhile Char.isDigit

/-- The text behind the digits in front of it. -/
def afterDigits (cs : List Char) : List Char :=
  cs.dropWhile Char.isDigit

theorem leadingDigits_append_afterDigits (cs : List Char) :
    leadingDigits cs ++ afterDigits cs = cs :=
  List.takeWhile_append_dropWhile

/-- Is there a minus in front of a text? -/
def isNegative (cs : List Char) : Bool :=
  cs.head? == some '-'

/-- The text behind the sign in front of it, if there is one. -/
def afterSign : List Char → List Char
  | '-' :: rest => rest
  | '+' :: rest => rest
  | cs => cs

/-- The integer of a sign, which may be left out, and a row of digits. -/
def ofSigned (negative : Bool) (digits : List Char) : Int :=
  if negative then -(ofDigits digits : Int) else ofDigits digits

/-- An exponent: a sign, which may be left out, and at least one digit; nothing may follow. -/
def exponent? (cs : List Char) : Option Int :=
  let digits := afterSign cs
  if digits.isEmpty || !digits.all Char.isDigit then none
  else some (ofSigned (isNegative cs) digits)

/-- What stands behind the digits in front of a number: a fraction, which may be empty, and an
exponent, both of which may be left out. -/
def unsignedTail? (whole fraction rest : List Char) : Option Float :=
  if whole.isEmpty && fraction.isEmpty then none
  else
    let exponent? : Option Int := match rest with
      | [] => some 0
      | c :: rest => if c = 'e' || c = 'E' then exponent? rest else none
    exponent?.map fun e => toFloat (ofDigits (whole ++ fraction)) (e - fraction.length)

/-- An unsigned number of digits, fraction and exponent. -/
def unsigned? (cs : List Char) : Option Float :=
  match afterDigits cs with
  | '.' :: rest => unsignedTail? (leadingDigits cs) (leadingDigits rest) (afterDigits rest)
  | rest => unsignedTail? (leadingDigits cs) [] rest

/-- The words for numbers that have no digits. -/
def word? (cs : List Char) : Option Float :=
  match String.ofList (cs.map Char.toLower) with
  | "inf" | "infinity" => some (1.0 / 0.0)
  | "nan" => some (0.0 / 0.0)
  | _ => none

/-- The number that a text spells. -/
def readFloat? (cs : List Char) : Option Float :=
  let body := afterSign cs
  let x? := (word? body).or (unsigned? body)
  if isNegative cs then x?.map Float.neg else x?

end Decimal

end GraphQL
