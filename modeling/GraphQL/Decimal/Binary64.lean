/-!
# Binary64 numbers taken apart

A finite number is `± mantissa * 2 ^ exponent` with a natural mantissa, so it is compared with
decimals exactly, over the naturals. `Binary64.toInt?` is the integer that a number is, if it is
one.
-/

namespace GraphQL

/-- What the bits of a binary64 number stand for. -/
inductive Binary64 where
  | nan
  | infinite (negative : Bool)
  | finite (negative : Bool) (mantissa : Nat) (exponent : Int)
deriving Repr, DecidableEq

namespace Binary64

/-- The weight of the implicit leading one of a mantissa, which is the fifty-second power of two. -/
def leadingOne : Nat :=
  0x10000000000000

/-- Splits the bits into sign, exponent and fraction; numbers below the normal range have no
implicit leading one. -/
def ofBits (bits : Nat) : Binary64 :=
  let negative := bits.testBit 63
  let field : Nat := bits / leadingOne % 2048
  let fraction := bits % leadingOne
  if field = 2047 then
    if fraction = 0 then .infinite negative else .nan
  else if field = 0 then .finite negative fraction (-1074)
  else .finite negative (fraction + leadingOne) ((field : Int) - 1075)

/-- The number that a float stands for. -/
def ofFloat (x : Float) : Binary64 :=
  ofBits x.toBits.toNat

/-- The power of a base whose exponent is `k`, or 1 if `k` is negative. With `scale base (-k)` on
the other side of a comparison it stands for the power in either case. -/
def scale (base : Nat) (k : Int) : Nat :=
  Nat.pow base k.toNat

/-- The natural number that `mantissa * 2 ^ exponent` is, if it is one. -/
def natural? (mantissa : Nat) (exponent : Int) : Option Nat :=
  let unit := scale 2 (-exponent)
  if mantissa % unit = 0 then some (mantissa / unit * scale 2 exponent) else none

/-- The integer that the number is, if it is one; both zeros are the integer zero. -/
def toInt? : Binary64 → Option Int
  | .nan | .infinite _ => none
  | .finite negative mantissa exponent =>
    (natural? mantissa exponent).map fun n => if negative then -(n : Int) else n

example : (ofFloat 3.0).toInt? = some 3 := by decide +kernel
example : (ofFloat (-0.0)).toInt? = some 0 := by decide +kernel
example : (ofFloat 1.5).toInt? = none := by decide +kernel

end Binary64

end GraphQL
