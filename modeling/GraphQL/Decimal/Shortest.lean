import GraphQL.Decimal.Binary64

/-!
# The shortest decimal that reads back

A binary64 number stands for the interval of reals that round to it. `readsBack` tests whether a
decimal lies in that interval, in exact arithmetic. `shortest` tries one grid of decimals after the
other, from the leading digit on: on each it looks at the two neighbours of the number, and the
first grid with a neighbour in the interval gives the digits. Of two such neighbours the nearer one
is taken; how an exact tie goes is for the format that writes the number.
-/

namespace GraphQL

/-- The number `significand * 10 ^ exponent`. -/
structure Decimal where
  significand : Nat
  exponent : Int
deriving Repr, DecidableEq

/-- Where a number halfway between two decimals of one grid goes. -/
inductive Tie where
  | toEven
  | up
deriving Repr, DecidableEq

namespace Decimal

open Binary64 (scale leadingOne)

/-- The digits of the significand, the leading one first. -/
def digits (d : Decimal) : List Char :=
  Nat.toDigits 10 d.significand

/-- The exponent `e` of the form `d.ddd * 10 ^ e`. -/
def magnitude (d : Decimal) : Int :=
  d.exponent + d.digits.length - 1

/-- Moves the trailing zeros of the significand into the exponent. -/
def normalize (significand : Nat) (exponent : Int) : Decimal :=
  if h : significand ≠ 0 ∧ significand % 10 = 0 then
    normalize (significand / 10) (exponent + 1)
  else ⟨significand, exponent⟩
termination_by significand
decreasing_by omega

/-- Compares `a * 10 ^ i` with `n * 2 ^ j`. -/
def compareBinary (a : Nat) (i : Int) (n : Nat) (j : Int) : Ordering :=
  compare (a * scale 10 i * scale 2 (-j)) (n * scale 2 j * scale 10 (-i))

/-- Does `a * 10 ^ i` round to `mantissa * 2 ^ exponent`? The interval reaches halfway to the
neighbours on both sides, and its ends belong to it when the mantissa is even. Below the least
mantissa of a binade the neighbours lie closer. -/
def readsBack (mantissa : Nat) (exponent : Int) (a : Nat) (i : Int) : Bool :=
  let below := if mantissa = leadingOne ∧ exponent ≠ -1074 then 1 else 2
  let low := compareBinary a i (4 * mantissa - below) (exponent - 2)
  let high := compareBinary a i (4 * mantissa + 2) (exponent - 2)
  if mantissa % 2 = 0 then low.isGE && high.isLE else low.isGT && high.isLT

/-- The greatest point of the grid of step `10 ^ i` that is at most `mantissa * 2 ^ exponent`, in
steps. -/
def gridFloor (mantissa : Nat) (exponent i : Int) : Nat :=
  mantissa * scale 2 exponent * scale 10 (-i) / (scale 2 (-exponent) * scale 10 i)

/-- The exponent of the leading digit of a positive number. -/
def leading (mantissa : Nat) (exponent : Int) : Int :=
  (Nat.toDigits 10 (gridFloor mantissa exponent (-400))).length - 401

/-- The nearer of the grid points `a` and `a + 1` of step `10 ^ i`. -/
def nearer (tie : Tie) (mantissa : Nat) (exponent : Int) (a : Nat) (i : Int) : Nat :=
  match compareBinary (2 * a + 1) i (2 * mantissa) exponent with
  | .gt => a
  | .lt => a + 1
  | .eq => match tie with
    | .up => a + 1
    | .toEven => a + a % 2

/-- The grid points next to the number that read back, and of two the nearer. -/
def onGrid? (tie : Tie) (mantissa : Nat) (exponent i : Int) : Option Decimal :=
  let a := gridFloor mantissa exponent i
  match readsBack mantissa exponent a i, readsBack mantissa exponent (a + 1) i with
  | true, true => some (normalize (nearer tie mantissa exponent a i) i)
  | true, false => some (normalize a i)
  | false, true => some (normalize (a + 1) i)
  | false, false => none

/-- Tries the grid of step `10 ^ i` and up to `more` finer ones; the last grid gives its nearest
point. -/
def search (tie : Tie) (mantissa : Nat) (exponent : Int) : (more : Nat) → (i : Int) → Decimal
  | 0, i => normalize (nearer tie mantissa exponent (gridFloor mantissa exponent i) i) i
  | more + 1, i =>
    (onGrid? tie mantissa exponent i).getD (search tie mantissa exponent more (i - 1))

/-- The shortest decimal that reads back as `mantissa * 2 ^ exponent`; seventeen digits always
do. -/
def shortest (tie : Tie) (mantissa : Nat) (exponent : Int) : Decimal :=
  if mantissa = 0 then ⟨0, 0⟩
  else search tie mantissa exponent 16 (leading mantissa exponent)

end Decimal

end GraphQL
