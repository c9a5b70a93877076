import ApiTypes.Json.Basic

/-!
  The value of a number literal.

  A literal without point and exponent is an integer as long as it lies between -2^63 and
  2^64 - 1. Every other literal is a float, computed from a significand of at most 64 bits and a
  power of ten:

  * digits are taken into the significand while it fits 64 bits; after that a digit before the
    point only raises the exponent and a digit after it is dropped;
  * the significand, rounded to a float, is multiplied or divided by the power of ten, in steps
    of 10^308 where the exponent is out of a float's range.
-/

namespace ApiTypes.Json

/-- What has been read of a number: `significand * 10 ^ exponent`. `full` says that the
    significand takes no more digits. -/
structure Magnitude where
  significand : Nat := 0
  exponent : Int := 0
  full : Bool := false
  deriving DecidableEq, Repr

/-- The value of a decimal digit. -/
def digitValue (c : Char) : Nat := c.toNat - '0'.toNat

/-- The significand with one more digit, if it still fits 64 bits. -/
def Magnitude.push? (m : Magnitude) (c : Char) : Option Nat :=
  let next := m.significand * 10 + digitValue c
  if next < Nat.pow 2 64 then some next else none

/-- A digit before the point. -/
def Magnitude.whole (m : Magnitude) (c : Char) : Magnitude :=
  match m.full, m.push? c with
  | false, some next => { m with significand := next }
  | _, _ => { m with exponent := m.exponent + 1, full := true }

/-- A digit after the point. -/
def Magnitude.fraction (m : Magnitude) (c : Char) : Magnitude :=
  match m.full, m.push? c with
  | false, some next => { m with significand := next, exponent := m.exponent - 1 }
  | _, _ => { m with full := true }

/-- The digits before the point, or all digits of an integer. -/
def Magnitude.ofWhole (digits : List Char) : Magnitude :=
  digits.foldl Magnitude.whole {}

/-- Adds the digits after the point. A point opens the significand again: digits that still fit
    are taken. -/
def Magnitude.addFraction (m : Magnitude) (digits : List Char) : Magnitude :=
  digits.foldl Magnitude.fraction { m with full := false }

/-- A power of ten as a float. -/
def powerOfTen (n : Nat) : Float := Float.ofScientific 1 false n

/-- The steps that divide by 10^308 until the exponent is in range or the value is zero. -/
def divideDown : Nat → Float → Nat → Float
  | 0, f, _ => f
  | steps + 1, f, n =>
    if n ≤ 308 then f / powerOfTen n
    else if f == 0 then f
    else divideDown steps (f / powerOfTen 308) (n - 308)

/-- The float of a magnitude; nothing when it is out of range. -/
def Magnitude.toFloat? (m : Magnitude) : Option Float :=
  let f := (UInt64.ofNat m.significand).toFloat
  if m.exponent < 0 then
    let n := m.exponent.natAbs
    some (divideDown (n / 308 + 1) f n)
  else if m.exponent ≤ 308 then
    let product := f * powerOfTen m.exponent.toNat
    if product.isInf then none else some product
  else if f == 0 then some f
  else none

/-- The value of a literal without point and exponent. The negative zero and integers out of
    range are floats. -/
def Magnitude.toInteger? (m : Magnitude) (negative : Bool) : Option Json :=
  if m.exponent ≠ 0 then none
  else if negative then
    if 0 < m.significand ∧ m.significand ≤ Nat.pow 2 63 then some (.int (-(m.significand : Int)))
    else none
  else some (.int m.significand)

/-- The float of a magnitude with its sign. -/
def Magnitude.signed? (m : Magnitude) (negative : Bool) : Option Json :=
  m.toFloat?.map fun f => .float (if negative then -f else f)

/-- The value of an integer literal. -/
def Magnitude.integerValue? (m : Magnitude) (negative : Bool) : Option Json :=
  match m.toInteger? negative with
  | some value => some value
  | none => m.signed? negative

end ApiTypes.Json
