/-!
  The shortest decimal of a binary float.

  A finite float stands for every real number that rounds to it. Of the decimals in that
  interval, the ones with the fewest digits are taken, and of those the nearest to the float.

  * `Binary` is a positive finite float as a whole number times a power of two, read from its
    bits; the interval reaches half a gap to each side, and its ends belong to it exactly when
    the whole number is even.
  * `shortest` tries one digit, two digits and so on. On each grid only the two neighbours of the
    float need to be tried: if any point of the grid lies in the interval, one of them does.
-/

namespace ApiTypes.Decimal

/-- A positive float `mantissa * 2 ^ exponent`. `narrow` says that the gap below it is half the
    gap above, as it is at a power of two. -/
structure Binary where
  mantissa : Nat
  exponent : Int
  narrow : Bool
  deriving DecidableEq, Repr

/-- A decimal `coefficient * 10 ^ exponent`. -/
structure Scaled where
  coefficient : Nat
  exponent : Int
  deriving DecidableEq, Repr

/-- Which of two equally near decimals is taken. -/
inductive Tie where
  | toEven
  | up
  deriving DecidableEq, Repr

/-! ## 1. The bits of a float -/

/-- Whether the sign bit is set; it is for the negative zero too. -/
def isNegative (x : Float) : Bool := x.toBits >>> 63 == 1

/-- The size of a finite float that is not zero. -/
def Binary.ofFloat? (x : Float) : Option Binary :=
  let bits := x.toBits.toNat
  let biased : Nat := bits / Nat.pow 2 52 % Nat.pow 2 11
  let fraction : Nat := bits % Nat.pow 2 52
  if biased = 2047 then none
  else if biased = 0 then
    if fraction = 0 then none else some ⟨fraction, -1074, false⟩
  else some ⟨Nat.pow 2 52 + fraction, (biased : Int) - 1075, fraction = 0 ∧ 1 < biased⟩

/-! ## 2. The interval that rounds to a float -/

/-- The interval of a float in quarters of its unit in the last place: the ends and the value
    as numerators over one denominator. -/
structure Interval where
  low : Nat
  value : Nat
  high : Nat
  denominator : Nat
  closed : Bool

/-- The interval of the reals that round to this float. -/
def Binary.interval (b : Binary) : Interval :=
  let power := b.exponent - 2
  let up := Nat.pow 2 power.toNat
  { low := (4 * b.mantissa - if b.narrow then 1 else 2) * up
    value := 4 * b.mantissa * up
    high := (4 * b.mantissa + 2) * up
    denominator := Nat.pow 2 (-power).toNat
    closed := b.mantissa % 2 = 0 }

/-- How many decimal digits a number has; zero has one. -/
def digitCount (n : Nat) : Nat := (Nat.toDigits 10 n).length

/-- The exponent of the leading decimal digit of the fraction `a / b`. -/
def leadingExponent (a b : Nat) : Int :=
  if b ≤ a then (digitCount (a / b) : Int) - 1
  else
    let places := digitCount (b / a)
    if b ≤ a * Nat.pow 10 (places - 1) then -((places : Int) - 1) else -(places : Int)

/-- Whether `numerator / unit` counts as inside, given the ends over the same unit. -/
def Interval.holds (i : Interval) (low numerator high : Nat) : Bool :=
  if i.closed then low ≤ numerator && numerator ≤ high
  else low < numerator && numerator < high

/-- The point of the grid of multiples of `10 ^ exponent` that is taken for the interval's value,
    if one of the value's two neighbours lies in the interval. -/
def Interval.point? (i : Interval) (tie : Tie) (exponent : Int) : Option Nat :=
  let scale := Nat.pow 10 (-exponent).toNat
  let unit := Nat.pow 10 exponent.toNat * i.denominator
  let value := i.value * scale
  let below := value / unit
  let above := below + 1
  let inside (d : Nat) := i.holds (i.low * scale) (d * unit) (i.high * scale)
  match inside below, inside above with
  | true, true =>
    let down := value - below * unit
    let up := above * unit - value
    if down < up then some below
    else if up < down then some above
    else match tie with
      | .up => some above
      | .toEven => if below % 2 = 0 then some below else some above
  | true, false => some below
  | false, true => some above
  | false, false => none

/-! ## 3. The shortest decimal -/

/-- Drops the zeros at the end of a coefficient. -/
def Scaled.trim (d : Scaled) : Scaled :=
  let digits := (Nat.toDigits 10 d.coefficient).reverse
  let zeros := (digits.takeWhile (· = '0')).length
  if d.coefficient = 0 then d else ⟨d.coefficient / Nat.pow 10 zeros, d.exponent + zeros⟩

/-- The first grid, from one digit on, that has a point in the interval. Seventeen digits always
    suffice. -/
def shortest (tie : Tie) (b : Binary) : Scaled :=
  let i := b.interval
  let leading := leadingExponent i.value i.denominator
  let grid (digits : Nat) : Option Scaled :=
    let exponent := leading - digits
    (i.point? tie exponent).map (⟨·, exponent⟩)
  match (List.range 18).findSome? grid with
  | some d => d.trim
  | none => ⟨b.mantissa, b.exponent⟩

end ApiTypes.Decimal
