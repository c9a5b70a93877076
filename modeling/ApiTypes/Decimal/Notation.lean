import ApiTypes.Decimal.Shortest

/-!
  Ways to write a float in decimal.

  A `Notation` record fixes what the shortest digits leave open: which exponents are written out
  in full, whether a whole number keeps a digit after the point, and which way a tie goes.
-/

namespace ApiTypes.Decimal

/-- How a float is written. -/
structure Form where
  /-- The range of leading exponents that are written without an exponent; `none` for all. -/
  positional : Option (Int × Int)
  /-- Whether a whole number written without an exponent ends in `.0`. -/
  pointZero : Bool
  /-- Which of two equally near shortest decimals is taken. -/
  tie : Tie

/-- The text of numbers in JSON: in full from 0.00001 up to sixteen digits before the point, with
    at least one digit after it, and with an exponent outside that range. -/
def jsonForm : Form := ⟨some (-5, 15), true, .toEven⟩

/-- The text of bounds in validation tags: always in full, with no point in a whole number. -/
def tagForm : Form := ⟨none, false, .up⟩

/-- The digits with the point after the leading exponent, padded with zeros where digits are
    missing. -/
def positionalText (pointZero : Bool) (digits : List Char) (leading : Int) : List Char :=
  if leading < 0 then
    '0' :: '.' :: (List.replicate ((-leading).toNat - 1) '0' ++ digits)
  else
    let whole := leading.toNat + 1
    let padded := digits ++ List.replicate (whole - digits.length) '0'
    let fraction := padded.drop whole
    padded.take whole ++
      (if fraction.isEmpty then (if pointZero then ['.', '0'] else []) else '.' :: fraction)

/-- One digit, the other digits after the point, and the signed exponent. -/
def scientificText (digits : List Char) (leading : Int) : List Char :=
  let head := digits.take 1
  let tail := digits.drop 1
  let sign := if leading < 0 then '-' else '+'
  head ++ (if tail.isEmpty then [] else '.' :: tail) ++
    'e' :: sign :: Nat.toDigits 10 leading.natAbs

/-- The text of a float that is not negative. -/
def Form.magnitude (form : Form) (x : Float) : List Char :=
  match Binary.ofFloat? x with
  | none => if form.pointZero then ['0', '.', '0'] else ['0']
  | some b =>
    let d := shortest form.tie b
    let digits := Nat.toDigits 10 d.coefficient
    let leading := d.exponent + digits.length - 1
    let inFull := match form.positional with
      | none => true
      | some (least, most) => decide (least ≤ leading ∧ leading ≤ most)
    if inFull then positionalText form.pointZero digits leading else scientificText digits leading

/-- The text of a finite float; the negative zero keeps its sign. -/
def Form.write (form : Form) (x : Float) : String :=
  String.ofList ((if isNegative x then ['-'] else []) ++ form.magnitude x)

end ApiTypes.Decimal
