import ApiTypes.Json.Basic
import ApiTypes.Text.Basic

/-!
  What YAML scalars stand for.

  * **Without a tag** a plain scalar is null, a boolean, an integer or a float if it is written
    like one, and else a text. A number of several digits that starts with zero is a text.
  * **With a tag** of one of these kinds a scalar must be written like that kind, in any style.
  * Integers that fit 128 bits must fit 64 bits; a larger one is read as a float.
  * Infinities and NaN become null.
-/

namespace ApiTypes.Yaml.Scalar

/-! ## 1. Words -/

/-- Whether this is a word for null. -/
def isNull (text : String) : Bool := ["null", "Null", "NULL", "~"].contains text

/-- The boolean of a word. -/
def bool? (text : String) : Option Bool :=
  if ["true", "True", "TRUE"].contains text then some true
  else if ["false", "False", "FALSE"].contains text then some false
  else none

/-! ## 2. Integers -/

/-- The value of a digit in a base up to sixteen. -/
def digit? (base : Nat) (c : Char) : Option Nat :=
  let value? :=
    if c.isDigit then some (c.toNat - '0'.toNat)
    else if 'a' ≤ c ∧ c ≤ 'f' then some (c.toNat - 'a'.toNat + 10)
    else if 'A' ≤ c ∧ c ≤ 'F' then some (c.toNat - 'A'.toNat + 10)
    else none
  value?.filter (· < base)

/-- The value of one or more digits. -/
def digits? (base : Nat) (digits : List Char) : Option Nat :=
  if digits.isEmpty then none
  else digits.foldlM (fun value c => (digit? base c).map (value * base + ·)) 0

/-- Whether digits are too many to start with zero. -/
def hasLeadingZero : List Char → Bool
  | '0' :: c :: rest => (c :: rest).all Char.isDigit
  | _ => false

/-- The value of digits after a mark of their base, or of decimal digits. -/
def natural? : List Char → Option Nat
  | '0' :: 'x' :: digits => digits? 16 digits
  | '0' :: 'o' :: digits => digits? 8 digits
  | '0' :: 'b' :: digits => digits? 2 digits
  | digits => if hasLeadingZero digits then none else digits? 10 digits

/-- The value of an integer, which may have a sign. -/
def integer? : List Char → Option Int
  | '+' :: digits => (natural? digits).map Int.ofNat
  | '-' :: digits => (natural? digits).map fun n => -Int.ofNat n
  | digits => (natural? digits).map Int.ofNat

/-- Whether an integer fits 128 bits. -/
def fitsWide (n : Int) : Bool := -Int.pow 2 127 ≤ n && n < Int.pow 2 128

/-- Whether an integer fits 64 bits. -/
def fits (n : Int) : Bool := -Int.pow 2 63 ≤ n && n < Int.pow 2 64

/-! ## 3. Floats -/

/-- A power of ten beyond which no float but zero is in range. -/
def floatRange : Int := 400

/-- The float that is nearest to a decimal number; nothing when that is infinite. -/
def nearestFloat? (negative : Bool) (digits : List Char) (exponent : Int) : Option Float :=
  let significand := (digits? 10 digits).getD 0
  let top : Int := exponent + (Nat.toDigits 10 significand).length
  let size :=
    if significand = 0 || top < -floatRange then 0.0
    else if floatRange < top then 1.0 / 0.0
    else Float.ofScientific significand (exponent < 0) exponent.natAbs
  if size.isInf then none else some (if negative then -size else size)

/-- The exponent of a float, when this is one. -/
def exponent? : List Char → Option Int
  | [] => some 0
  | mark :: digits => if mark = 'e' || mark = 'E' then signed digits else none
where
  /-- The value of an exponent, which may have a sign. -/
  signed : List Char → Option Int
    | '+' :: digits => (digits? 10 digits).map Int.ofNat
    | '-' :: digits => (digits? 10 digits).map fun n => -Int.ofNat n
    | digits => (digits? 10 digits).map Int.ofNat

/-- The value of a float without a sign: digits, a point among or around them, and an exponent. -/
def unsignedFloat? (negative : Bool) (text : List Char) : Option Float :=
  let whole := text.takeWhile Char.isDigit
  let rest := text.drop whole.length
  let (fraction, rest) := match rest with
    | '.' :: after => (after.takeWhile Char.isDigit, after.dropWhile Char.isDigit)
    | _ => ([], rest)
  if whole.isEmpty && fraction.isEmpty then none
  else do
    let exponent ← exponent? rest
    nearestFloat? negative (whole ++ fraction) (exponent - fraction.length)

/-- The words for infinities and NaN. -/
def unbounded : List String :=
  [".inf", ".Inf", ".INF", "+.inf", "+.Inf", "+.INF", "-.inf", "-.Inf", "-.INF", ".nan", ".NaN",
    ".NAN"]

/-- The value of a float, which may have a sign. -/
def float? (text : String) : Option Json :=
  if unbounded.contains text then some .null
  else
    match text.toList with
    | '+' :: rest => (unsignedFloat? false rest).map Json.float
    | '-' :: rest => (unsignedFloat? true rest).map Json.float
    | rest => (unsignedFloat? false rest).map Json.float

/-! ## 4. Values -/

/-- The value of a scalar that is written like an integer. -/
def integerValue? (n : Int) : Option Json := if fits n then some (.int n) else none

/-- The value of a plain scalar without a tag; nothing when it is an integer out of range. -/
def plainValue? (text : String) : Option Json :=
  if text.isEmpty || isNull text then some .null
  else
    match bool? text with
    | some b => some (.bool b)
    | none =>
      match (integer? text.toList).filter fitsWide with
      | some n => integerValue? n
      | none =>
        if hasLeadingZero (unsigned text.toList) then some (.str text)
        else some ((float? text).getD (.str text))
where
  /-- A number without its sign. -/
  unsigned : List Char → List Char
    | '+' :: rest | '-' :: rest => rest
    | text => text

/-- The value of a scalar with a tag; nothing when it is not written as the tag says. -/
def taggedValue? (tag text : String) : Option Json :=
  if Text.startsWith "!" tag then none
  else
    match tag with
    | "tag:yaml.org,2002:null" => if isNull text then some .null else none
    | "tag:yaml.org,2002:bool" => (bool? text).map Json.bool
    | "tag:yaml.org,2002:int" =>
      ((integer? text.toList).filter fitsWide).bind integerValue?
    | "tag:yaml.org,2002:float" => float? text
    | _ => some (.str text)

/-- The value of a scalar; nothing when it has none. -/
def value? (tag : Option String) (text : String) (plain : Bool) : Option Json :=
  match tag with
  | some tag => taggedValue? tag text
  | none => if plain then plainValue? text else some (.str text)

end ApiTypes.Yaml.Scalar
