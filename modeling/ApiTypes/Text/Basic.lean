/-!
  Cutting text.

  Texts are cut as lists of characters. `after?` takes a given start off, `trim` takes white space
  off both ends; white space is the Unicode property of that name, not only its ASCII part.
-/

namespace ApiTypes.Text

/-- What follows a given start. -/
def after? : List Char → List Char → Option (List Char)
  | [], text => some text
  | _ :: _, [] => none
  | c :: start, d :: text => if c = d then after? start text else none

theorem after?_append (start text : List Char) : after? start (start ++ text) = some text := by
  induction start with
  | nil => rfl
  | cons c start ih => simpa [after?] using ih

theorem eq_append_of_after? {start text rest : List Char} (h : after? start text = some rest) :
    text = start ++ rest := by
  induction start generalizing text with
  | nil => simpa [after?] using h
  | cons c start ih =>
    cases text with
    | nil => simp [after?] at h
    | cons d text =>
      by_cases hc : c = d
      · subst hc
        simp only [after?, if_true] at h
        simp [ih h]
      · simp [after?, hc] at h

/-- Whether a text starts like this. -/
def startsWith (start text : String) : Bool := (after? start.toList text.toList).isSome

/-- Whether a text ends like this. -/
def endsWith (ending text : String) : Bool :=
  (after? ending.toList.reverse text.toList.reverse).isSome

/-- The characters with the Unicode property White_Space. -/
def isSpace (c : Char) : Bool :=
  let n := c.toNat
  (9 ≤ n && n ≤ 13) || n = 0x20 || n = 0x85 || n = 0xA0 || n = 0x1680 ||
    (0x2000 ≤ n && n ≤ 0x200A) || n = 0x2028 || n = 0x2029 || n = 0x202F || n = 0x205F ||
    n = 0x3000

/-- A text without the white space at its start. -/
def trimStart (text : List Char) : List Char := text.dropWhile isSpace

/-- A text without the white space at its ends. -/
def trim (text : List Char) : List Char := (trimStart (trimStart text).reverse).reverse

/-- The part of a text before the first such character. -/
def before (mark : Char) (text : List Char) : List Char := text.takeWhile (· ≠ mark)

/-- A media type without its parameters. -/
def mediaEssence (media : String) : String := String.ofList (trim (before ';' media.toList))

/-- Whether a media type is JSON or a format built on it. -/
def isJsonMedia (media : String) : Bool :=
  let essence := mediaEssence media
  essence = "application/json" || endsWith "+json" essence

end ApiTypes.Text
