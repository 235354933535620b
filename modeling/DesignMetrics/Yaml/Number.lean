import DesignMetrics.Binary64.Decimal
import DesignMetrics.Yaml.Kind

/-!
# Values of numbers

How the text of a number is read once it is known to be one. That its kind may have been declared
makes the reading wider than the forms that plain scalars are recognised by: there may be space
around the digits, several signs, parts of any size between colons, and digits of any script.
-/

namespace DesignMetrics.Yaml.Number

def withoutUnderscores (s : List Char) : List Char := s.filter (· != '_')

/-- The letter that may mark a base behind a zero. -/
def baseLetter? (base : Nat) : Option Char :=
  if base = 2 then some 'b' else if base = 8 then some 'o' else if base = 16 then some 'x' else none

/-- Digits without the mark of their base. -/
def withoutMark (base : Nat) : List Char → List Char
  | '0' :: letter :: rest =>
    if baseLetter? base = some letter.toLower then rest else '0' :: letter :: rest
  | s => s

/-- Digits of a base with a sign; only the number of decimal ones is limited. -/
def integerOf (base : Nat) (s : List Char) : Except Defect Int :=
  let (negative, body) := Text.signed (Text.numberText s)
  let digits := withoutMark base body
  if digits.isEmpty || !digits.all fun c => Text.isHexDigit c && Text.hexDigitValue c < base then
    .error .noNumber
  else if base = 10 ∧ Text.maxDecimalDigits < digits.length then .error .longNumber
  else
    let magnitude : Int := Text.digitsValue base digits
    .ok (if negative then -magnitude else magnitude)

theorem withoutMark_ten (s : List Char) : withoutMark 10 s = s := by
  unfold withoutMark
  split
  · simp [baseLetter?]
  · rfl

/-- Decimal digits are read as their value, unless there are too many. -/
theorem integerOf_ten {s : List Char} (hne : s ≠ []) (h : ∀ c ∈ s, c.isDigit = true)
    (hlen : s.length ≤ Text.maxDecimalDigits) :
    integerOf 10 s = .ok (Text.digitsValue 10 s) := by
  have hall : (s.all fun c => Text.isHexDigit c && decide (Text.hexDigitValue c < 10)) = true := by
    rw [List.all_eq_true]
    intro c hc
    have hd := h c hc
    have hrange : 48 ≤ c.toNat ∧ c.toNat ≤ 57 := by
      simpa [Char.isDigit, UInt32.le_iff_toNat_le] using hd
    simp [Text.isHexDigit, Text.hexDigitValue, hd]
    omega
  have hempty : s.isEmpty = false := by simpa using hne
  simp only [integerOf, Text.numberText_of_isDigit h, Text.signed_of_isDigit h, withoutMark_ten,
    hall, hempty]
  simp [Nat.not_lt.2 hlen]

/-- The integer behind a sign. -/
def magnitude : List Char → Except Defect Int
  | [] => .error .emptyNumber
  | '0' :: 'b' :: digits => integerOf 2 digits
  | '0' :: 'x' :: digits => integerOf 16 digits
  | '0' :: digits => integerOf 8 ('0' :: digits)
  | s =>
    if s.contains ':' then do
      let parts ← (Kind.colonParts s).mapM (integerOf 10)
      return parts.foldl (60 * · + ·) 0
    else integerOf 10 s

def integer (s : List Char) : Except Defect Int := do
  let (negative, body) := Text.signed (withoutUnderscores s)
  let n ← magnitude body
  return if negative then -n else n

/-! ## Real numbers -/

/-- The exponent of a real number; there may be none. -/
def exponent? : List Char → Option Int
  | [] => some 0
  | e :: rest =>
    let (negative, digits) := Text.signed rest
    if e = 'e' ∧ digits ≠ [] ∧ digits.all Char.isDigit then
      let magnitude : Int := Text.digitsValue 10 digits
      some (if negative then -magnitude else magnitude)
    else none

/-- Digits with a sign, a point and an exponent, or the name of an infinity or of NaN. -/
def realOf (s : List Char) : Except Defect Binary64 :=
  let (negative, body) := Text.signed (Text.numberText s)
  if ["inf", "infinity"].contains (String.ofList body) then .ok (.infinite negative)
  else if String.ofList body = "nan" then .ok .nan
  else
    let whole := body.takeWhile Char.isDigit
    let rest := body.dropWhile Char.isDigit
    let tail := if rest.head? = some '.' then rest.drop 1 else []
    let fraction := tail.takeWhile Char.isDigit
    let behind := if rest.head? = some '.' then tail.dropWhile Char.isDigit else rest
    let digits := whole ++ fraction
    match exponent? behind with
    | some exponent =>
      if digits.isEmpty then .error .noNumber
      else
        .ok ((Binary64.Decimal.mk (Text.digitsValue 10 digits) (exponent - fraction.length)).value
          negative)
    | none => .error .noNumber

/-- The sum of digits of base 60, the last one first, that goes on from a sum and a power of 60.
Every step is rounded. -/
def sexagesimal (sum : Binary64) (power : Nat) : List Binary64 → Except Defect Binary64
  | [] => .ok sum
  | digit :: rest =>
    let weight := Binary64.ofInt power
    if weight.isFinite then sexagesimal (sum + digit * weight) (60 * power) rest
    else .error .outOfRange

/-- What the text of a real number is read by. -/
def realText (s : List Char) : List Char := (withoutUnderscores s).map Char.toLower

/-- Whether a text is the name of NaN, with or without a sign. -/
def namesNaN (s : List Char) : Bool := String.ofList (Text.signed (realText s)).2 = ".nan"

def real (s : List Char) : Except Defect Binary64 := do
  let lower := realText s
  if lower.isEmpty then throw .emptyNumber
  let (negative, body) := Text.signed lower
  let x ←
    if String.ofList body = ".inf" then pure (.infinite false)
    else if namesNaN s then pure .nan
    else if body.contains ':' then do
      let parts ← (Kind.colonParts body).mapM realOf
      sexagesimal .zero 1 parts.reverse
    else realOf body
  return if negative then -x else x

end DesignMetrics.Yaml.Number
