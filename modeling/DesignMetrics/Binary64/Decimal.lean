import DesignMetrics.Binary64.Basic

/-!
# Decimal text of binary64 numbers

A number is written with the fewest significant digits that read back to it, and of those with the
digits nearest to its value. The digits stand positionally while the exponent of the first one is
from -4 to 15, with at least one digit on each side of the point, and otherwise before a signed
exponent of at least two digits.
-/

namespace DesignMetrics.Binary64

/-- The decimal `digits * 10 ^ exponent`. -/
structure Decimal where
  digits : Nat
  exponent : Int
deriving DecidableEq

namespace Decimal

/-- The value in units, as a numerator and a denominator. -/
def ratio (d : Decimal) : Nat × Nat :=
  match d.exponent with
  | .ofNat e => (d.digits * 10 ^ e * unitsPerOne, 1)
  | .negSucc e => (d.digits * unitsPerOne, 10 ^ (e + 1))

theorem ratio_den_pos (d : Decimal) : 0 < d.ratio.2 := by
  unfold ratio
  split
  · exact Nat.one_pos
  · exact Nat.pow_pos (by decide)

/-- Whether the number of units nearest to the decimal is `units`. -/
def readsBack (d : Decimal) (units : Nat) : Bool :=
  roundQuotient d.ratio.1 d.ratio.2 == units

/-- How many times `10 ^ exponent` goes into a number of units. -/
def floorDigits (units : Nat) : Int → Nat
  | .ofNat e => units / (unitsPerOne * 10 ^ e)
  | .negSucc e => units * 10 ^ (e + 1) / unitsPerOne

/-- The least `k` with `units` below `10 ^ k`, for a positive number of units. -/
def scale (units : Nat) : Int :=
  (Nat.toDigits 10 (units * 10 ^ (350 : Nat) / unitsPerOne)).length - 350

/-- Of the decimals `low` and `low + 1` at one exponent that read back, the one nearer to the value;
halfway between them, the even one. -/
def nearer (units low : Nat) (exponent : Int) : Option Decimal :=
  let below : Decimal := ⟨low, exponent⟩
  let above : Decimal := ⟨low + 1, exponent⟩
  match below.readsBack units, above.readsBack units with
  | false, false => none
  | true, false => some below
  | false, true => some above
  | true, true =>
    let middle := (Decimal.mk (2 * low + 1) exponent).ratio
    if 2 * units * middle.2 < middle.1 then some below
    else if middle.1 < 2 * units * middle.2 then some above
    else if low % 2 = 0 then some below
    else some above

/-- The same value without zeros at the end of its digits. -/
def strip (d : Decimal) : Decimal :=
  if d.digits ≠ 0 ∧ d.digits % 10 = 0 then strip ⟨d.digits / 10, d.exponent + 1⟩ else d
termination_by d.digits
decreasing_by omega

/-- The shortest decimal that reads back to a positive number of units. Seventeen digits are enough;
the exact value stands behind the search. -/
def shortest (units : Nat) : Decimal :=
  let k := scale units
  let candidate (count : Nat) : Option Decimal :=
    let exponent := k - count
    nearer units (floorDigits units exponent) exponent
  match (List.range' 1 17).findSome? candidate with
  | some d => d.strip
  | none => strip ⟨units * 5 ^ (1074 : Nat), -1074⟩

def zeros (count : Nat) : String := "".pushn '0' count

/-- The text of a decimal exponent: a sign and at least two digits. -/
def exponentText (e : Int) : String :=
  let magnitude := toString e.natAbs
  (if e < 0 then "-" else "+") ++ (if e.natAbs < 10 then "0" ++ magnitude else magnitude)

def text (d : Decimal) : String :=
  let digits := toString d.digits
  let point := d.exponent + digits.length
  if -4 < point ∧ point ≤ 16 then
    if point ≤ 0 then "0." ++ zeros (-point).toNat ++ digits
    else if digits.length ≤ point then digits ++ zeros (point.toNat - digits.length) ++ ".0"
    else (digits.take point.toNat).toString ++ "." ++ (digits.drop point.toNat).toString
  else
    let rest := (digits.drop 1).toString
    (digits.take 1).toString ++ (if rest.isEmpty then "" else "." ++ rest) ++ "e"
      ++ exponentText (point - 1)

/-- The number nearest to a decimal with a sign. Beyond the exponents where every decimal is out of
range, or less than half a unit, the powers of ten are not computed. -/
def value (d : Decimal) (negative : Bool) : Binary64 :=
  let point := d.exponent + (Nat.toDigits 10 d.digits).length
  if d.digits = 0 ∨ point < -400 then ofQuotient negative 0 1 Nat.one_pos
  else if 400 < point then .infinite negative
  else ofQuotient negative d.ratio.1 d.ratio.2 d.ratio_den_pos

end Decimal

def text : Binary64 → String
  | .finite negative m =>
    (if negative then "-" else "") ++
      (if m.units = 0 then "0.0" else (Decimal.shortest m.units).text)
  | .infinite negative => if negative then "-inf" else "inf"
  | .nan => "nan"

end DesignMetrics.Binary64
