import DesignMetrics.Binary64.Rounding

/-!
# Binary64 numbers

The floating-point numbers of the metrics, as plain data: a finite number is a sign and a grid point
below the overflow threshold. Every operation is an exact integer computation followed by one
rounding, so its law is the rounding's law. There is no quotient by zero: an operation that divides
takes a proof that its divisor is positive, and its callers have that from the cases they exclude.
-/

namespace DesignMetrics

/-- The least number of units that is out of range: `2 ^ 1024`. -/
def Binary64.overflowUnits : Nat := 2 ^ (2098 : Nat)

/-- A finite magnitude: `units * 2 ^ -1074`. -/
structure Magnitude where
  units : Nat
  gridPoint : Binary64.GridPoint units
  units_lt : units < Binary64.overflowUnits
deriving DecidableEq

/-- Zero has a sign; there is one NaN. -/
inductive Binary64 where
  | finite (negative : Bool) (magnitude : Magnitude)
  | infinite (negative : Bool)
  | nan
deriving DecidableEq

namespace Binary64

/-- The grid point `units` with a sign, or an infinity from the overflow threshold on. -/
def ofUnits (negative : Bool) (units : Nat) (gridPoint : GridPoint units) : Binary64 :=
  if h : units < overflowUnits then .finite negative ⟨units, gridPoint, h⟩ else .infinite negative

/-- The number nearest to `± num / den` units. -/
def ofQuotient (negative : Bool) (num den : Nat) (_hden : 0 < den) : Binary64 :=
  ofUnits negative (roundQuotient num den) (gridPoint_roundQuotient num den)

/-- The number nearest to `√(num / den)` units. -/
def ofSqrt (num den : Nat) (_hden : 0 < den) : Binary64 :=
  ofUnits false (roundSqrt num den) (gridPoint_roundSqrt num den)

/-- The number nearest to `scaled` units; zero is positive. -/
def ofScaled (scaled : Int) : Binary64 := ofQuotient (scaled < 0) scaled.natAbs 1 Nat.one_pos

def unitsPerOne : Nat := 2 ^ (1074 : Nat)

theorem unitsPerOne_eq : unitsPerOne = 2 ^ (1074 : Nat) := rfl

theorem overflowUnits_eq : overflowUnits = 2 ^ (2098 : Nat) := rfl

-- sealed, so that no proof evaluates the two powers in passing
attribute [irreducible] overflowUnits unitsPerOne

theorem unitsPerOne_pos : 0 < unitsPerOne := by decide +kernel

theorem overflowUnits_pos : 0 < overflowUnits := by decide +kernel

def ofInt (n : Int) : Binary64 := ofQuotient (n < 0) (n.natAbs * unitsPerOne) 1 Nat.one_pos

/-- The number nearest to the quotient of an integer by a positive one; zero over it is positive. -/
def ofRatio (num den : Int) (hden : 0 < den) : Binary64 :=
  ofQuotient (num < 0) (num.natAbs * unitsPerOne) den.natAbs (Int.natAbs_pos.2 (Int.ne_of_gt hden))

def zero : Binary64 := ofInt 0
def one : Binary64 := ofInt 1

instance : Inhabited Binary64 := ⟨zero⟩

def isFinite : Binary64 → Bool
  | .finite _ _ => true
  | _ => false

/-- The value of a finite number in units, with its sign. -/
def scaled : Binary64 → Int
  | .finite false m => m.units
  | .finite true m => -m.units
  | _ => 0

/-- A position on the line that puts the infinities at its ends and NaN after everything. -/
def rank : Binary64 → Int
  | .finite negative m => (Binary64.finite negative m).scaled
  | .infinite true => -overflowUnits
  | .infinite false => overflowUnits
  | .nan => overflowUnits + 1

/-- The order of the line, in which the two zeros are equal. -/
def atMost (x y : Binary64) : Bool := decide (x.rank ≤ y.rank)

def below (x y : Binary64) : Bool := decide (x.rank < y.rank)

/-! ## Arithmetic -/

def neg : Binary64 → Binary64
  | .finite negative m => .finite (!negative) m
  | .infinite negative => .infinite (!negative)
  | .nan => .nan

def abs : Binary64 → Binary64
  | .finite _ m => .finite false m
  | .infinite _ => .infinite false
  | .nan => .nan

/-- The exact sum, rounded once. An exact zero is positive unless both terms are negative. -/
def add : Binary64 → Binary64 → Binary64
  | .finite true a, .finite true b => ofQuotient true (a.units + b.units) 1 Nat.one_pos
  | .finite s a, .finite t b =>
    ofScaled ((Binary64.finite s a).scaled + (Binary64.finite t b).scaled)
  | .infinite s, .infinite t => if s = t then .infinite s else .nan
  | .infinite s, .finite _ _ => .infinite s
  | .finite _ _, .infinite t => .infinite t
  | .nan, _ => .nan
  | _, .nan => .nan

def sub (x y : Binary64) : Binary64 := add x (neg y)

/-- The exact quotient by a positive natural number, rounded once. -/
def divNat (x : Binary64) (n : Nat) (hn : 0 < n) : Binary64 :=
  match x with
  | .finite s a => ofQuotient s a.units n hn
  | .infinite s => .infinite s
  | .nan => .nan

/-- The exact product, rounded once. An infinity has no product with zero. -/
def mul : Binary64 → Binary64 → Binary64
  | .finite s a, .finite t b => ofQuotient (s != t) (a.units * b.units) unitsPerOne unitsPerOne_pos
  | .finite s a, .infinite t => if a.units = 0 then .nan else .infinite (s != t)
  | .infinite s, .finite t b => if b.units = 0 then .nan else .infinite (s != t)
  | .infinite s, .infinite t => .infinite (s != t)
  | .nan, _ => .nan
  | _, .nan => .nan

instance : Neg Binary64 := ⟨neg⟩
instance : Add Binary64 := ⟨add⟩
instance : Sub Binary64 := ⟨sub⟩
instance : Mul Binary64 := ⟨mul⟩

/-! ## Interchange format -/

theorem gridPoint_subnormal {fraction : Nat} (h : fraction < 2 ^ (52 : Nat)) : GridPoint fraction :=
  ⟨fraction, 0, by omega, by simp⟩

theorem gridPoint_normal {fraction : Nat} (h : fraction < 2 ^ (52 : Nat)) (e : Nat) :
    GridPoint ((2 ^ (52 : Nat) + fraction) * 2 ^ e) :=
  ⟨2 ^ (52 : Nat) + fraction, e, by omega, rfl⟩

/-- The number with the given 64 bits: sign, eleven exponent bits, 52 fraction bits. -/
def ofBits (bits : UInt64) : Binary64 :=
  let negative := decide (2 ^ (63 : Nat) ≤ bits.toNat)
  let exponent := bits.toNat / 2 ^ (52 : Nat) % 2 ^ (11 : Nat)
  let fraction := bits.toNat % 2 ^ (52 : Nat)
  have h : fraction < 2 ^ (52 : Nat) := Nat.mod_lt _ (by decide)
  if exponent = 2047 then
    if fraction = 0 then .infinite negative else .nan
  else if exponent = 0 then ofUnits negative fraction (gridPoint_subnormal h)
  else ofUnits negative ((2 ^ (52 : Nat) + fraction) * 2 ^ (exponent - 1)) (gridPoint_normal h _)

/-- The bits of a number; NaN is written with the quiet bit alone. -/
def toBits : Binary64 → UInt64
  | .finite negative m =>
    let sign := if negative then 2 ^ (63 : Nat) else 0
    if m.units < 2 ^ (52 : Nat) then UInt64.ofNat (sign + m.units)
    else
      let e := gridExponent m.units
      UInt64.ofNat (sign + (e + 1) * 2 ^ (52 : Nat) + (m.units / 2 ^ e - 2 ^ (52 : Nat)))
  | .infinite negative =>
    UInt64.ofNat ((if negative then 2 ^ (63 : Nat) else 0) + 2047 * 2 ^ (52 : Nat))
  | .nan => UInt64.ofNat (2047 * 2 ^ (52 : Nat) + 2 ^ (51 : Nat))

end Binary64

end DesignMetrics
