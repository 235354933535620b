import DesignMetrics.Fault

/-!
# Descriptive statistics

Mean, median and standard deviations of a sample. Every value becomes a binary64 number first; from
there on sums are exact, and each result is rounded as few times as its definition allows.
-/

namespace DesignMetrics.Statistics

inductive Observation where
  | integer (value : Int)
  | real (value : Binary64)
  | missing

def inRange (x : Binary64) : Except Fault Binary64 :=
  if x.isFinite then .ok x else .error .outOfRange

def Observation.toNumber : Observation → Except Fault Binary64
  | integer n => inRange (.ofInt n)
  | real x => .ok x
  | missing => .error .missingNumber

/-- The numbers of a required list of observations; the first one that is no number decides the
fault. -/
def sample (values : Option (List Observation)) : Except Fault (List Binary64) := do
  let observations ← require values "values"
  observations.mapM Observation.toNumber

/-! ## Mean -/

/-- The grid value nearest to a number of units. -/
def roundScaled (x : Int) : Int :=
  if x < 0 then -(Binary64.roundQuotient x.natAbs 1 : Int) else Binary64.roundQuotient x.natAbs 1

/-- Add a number of units to the parts of a sum, the smallest part first. Each part is added to what
is carried, the nearest grid value is carried on, and what it misses stays behind as a part.
Nothing is lost, so the parts keep the exact sum; there is no answer when a carried value is out of
range. -/
def carryIn (carried : Int) : List Int → Option (List Int)
  | [] => some (if carried = 0 then [] else [carried])
  | part :: parts =>
    let exact := carried + part
    let rounded := roundScaled exact
    if rounded.natAbs < Binary64.overflowUnits then do
      let rest ← carryIn rounded parts
      pure (if exact = rounded then rest else (exact - rounded) :: rest)
    else none

/-- A sum under way: its finite parts in units, and which special values it has met. -/
structure RunningSum where
  parts : List Int := []
  positiveInfinity : Bool := false
  negativeInfinity : Bool := false
  notANumber : Bool := false

namespace RunningSum

/-- Take in one number. A special value makes the finite parts irrelevant. -/
def add (s : RunningSum) (x : Binary64) : Except Fault RunningSum :=
  match x with
  | .finite _ _ =>
    match carryIn x.scaled s.parts with
    | some parts => .ok { s with parts }
    | none => .error .outOfRange
  | .infinite false => .ok { s with parts := [], positiveInfinity := true }
  | .infinite true => .ok { s with parts := [], negativeInfinity := true }
  | .nan => .ok { s with parts := [], notANumber := true }

/-- The exact sum, rounded once; a zero sum is positive. -/
def total (s : RunningSum) : Except Fault Binary64 :=
  if s.positiveInfinity && s.negativeInfinity then .error .oppositeInfinities
  else if s.notANumber then .ok .nan
  else if s.positiveInfinity then .ok (.infinite false)
  else if s.negativeInfinity then .ok (.infinite true)
  else .ok (.ofScaled (s.parts.foldr (· + ·) 0))

end RunningSum

/-- The sum of a list. It is out of range as soon as a sum on the way is. -/
def sum (xs : List Binary64) : Except Fault Binary64 := do
  let s ← xs.foldlM RunningSum.add {}
  s.total

/-- The rounded sum divided by the count; zero for no numbers. -/
def mean (xs : List Binary64) : Except Fault Binary64 := do
  if h : xs = [] then return .zero
  else
    let total ← sum xs
    return total.divNat xs.length (List.length_pos_iff.2 h)

/-! ## Median -/

/-- The middle number in ascending order, or half the sum of the two middle ones; zero for no
numbers. -/
def median (xs : List Binary64) : Binary64 :=
  let ascending := xs.mergeSort Binary64.atMost
  let middle := xs.length / 2
  if xs.isEmpty then .zero
  else if xs.length % 2 = 1 then ascending[middle]?.getD .nan
  else
    (ascending[middle - 1]?.getD .nan + ascending[middle]?.getD .nan).divNat 2 Nat.zero_lt_two

/-! ## Standard deviations -/

/-- `n * ∑ x² - (∑ x)²` for `n` numbers of units: `n` times the sum of the squared distances from
the mean. -/
def scaledVariation (xs : List Int) : Nat :=
  let total : Int := xs.foldr (· + ·) 0
  let squares : Int := (xs.map fun x => x * x).foldr (· + ·) 0
  (xs.length * squares - total * total).toNat

/-- The square root of the squared distances from the mean over `divisor`, rounded once. -/
def spread (xs : List Binary64) (divisor : Nat) (hpos : 0 < xs.length * divisor) :
    Except Fault Binary64 :=
  if xs.all Binary64.isFinite then
    inRange (.ofSqrt (scaledVariation (xs.map Binary64.scaled)) (xs.length * divisor) hpos)
  else .error .nonFiniteSpread

/-- Standard deviation of a whole population; zero for no numbers. -/
def populationDeviation (xs : List Binary64) : Except Fault Binary64 :=
  if h : xs = [] then .ok .zero
  else
    have hlength := List.length_pos_iff.2 h
    spread xs xs.length (Nat.mul_pos hlength hlength)

/-- Standard deviation of a population of which the numbers are a sample; zero for fewer than two
numbers. -/
def sampleDeviation (xs : List Binary64) : Except Fault Binary64 :=
  if h : xs.length < 2 then .ok .zero
  else spread xs (xs.length - 1) (Nat.mul_pos (by omega) (by omega))

end DesignMetrics.Statistics
