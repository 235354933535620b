import Mathlib.Algebra.Order.Field.Rat
import DesignMetrics.Proofs.Binary64.SquareRoot
import DesignMetrics.Proofs.Statistics.Integers

/-!
# Deviations of integers

The squared distances from the exact mean are found from two sums, that of the values and that of
their squares, without a loss. So a deviation of integers of at most 53 bits is the number nearest
to the square root of the exact rational number, and it is the same for all lists in which these
distances are: in another order, or shifted as a whole.
-/

namespace DesignMetrics.Statistics

open Binary64

variable {values values' : List Int}

/-! ## Squared distances from the mean -/

/-- The sum of the squared distances of some values from their mean. -/
def squaredDistances (values : List Int) : ℚ :=
  (values.map fun value : Int => ((value : ℚ) - (values.sum : Int) / values.length) ^ 2).sum

theorem sum_squared_sub (values : List Int) (mean : ℚ) :
    (values.map fun value : Int => ((value : ℚ) - mean) ^ 2).sum =
      ((values.map fun value => value * value).sum : Int) - 2 * mean * (values.sum : Int) +
        values.length * mean ^ 2 := by
  induction values with
  | nil => simp
  | cons value rest ih =>
    rw [List.map_cons, List.sum_cons, ih, List.map_cons, List.sum_cons, List.sum_cons,
      List.length_cons]
    push_cast
    ring

/-- Two sums are enough for the squared distances. -/
theorem length_mul_squaredDistances (values : List Int) :
    values.length * squaredDistances values =
      (values.length * (values.map fun value => value * value).sum - values.sum * values.sum :
        Int) := by
  rw [squaredDistances, sum_squared_sub]
  cases values with
  | nil => simp
  | cons value rest =>
    have hlength : ((value :: rest).length : ℚ) ≠ 0 := by
      rw [List.length_cons]
      positivity
    push_cast
    field_simp
    ring

theorem squaredDistances_nonneg (values : List Int) : 0 ≤ squaredDistances values := by
  apply List.sum_nonneg
  intro square hsquare
  obtain ⟨value, -, rfl⟩ := List.mem_map.1 hsquare
  exact sq_nonneg _

theorem natCast_scaledVariation (values : List Int) :
    (scaledVariation values : Int) =
      values.length * (values.map fun value => value * value).sum - values.sum * values.sum := by
  have hnonneg := mul_nonneg (Nat.cast_nonneg values.length) (squaredDistances_nonneg values)
  rw [length_mul_squaredDistances] at hnonneg
  exact Int.toNat_of_nonneg (Int.cast_nonneg_iff.1 hnonneg)

theorem cast_scaledVariation (values : List Int) :
    (scaledVariation values : ℚ) = values.length * squaredDistances values := by
  rw [length_mul_squaredDistances, ← natCast_scaledVariation, Int.cast_natCast]

theorem scaledVariation_map_mul (values : List Int) (unit : Nat) :
    scaledVariation (values.map (· * (unit : Int))) =
      scaledVariation values * unit ^ (2 : Nat) := by
  have hsquares : ((values.map (· * (unit : Int))).map fun value => value * value).sum =
      (values.map fun value => value * value).sum * (unit * unit) := by
    rw [List.map_map, ← List.sum_map_mul_right]
    congr 1
    refine List.map_congr_left fun value _ => ?_
    simp only [Function.comp_apply]
    ring
  have hsum : (values.map (· * (unit : Int))).sum = values.sum * unit := by
    rw [List.sum_map_mul_right, List.map_id']
  rw [← Nat.cast_inj (R := Int), natCast_scaledVariation, hsquares, hsum, List.length_map,
    Nat.cast_mul, natCast_scaledVariation, Nat.cast_pow]
  ring

theorem scaledVariation_map_add (values : List Int) (shift : Int) :
    scaledVariation (values.map (· + shift)) = scaledVariation values := by
  have hsquares : ((values.map (· + shift)).map fun value => value * value).sum =
      (values.map fun value => value * value).sum + 2 * shift * values.sum +
        values.length * (shift * shift) := by
    induction values with
    | nil => simp
    | cons value rest ih =>
      simp only [List.map_cons, List.sum_cons, ih, List.length_cons]
      push_cast
      ring
  have hsum : (values.map (· + shift)).sum = values.sum + values.length * shift := by
    rw [List.sum_map_add, List.map_id', List.map_const', List.sum_replicate, nsmul_eq_mul]
  rw [← Nat.cast_inj (R := Int), natCast_scaledVariation, natCast_scaledVariation, hsquares, hsum,
    List.length_map]
  ring

/-! ## Spreads -/

/-- The root of the squared distances over `divisor`, rounded once; zero where there is nothing to
divide by. -/
def exactSpread (values : List Int) (divisor : Nat) : Binary64 :=
  if h : 0 < values.length * divisor then
    ofSqrt (scaledVariation values * unitsPerOne ^ (2 : Nat)) (values.length * divisor) h
  else zero

theorem spread_map_ofInt (hvalues : ∀ value ∈ values, value.natAbs ≤ 2 ^ (53 : Nat))
    {divisor : Nat} (hpos : 0 < (values.map ofInt).length * divisor) :
    spread (values.map ofInt) divisor hpos = inRange (exactSpread values divisor) := by
  have hfinite : (values.map ofInt).all isFinite :=
    List.all_eq_true.2 <| List.forall_mem_map.2 fun value hvalue =>
      (isExact_ofInt (hvalues value hvalue)).finite
  rw [spread, if_pos hfinite]
  simp only [map_scaled_ofInt hvalues, scaledVariation_map_mul, List.length_map] at hpos ⊢
  rw [exactSpread, dif_pos hpos]

/-- The variation is at most what it would be if every value were at the limit and their sum zero.
-/
theorem scaledVariation_le_of_natAbs_le {limit : Nat}
    (hvalues : ∀ value ∈ values, value.natAbs ≤ limit) :
    scaledVariation values ≤ limit ^ (2 : Nat) * (values.length * values.length) := by
  have hsquares : (values.map fun value => value * value).sum ≤
      values.length * (limit * limit : Int) := by
    have hle := List.sum_le_card_nsmul (values.map fun value => value * value) (limit * limit) ?_
    · rwa [List.length_map, nsmul_eq_mul] at hle
    · refine List.forall_mem_map.2 fun value hvalue => ?_
      rw [← Int.natAbs_mul_self]
      exact_mod_cast Nat.mul_le_mul (hvalues value hvalue) (hvalues value hvalue)
  have hproduct := Int.mul_le_mul_of_nonneg_left hsquares (Int.natCast_nonneg values.length)
  have hvariation : (scaledVariation values : Int) ≤
      values.length * (values.length * (limit * limit)) := by
    have hsquare := mul_self_nonneg values.sum
    rw [natCast_scaledVariation]
    omega
  have hle : scaledVariation values ≤ values.length * (values.length * (limit * limit)) := by
    exact_mod_cast hvariation
  calc scaledVariation values ≤ values.length * (values.length * (limit * limit)) := hle
    _ = limit ^ (2 : Nat) * (values.length * values.length) := by ring

/-- A spread of which the divisor is not too small is the number nearest to the exact one. -/
theorem isNearest_exactSpread (hvalues : ∀ value ∈ values, value.natAbs ≤ 2 ^ (53 : Nat))
    {divisor : Nat} (hpos : 0 < divisor) (hle : values.length ≤ 4 * divisor)
    (hlength : 0 < values.length) :
    (exactSpread values divisor).IsNearest √(squaredDistances values / divisor : ℚ) := by
  have hbound : scaledVariation values * unitsPerOne ^ (2 : Nat) ≤
      (2 ^ (54 : Nat) * unitsPerOne) ^ (2 : Nat) * (values.length * divisor) := by
    calc scaledVariation values * unitsPerOne ^ (2 : Nat) ≤
        (2 ^ (53 : Nat)) ^ (2 : Nat) * (values.length * values.length) *
          unitsPerOne ^ (2 : Nat) :=
          Nat.mul_le_mul_right _ (scaledVariation_le_of_natAbs_le hvalues)
      _ ≤ (2 ^ (53 : Nat)) ^ (2 : Nat) * (values.length * (4 * divisor)) *
          unitsPerOne ^ (2 : Nat) := by gcongr
      _ = (2 ^ (54 : Nat) * unitsPerOne) ^ (2 : Nat) * (values.length * divisor) := by ring
  have hdivisor := Nat.mul_pos hlength hpos
  have hwithin := within_ofSqrt hdivisor (gridPoint_pow_mul_unitsPerOne 54)
    (mul_unitsPerOne_lt (Nat.le_refl _)) hbound
  have hnearest := isNearest_ofSqrt hwithin.isFinite
  have hquotient : ((squaredDistances values / divisor : ℚ) : ℝ) =
      scaledVariation values / (values.length * divisor : Nat) := by
    have hcast : (scaledVariation values : ℝ) = values.length * (squaredDistances values : ℝ) := by
      exact_mod_cast cast_scaledVariation values
    have hne : (values.length : ℝ) ≠ 0 := Nat.cast_ne_zero.2 (Nat.ne_of_gt hlength)
    rw [hcast, Rat.cast_div, Rat.cast_natCast, Nat.cast_mul, mul_div_mul_left _ _ hne]
  rw [exactSpread, dif_pos hdivisor, hquotient]
  exact hnearest

theorem isNearest_exactSpread_pred (hvalues : ∀ value ∈ values, value.natAbs ≤ 2 ^ (53 : Nat))
    (hlength : 2 ≤ values.length) :
    (exactSpread values (values.length - 1)).IsNearest
      √(squaredDistances values / (values.length - 1) : ℚ) := by
  have hpos : 0 < values.length - 1 := by omega
  have hnearest := isNearest_exactSpread hvalues hpos (by omega) (by omega)
  rwa [Nat.cast_sub (by omega), Nat.cast_one] at hnearest

/-- One value has no distance from the mean. -/
theorem exactSpread_eq_zero (hlength : values.length < 2) (divisor : Nat) :
    exactSpread values divisor = .zero := by
  have hvariation : scaledVariation values = 0 := by
    match values, hlength with
    | [], _ => rfl
    | [value], _ =>
      rw [← Nat.cast_inj (R := Int), natCast_scaledVariation]
      simp
  unfold exactSpread
  split
  · rename_i hpos
    simp only [hvariation, Nat.zero_mul]
    have hwithin := within_ofSqrt hpos gridPoint_zero overflowUnits_pos (Nat.zero_le _)
    exact hwithin.eq_zero
  · rfl

/-! ## Deviations -/

theorem populationDeviation_map_ofInt
    (hvalues : ∀ value ∈ values, value.natAbs ≤ 2 ^ (53 : Nat)) :
    populationDeviation (values.map ofInt) = .ok (exactSpread values values.length) := by
  by_cases hne : values = []
  · subst hne
    rw [exactSpread_eq_zero (by decide)]
    rfl
  · have hpos : 0 < values.length := List.length_pos_iff.2 hne
    have hnearest := isNearest_exactSpread hvalues hpos (by omega) hpos
    rw [populationDeviation, dif_neg (mt List.map_eq_nil_iff.1 hne)]
    simp only [spread_map_ofInt hvalues, List.length_map]
    exact inRange_eq_ok.2 ⟨hnearest.finite, rfl⟩

theorem sampleDeviation_map_ofInt (hvalues : ∀ value ∈ values, value.natAbs ≤ 2 ^ (53 : Nat)) :
    sampleDeviation (values.map ofInt) = .ok (exactSpread values (values.length - 1)) := by
  simp only [sampleDeviation, spread_map_ofInt hvalues, List.length_map]
  split
  · rename_i hlength
    rw [exactSpread_eq_zero hlength]
  · rename_i hlength
    have hnearest := isNearest_exactSpread_pred hvalues (Nat.le_of_not_lt hlength)
    exact inRange_eq_ok.2 ⟨hnearest.finite, rfl⟩

/-- The deviation of a list of integers as a whole population and as a sample. -/
structure HaveDeviations (values : List Int) (population sample : Binary64) : Prop where
  population : figureOfIntegers populationDeviation values = .ok population
  sample : figureOfIntegers sampleDeviation values = .ok sample

theorem haveDeviations_exactSpread (hvalues : ∀ value ∈ values, value.natAbs ≤ 2 ^ (53 : Nat)) :
    HaveDeviations values (exactSpread values values.length)
      (exactSpread values (values.length - 1)) where
  population := by rw [figureOfIntegers_eq _ hvalues, populationDeviation_map_ofInt hvalues]
  sample := by rw [figureOfIntegers_eq _ hvalues, sampleDeviation_map_ofInt hvalues]

theorem exactSpread_congr (hlength : values'.length = values.length)
    (hvariation : scaledVariation values' = scaledVariation values) :
    exactSpread values' = exactSpread values := by
  funext divisor
  simp only [exactSpread, hlength, hvariation]

/-- A sample has the larger deviation. -/
theorem exactSpread_atMost (values : List Int) :
    (exactSpread values values.length).atMost (exactSpread values (values.length - 1)) := by
  by_cases hlength : values.length < 2
  · rw [exactSpread_eq_zero hlength, exactSpread_eq_zero hlength]
    exact decide_eq_true (Int.le_refl _)
  · have hpos : 0 < values.length * values.length := Nat.mul_pos (by omega) (by omega)
    have hpos' : 0 < values.length * (values.length - 1) := Nat.mul_pos (by omega) (by omega)
    rw [exactSpread, exactSpread, dif_pos hpos, dif_pos hpos']
    apply atMost_ofSqrt
    exact Nat.mul_le_mul_left _ (Nat.mul_le_mul_left _ (Nat.sub_le _ _))

/-- Deviations that are the numbers nearest to the exact ones. The deviation of a sample is not
below that of a population. -/
structure AreNearestDeviations (values : List Int) (population sample : Binary64) : Prop where
  nearest_population : 1 ≤ values.length →
    population.IsNearest √(squaredDistances values / values.length : ℚ)
  nearest_sample : 2 ≤ values.length →
    sample.IsNearest √(squaredDistances values / (values.length - 1) : ℚ)
  atMost : population.atMost sample

theorem areNearestDeviations_exactSpread
    (hvalues : ∀ value ∈ values, value.natAbs ≤ 2 ^ (53 : Nat)) :
    AreNearestDeviations values (exactSpread values values.length)
      (exactSpread values (values.length - 1)) where
  nearest_population hlength := isNearest_exactSpread hvalues hlength (by omega) hlength
  nearest_sample hlength := isNearest_exactSpread_pred hvalues hlength
  atMost := exactSpread_atMost values

/-- Deviations that do not change when the values come in another order, or when one integer is
added to all of them and none of them leaves its range. -/
structure AreStableDeviations (values : List Int) (population sample : Binary64) : Prop where
  perm : ∀ values', values'.Perm values → HaveDeviations values' population sample
  shift : ∀ shift, (∀ value ∈ values, (value + shift).natAbs ≤ 2 ^ (53 : Nat)) →
    HaveDeviations (values.map (· + shift)) population sample

theorem areStableDeviations_exactSpread
    (hvalues : ∀ value ∈ values, value.natAbs ≤ 2 ^ (53 : Nat)) :
    AreStableDeviations values (exactSpread values values.length)
      (exactSpread values (values.length - 1)) := by
  refine ⟨fun values' hperm => ?_, fun shift hshift => ?_⟩
  · have hhave := haveDeviations_exactSpread fun value hvalue =>
      hvalues value (hperm.mem_iff.1 hvalue)
    rwa [exactSpread_congr hperm.length_eq (scaledVariation_perm hperm), hperm.length_eq] at hhave
  · have hhave := haveDeviations_exactSpread (List.forall_mem_map.2 hshift)
    rwa [exactSpread_congr (List.length_map ..) (scaledVariation_map_add values shift),
      List.length_map] at hhave

/-- Deviations are exact up to one rounding. Those of integers of at most 53 bits are there, they
are the numbers nearest to the exact ones, and neither the order of the integers nor their place on
the line changes them. -/
theorem exists_nearest_deviations (hvalues : ∀ value ∈ values, value.natAbs ≤ 2 ^ (53 : Nat)) :
    ∃ population sample, HaveDeviations values population sample ∧
      AreNearestDeviations values population sample ∧
      AreStableDeviations values population sample :=
  ⟨_, _, haveDeviations_exactSpread hvalues, areNearestDeviations_exactSpread hvalues,
    areStableDeviations_exactSpread hvalues⟩

/-- The deviation of two values as far apart as these lies halfway between two numbers. -/
def farApart : List Int := [2 ^ 53, -(2 ^ 53 - 1)]

theorem exists_nearest_deviations_farApart :
    (∀ value ∈ farApart, value.natAbs ≤ 2 ^ (53 : Nat)) ∧
      ∃ population sample, HaveDeviations farApart population sample ∧
        AreNearestDeviations farApart population sample ∧
        AreStableDeviations farApart population sample :=
  ⟨by decide, exists_nearest_deviations (by decide)⟩

end DesignMetrics.Statistics
