import Mathlib.Tactic.Linarith
import DesignMetrics.Proofs.Statistics.Integers

/-!
# The median of integers

The numbers of integers of at most 52 bits stand in the order of the integers, and half the sum of
two of them is a number, so that the median of such integers is exact. It has the lower middle
integer on one side and the upper one on the other, each with all that comes before it or after it
in ascending order, and that is at least half of the list.
-/

namespace DesignMetrics.Statistics

open Binary64

variable {values : List Int}

/-! ## Integers in ascending order -/

def ascending (values : List Int) : List Int := values.mergeSort fun a b => decide (a ≤ b)

theorem ascending_perm (values : List Int) : (ascending values).Perm values :=
  List.mergeSort_perm _ _

@[simp] theorem length_ascending (values : List Int) : (ascending values).length = values.length :=
  (ascending_perm values).length_eq

theorem pairwise_ascending (values : List Int) : (ascending values).Pairwise (· ≤ ·) := by
  refine (List.pairwise_mergeSort ?_ ?_ values).imp fun h => of_decide_eq_true h
  · intro a b c hab hbc
    simp only [decide_eq_true_eq] at hab hbc ⊢
    omega
  · intro a b
    simp only [Bool.or_eq_true, decide_eq_true_eq]
    omega

theorem mergeSort_map_ofInt (hvalues : ∀ value ∈ values, value.natAbs ≤ 2 ^ (53 : Nat)) :
    (values.map ofInt).mergeSort atMost = (ascending values).map ofInt :=
  (List.map_mergeSort fun a ha b hb => (atMost_ofInt (hvalues a ha) (hvalues b hb)).symm).symm

variable {sorted : List Int} {i : Nat} {p : Int → Bool}

/-- What stands at a place or before it is at most what stands there. -/
theorem lt_countP_of_pairwise (hsorted : sorted.Pairwise (· ≤ ·)) (hi : i < sorted.length)
    (hp : ∀ value, value ≤ sorted[i] → p value) : i < sorted.countP p := by
  have hfront : (sorted.take (i + 1)).countP p = (sorted.take (i + 1)).length := by
    refine List.countP_eq_length.2 fun value hvalue => hp value ?_
    obtain ⟨j, hj, rfl⟩ := List.mem_take_iff_getElem.1 hvalue
    rcases Nat.lt_or_ge j i with hlt | hge
    · exact List.pairwise_iff_getElem.1 hsorted j i (by omega) hi hlt
    · exact Int.le_of_eq (by congr 1; omega)
  have hle := (List.take_sublist (i + 1) sorted).countP_le (p := p)
  rw [hfront, List.length_take] at hle
  omega

/-- What stands at a place or behind it is at least what stands there. -/
theorem le_countP_of_pairwise (hsorted : sorted.Pairwise (· ≤ ·)) (hi : i < sorted.length)
    (hp : ∀ value, sorted[i] ≤ value → p value) : sorted.length ≤ i + sorted.countP p := by
  have hback : (sorted.drop i).countP p = (sorted.drop i).length := by
    refine List.countP_eq_length.2 fun value hvalue => hp value ?_
    obtain ⟨j, hj, rfl⟩ := List.mem_drop_iff_getElem.1 hvalue
    rcases Nat.eq_zero_or_pos j with rfl | hpos
    · exact Int.le_refl _
    · exact List.pairwise_iff_getElem.1 hsorted i (i + j) hi (by omega) (by omega)
  have hle := (List.drop_sublist i sorted).countP_le (p := p)
  rw [hback, List.length_drop] at hle
  omega

/-! ## The middle -/

theorem getD_map_ofInt {integers : List Int} (hi : i < integers.length) :
    (integers.map ofInt)[i]?.getD .nan = ofInt integers[i] := by
  rw [List.getElem?_map, List.getElem?_eq_getElem hi, Option.map_some, Option.getD_some]

theorem median_odd (hvalues : ∀ value ∈ values, value.natAbs ≤ 2 ^ (53 : Nat))
    (hodd : values.length % 2 = 1) (hi : values.length / 2 < (ascending values).length) :
    median (values.map ofInt) = ofInt (ascending values)[values.length / 2] := by
  have hne : (values.map ofInt).isEmpty = false := by
    cases values with
    | nil => cases hodd
    | cons value rest => rfl
  rw [median, hne, mergeSort_map_ofInt hvalues, List.length_map, if_neg Bool.false_ne_true,
    if_pos hodd, getD_map_ofInt hi]

theorem median_even (hvalues : ∀ value ∈ values, value.natAbs ≤ 2 ^ (53 : Nat))
    (heven : values.length % 2 = 0)
    (hi : values.length / 2 < (ascending values).length) :
    median (values.map ofInt) = (ofInt (ascending values)[values.length / 2 - 1] +
      ofInt (ascending values)[values.length / 2]).divNat 2 Nat.zero_lt_two := by
  have hempty : (values.map ofInt).isEmpty = false := by
    cases values with
    | nil => simp at hi
    | cons value rest => rfl
  rw [median, hempty, mergeSort_map_ofInt hvalues, List.length_map, if_neg Bool.false_ne_true,
    if_neg (by omega), getD_map_ofInt hi, getD_map_ofInt (by omega)]

/-- Twice the median is the sum of the two middle integers, which are one when their number is
odd. -/
theorem toReal_median (hvalues : ∀ value ∈ values, value.natAbs ≤ 2 ^ (52 : Nat))
    (hlow : (values.length - 1) / 2 < (ascending values).length)
    (hhigh : values.length / 2 < (ascending values).length) :
    (median (values.map ofInt)).isFinite ∧ (median (values.map ofInt)).toReal * 2 =
      (ascending values)[(values.length - 1) / 2] + (ascending values)[values.length / 2] := by
  have hlimit : ∀ value ∈ values, value.natAbs ≤ 2 ^ (53 : Nat) := fun value hvalue =>
    Nat.le_trans (hvalues value hvalue) (by decide)
  have hmem : ∀ {i} (hi : i < (ascending values).length), (ascending values)[i] ∈ values :=
    fun hi => (ascending_perm values).mem_iff.1 (List.getElem_mem hi)
  rcases Nat.mod_two_eq_zero_or_one values.length with heven | hodd
  · have hindex : (values.length - 1) / 2 = values.length / 2 - 1 := by omega
    obtain ⟨units, hexact, hunits⟩ := isExact_half (hvalues _ (hmem hlow)) (hvalues _ (hmem hhigh))
    rw [median_even hlimit heven hhigh]
    simp only [hindex] at hexact hunits ⊢
    refine ⟨hexact.finite, ?_⟩
    have hreal := hexact.toReal_mul hunits
    rwa [Nat.cast_two, Int.cast_add] at hreal
  · have hindex : (values.length - 1) / 2 = values.length / 2 := by omega
    rw [median_odd hlimit hodd hhigh]
    simp only [hindex]
    refine ⟨(isExact_ofInt (hlimit _ (hmem hhigh))).finite, ?_⟩
    rw [toReal_ofInt (hlimit _ (hmem hhigh)), mul_two]

/-- A number in the middle of some integers. It is the middle one in ascending order, or half the
sum of the two middle ones; it is in their range, and at least half of them are on each side. -/
structure IsMedianOf (x : Binary64) (values : List Int) : Prop where
  finite : x.isFinite
  odd : values.length % 2 = 1 → ∃ middle, (ascending values)[values.length / 2]? = some middle ∧
    x.toReal = middle
  even : values.length % 2 = 0 → ∃ low high,
    (ascending values)[values.length / 2 - 1]? = some low ∧
    (ascending values)[values.length / 2]? = some high ∧ x.toReal = (low + high : Int) / 2
  least_le : ∃ least, values.min? = some least ∧ least ≤ x.toReal
  le_greatest : ∃ greatest, values.max? = some greatest ∧ x.toReal ≤ greatest
  half_le : values.length ≤ 2 * values.countP fun value : Int => (value : ℝ) ≤ x.toReal
  half_ge : values.length ≤ 2 * values.countP fun value : Int => x.toReal ≤ (value : ℝ)

theorem isMedianOf_of_middle {x : Binary64} (hfinite : x.isFinite)
    (hlow : (values.length - 1) / 2 < (ascending values).length)
    (hhigh : values.length / 2 < (ascending values).length)
    (htwice : x.toReal * 2 =
      (ascending values)[(values.length - 1) / 2] + (ascending values)[values.length / 2]) :
    IsMedianOf x values := by
  have hsorted := pairwise_ascending values
  have hperm := ascending_perm values
  have hne : values ≠ [] := by
    rintro rfl
    simp at hlow
  have horder : (ascending values)[(values.length - 1) / 2] ≤
      (ascending values)[values.length / 2] := by
    rcases Nat.lt_or_ge ((values.length - 1) / 2) (values.length / 2) with hlt | hge
    · exact List.pairwise_iff_getElem.1 hsorted _ _ hlow hhigh hlt
    · exact Int.le_of_eq (by congr 1; omega)
  have hreal : ((ascending values)[(values.length - 1) / 2] : ℝ) ≤
      (ascending values)[values.length / 2] := Int.cast_le.2 horder
  have hleft : ((ascending values)[(values.length - 1) / 2] : ℝ) ≤ x.toReal := by linarith
  have hright : x.toReal ≤ (ascending values)[values.length / 2] := by linarith
  have hmem : (ascending values)[(values.length - 1) / 2] ∈ values :=
    hperm.mem_iff.1 (List.getElem_mem hlow)
  have hmem' : (ascending values)[values.length / 2] ∈ values :=
    hperm.mem_iff.1 (List.getElem_mem hhigh)
  refine
    { finite := hfinite
      odd := fun hodd => ⟨_, List.getElem?_eq_getElem hhigh, ?_⟩
      even := fun heven => ⟨_, _, List.getElem?_eq_getElem (by omega),
        List.getElem?_eq_getElem hhigh, ?_⟩
      least_le := ?_
      le_greatest := ?_
      half_le := ?_
      half_ge := ?_ }
  · have hindex : (values.length - 1) / 2 = values.length / 2 := by omega
    simp only [hindex] at htwice
    linarith
  · have hindex : (values.length - 1) / 2 = values.length / 2 - 1 := by omega
    simp only [hindex] at htwice
    push_cast
    linarith
  · obtain ⟨least, hleast⟩ := Option.isSome_iff_exists.1 (List.isSome_min?_iff.2 hne)
    have hle := (List.min?_eq_some_iff.1 hleast).2 _ hmem
    exact ⟨least, hleast, (Int.cast_le.2 hle).trans hleft⟩
  · obtain ⟨greatest, hgreatest⟩ := Option.isSome_iff_exists.1 (List.isSome_max?_iff.2 hne)
    have hle := (List.max?_eq_some_iff.1 hgreatest).2 _ hmem'
    exact ⟨greatest, hgreatest, hright.trans (Int.cast_le.2 hle)⟩
  · have hcount := lt_countP_of_pairwise (p := fun value => value ≤ x.toReal) hsorted hlow
      fun value hvalue => decide_eq_true ((Int.cast_le.2 hvalue).trans hleft)
    rw [hperm.countP_eq] at hcount
    omega
  · have hcount := le_countP_of_pairwise (p := fun value => x.toReal ≤ value) hsorted hhigh
      fun value hvalue => decide_eq_true (hright.trans (Int.cast_le.2 hvalue))
    rw [hperm.countP_eq, length_ascending] at hcount
    omega

theorem isMedianOf_median (hne : values ≠ [])
    (hvalues : ∀ value ∈ values, value.natAbs ≤ 2 ^ (52 : Nat)) :
    IsMedianOf (median (values.map ofInt)) values := by
  have hpos : 0 < values.length := List.length_pos_iff.2 hne
  have hlow : (values.length - 1) / 2 < (ascending values).length := by
    rw [length_ascending]
    omega
  have hhigh : values.length / 2 < (ascending values).length := by
    rw [length_ascending]
    omega
  obtain ⟨hfinite, htwice⟩ := toReal_median hvalues hlow hhigh
  exact isMedianOf_of_middle hfinite hlow hhigh htwice

/-- The median is exact. The median of integers of at most 52 bits is there and in the middle of
them, and every order of the integers has the same. -/
theorem median_exact (hne : values ≠ [])
    (hvalues : ∀ value ∈ values, value.natAbs ≤ 2 ^ (52 : Nat)) :
    ∃ x, figureOfIntegers (fun xs => .ok (median xs)) values = .ok x ∧ IsMedianOf x values ∧
      ∀ values', values'.Perm values →
        figureOfIntegers (fun xs => .ok (median xs)) values' = .ok x := by
  have hlimit : ∀ value ∈ values, value.natAbs ≤ 2 ^ (53 : Nat) := fun value hvalue =>
    Nat.le_trans (hvalues value hvalue) (by decide)
  refine ⟨_, figureOfIntegers_eq _ hlimit, isMedianOf_median hne hvalues, fun values' hperm => ?_⟩
  rw [figureOfIntegers_eq _ fun value hvalue => hlimit value (hperm.mem_iff.1 hvalue)]
  have hsame := median_map_ofInt_perm hperm fun value hvalue =>
    (isExact_ofInt (hlimit value (hperm.mem_iff.1 hvalue))).finite
  rw [hsame]

/-- Integers with a tie below the middle, of which the largest two are as large as is allowed. -/
def tiedValues : List Int := [2 ^ 52, 7, -3, 2 ^ 52 - 1, 7, 2 ^ 52]

theorem median_exact_tied :
    tiedValues ≠ [] ∧ (∀ value ∈ tiedValues, value.natAbs ≤ 2 ^ (52 : Nat)) ∧
      ∃ x, figureOfIntegers (fun xs => .ok (median xs)) tiedValues = .ok x ∧
        IsMedianOf x tiedValues ∧ ∀ values', values'.Perm tiedValues →
          figureOfIntegers (fun xs => .ok (median xs)) values' = .ok x :=
  ⟨by decide, by decide, median_exact (by decide) (by decide)⟩

end DesignMetrics.Statistics
