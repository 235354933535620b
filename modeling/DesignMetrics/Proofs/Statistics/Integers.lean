import Mathlib.Algebra.BigOperators.Ring.List
import DesignMetrics.Proofs.Binary64.Exact
import DesignMetrics.Proofs.Statistics.Range

/-!
# Statistics of integers

Integers of at most 53 bits become numbers without rounding, and so do their sums while these have
53 bits too. What is left of a mean is one division, so that the mean is the rounded quotient of the
exact sum.
-/

namespace DesignMetrics.Statistics

open Binary64

variable {values : List Int}

/-- A figure of a list of integers, which become numbers first. -/
def figureOfIntegers (figure : List Binary64 → Except Fault Binary64) (values : List Int) :
    Except Fault Binary64 :=
  sample (some (values.map .integer)) >>= figure

theorem figureOfIntegers_eq (figure : List Binary64 → Except Fault Binary64)
    (hvalues : ∀ value ∈ values, value.natAbs ≤ 2 ^ (53 : Nat)) :
    figureOfIntegers figure values = figure (values.map ofInt) := by
  rw [figureOfIntegers, exists_sample fun value hvalue =>
    (isExact_ofInt (hvalues value hvalue)).finite]
  rfl

theorem pow_le_countLimit : 2 ^ (53 : Nat) ≤ countLimit := by
  have hpow : ∀ e, 53 ≤ e → 2 ^ (53 : Nat) ≤ 2 ^ e := fun _ => Nat.pow_le_pow_right Nat.zero_lt_two
  rw [countLimit]
  exact hpow 1023 (by decide)

theorem map_scaled_ofInt (hvalues : ∀ value ∈ values, value.natAbs ≤ 2 ^ (53 : Nat)) :
    (values.map ofInt).map scaled = values.map (· * (unitsPerOne : Int)) := by
  rw [List.map_map, Function.comp_def]
  exact List.map_congr_left fun value hvalue => (isExact_ofInt (hvalues value hvalue)).scaled

/-- Counts from zero on that add up to a number of at most 53 bits. -/
structure AddUpExactly (counts : List Int) : Prop where
  nonneg : ∀ count ∈ counts, 0 ≤ count
  sum_le : counts.sum ≤ (2 ^ (53 : Nat) : Nat)

variable {counts : List Int}

theorem AddUpExactly.natAbs_le (h : AddUpExactly counts) :
    ∀ count ∈ counts, count.natAbs ≤ 2 ^ (53 : Nat) := by
  intro count hcount
  have hnonneg := h.nonneg count hcount
  have hle := List.single_le_sum h.nonneg count hcount
  have hsum := h.sum_le
  omega

theorem AddUpExactly.sum_nonneg (h : AddUpExactly counts) : 0 ≤ counts.sum :=
  List.sum_nonneg h.nonneg

theorem AddUpExactly.toNat_sum_le (h : AddUpExactly counts) :
    counts.sum.toNat ≤ 2 ^ (53 : Nat) := by
  have hsum := h.sum_le
  omega

theorem AddUpExactly.perm (h : AddUpExactly counts) {counts' : List Int}
    (hperm : counts'.Perm counts) : AddUpExactly counts' where
  nonneg count hcount := h.nonneg count (hperm.mem_iff.1 hcount)
  sum_le := hperm.sum_eq ▸ h.sum_le

theorem AddUpExactly.exists_ofCounts (h : AddUpExactly counts) :
    ∃ d, Distribution.ofCounts counts = .ok d := by
  have hle := h.sum_le.trans (Int.ofNat_le.2 pow_le_countLimit)
  obtain ⟨d, hd, -⟩ := Distribution.exists_ofCounts h.nonneg hle
  exact ⟨d, hd⟩

/-- The sum of the numbers is the sum of the counts. -/
theorem AddUpExactly.sum_eq {total : Binary64} (h : AddUpExactly counts)
    (hsum : sum (counts.map ofInt) = .ok total) :
    ∃ m : Magnitude, total = .finite false m ∧ m.units = counts.sum.toNat * unitsPerOne := by
  have hfinite : ∀ x ∈ counts.map ofInt, x.isFinite := List.forall_mem_map.2 fun count hcount =>
    (isExact_ofInt (h.natAbs_le count hcount)).finite
  have htotal := Statistics.sum_eq hfinite hsum
  rw [map_scaled_ofInt h.natAbs_le, List.sum_map_mul_right, List.map_id'] at htotal
  have hunits : counts.sum * unitsPerOne = (counts.sum.toNat * unitsPerOne : Nat) := by
    rw [Int.natCast_mul, Int.toNat_of_nonneg h.sum_nonneg]
  have hle := h.toNat_sum_le
  have hgrid := gridPoint_mul_unitsPerOne hle
  have hlt := mul_unitsPerOne_lt (Nat.le_trans hle (by decide))
  have hexact := isExact_ofScaled (a := (counts.sum.toNat * unitsPerOne : Nat)) hgrid hlt
  obtain ⟨m, hm, -⟩ := within_ofScaled hgrid hlt (Int.natCast_nonneg _) (Int.le_refl _)
  rw [hm] at hexact
  exact ⟨m, by rw [htotal, hunits, hm], Int.ofNat.inj hexact.scaled⟩

/-- The mean of such counts is the quotient of their sum by their number, rounded once. -/
theorem AddUpExactly.isQuotient_mean {average : Binary64} (h : AddUpExactly counts)
    (hne : counts ≠ []) (hmean : mean (counts.map ofInt) = .ok average) :
    average.IsQuotient counts.sum.toNat counts.length := by
  have hlength : 0 < counts.length := List.length_pos_iff.2 hne
  obtain ⟨total, htotal, rfl⟩ := mean_eq_ok (mt List.map_eq_nil_iff.1 hne) hmean
  obtain ⟨m, rfl, hunits⟩ := h.sum_eq htotal
  have hratio : (Binary64.finite false m).divNat counts.length hlength =
      ofRatio counts.sum.toNat counts.length (Int.natCast_pos.2 hlength) := by
    rw [ofRatio_natCast, ← hunits]
    rfl
  simp only [List.length_map, hratio]
  have hle := h.toNat_sum_le
  have hwithin := within_ofRatio (Int.natCast_pos.2 hlength) (gridPoint_mul_unitsPerOne hle)
    (mul_unitsPerOne_lt (Nat.le_trans hle (by decide))) (Nat.le_mul_of_pos_right _ hlength)
  exact isQuotient_ofRatio hwithin.isFinite

end DesignMetrics.Statistics
