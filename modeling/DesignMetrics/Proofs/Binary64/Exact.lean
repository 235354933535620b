import Mathlib.Data.Real.Basic
import DesignMetrics.Proofs.Binary64.Monotone

/-!
# Results that need no rounding

A grid point is rounded to itself, so that a result which is a grid point in range is exact. The
number of an integer of at most 53 bits is that integer, and the middle between two integers of at
most 52 bits is computed as it is.
-/

namespace DesignMetrics.Binary64

variable {x y : Binary64} {a b : Int} {n g den : Nat}

/-! ## Grid points stay as they are -/

theorem roundQuotient_mul_self (hg : GridPoint g) (hden : 0 < den) :
    roundQuotient (g * den) den = g := by
  have hnearest := gap_roundQuotient_le (g * den) hden hg
  have hself : gap (g * den) den g = 0 := by simp [gap]
  rw [hself] at hnearest
  unfold gap at hnearest
  exact Nat.eq_of_mul_eq_mul_right hden (by omega)

theorem gridPoint_mul_unitsPerOne (h : n ≤ 2 ^ (53 : Nat)) : GridPoint (n * unitsPerOne) := by
  rw [unitsPerOne_eq]
  exact gridPoint_of_le h _

theorem gridPoint_pow_mul_unitsPerOne (e : Nat) : GridPoint (2 ^ e * unitsPerOne) := by
  rw [unitsPerOne_eq, ← Nat.pow_add]
  exact gridPoint_pow _

theorem mul_unitsPerOne_lt (h : n ≤ 2 ^ (54 : Nat)) : n * unitsPerOne < overflowUnits := by
  have hpow : ∀ e e' e'' : Nat, e + e' < e'' → 2 ^ e * 2 ^ e' < 2 ^ e'' := by
    intro e e' e'' hlt
    rw [← Nat.pow_add]
    exact Nat.pow_lt_pow_right (by decide) hlt
  have hlt : 2 ^ (54 : Nat) * unitsPerOne < overflowUnits := by
    rw [unitsPerOne_eq, overflowUnits_eq]
    exact hpow 54 1074 2098 (by decide)
  exact Nat.lt_of_le_of_lt (Nat.mul_le_mul_right _ h) hlt

/-- A finite number of so many units, with their sign. -/
structure IsExact (x : Binary64) (units : Int) : Prop where
  finite : x.isFinite
  scaled : x.scaled = units

theorem isExact_ofUnits (negative : Bool) {gridPoint : GridPoint g} (hg : g < overflowUnits) :
    (ofUnits negative g gridPoint).IsExact (if negative then -g else g) := by
  rw [ofUnits, dif_pos hg]
  cases negative
  · exact ⟨rfl, rfl⟩
  · exact ⟨rfl, rfl⟩

theorem isExact_ofQuotient (negative : Bool) (hden : 0 < den) (hgrid : GridPoint g)
    (hg : g < overflowUnits) :
    (ofQuotient negative (g * den) den hden).IsExact (if negative then -g else g) := by
  have hround := roundQuotient_mul_self hgrid hden
  rw [ofQuotient]
  simp only [hround]
  exact isExact_ofUnits negative hg

theorem isExact_ofScaled (hgrid : GridPoint a.natAbs) (ha : a.natAbs < overflowUnits) :
    (ofScaled a).IsExact a := by
  have hquotient := isExact_ofQuotient (decide (a < 0)) Nat.one_pos hgrid ha
  rw [Nat.mul_one] at hquotient
  have hsign : (if decide (a < 0) then -(a.natAbs : Int) else a.natAbs) = a := by
    simp only [decide_eq_true_eq]
    omega
  rwa [hsign] at hquotient

/-- An integer of at most 53 bits is a number. -/
theorem isExact_ofInt (ha : a.natAbs ≤ 2 ^ (53 : Nat)) : (ofInt a).IsExact (a * unitsPerOne) := by
  have hquotient := isExact_ofQuotient (decide (a < 0)) Nat.one_pos (gridPoint_mul_unitsPerOne ha)
    (mul_unitsPerOne_lt (Nat.le_trans ha (by decide)))
  rw [Nat.mul_one] at hquotient
  have hsign : (if decide (a < 0) then -((a.natAbs * unitsPerOne : Nat) : Int)
      else (a.natAbs * unitsPerOne : Nat)) = a * unitsPerOne := by
    rw [Int.natCast_mul, ← Int.neg_mul]
    simp only [decide_eq_true_eq]
    split
    · rw [show -(a.natAbs : Int) = a by omega]
    · rw [show (a.natAbs : Int) = a by omega]
  rwa [hsign] at hquotient

theorem IsExact.add (hx : x.IsExact a) (hy : y.IsExact b) (hgrid : GridPoint (a + b).natAbs)
    (hlt : (a + b).natAbs < overflowUnits) : (x + y).IsExact (a + b) := by
  obtain ⟨hfinite, rfl⟩ := hx
  obtain ⟨hfinite', rfl⟩ := hy
  cases x with
  | infinite negative => cases hfinite
  | nan => cases hfinite
  | finite negative m =>
    cases y with
    | infinite negative' => cases hfinite'
    | nan => cases hfinite'
    | finite negative' k =>
      cases negative with
      | false => exact isExact_ofScaled hgrid hlt
      | true =>
        cases negative' with
        | false => exact isExact_ofScaled hgrid hlt
        | true =>
          have hunits : ((Binary64.finite true m).scaled + (Binary64.finite true k).scaled).natAbs =
              m.units + k.units := by
            show (-(m.units : Int) + -(k.units : Int)).natAbs = _
            omega
          rw [hunits] at hgrid hlt
          have hsum := isExact_ofQuotient true Nat.one_pos hgrid hlt
          rw [Nat.mul_one, if_pos rfl, Int.natCast_add, Int.neg_add] at hsum
          exact hsum

theorem IsExact.divNat (hx : x.IsExact (a * n)) (hn : 0 < n) (hgrid : GridPoint a.natAbs) :
    (x.divNat n hn).IsExact a := by
  obtain ⟨hfinite, hscaled⟩ := hx
  cases x with
  | infinite negative => cases hfinite
  | nan => cases hfinite
  | finite negative m =>
    have hunits : m.units = a.natAbs * n := by
      rw [← Int.natAbs_natCast n, ← Int.natAbs_mul, ← hscaled]
      cases negative
      · exact (Int.natAbs_natCast _).symm
      · exact ((Int.natAbs_neg _).trans (Int.natAbs_natCast _)).symm
    have hlt : a.natAbs < overflowUnits :=
      Nat.lt_of_le_of_lt (hunits ▸ Nat.le_mul_of_pos_right _ hn) m.units_lt
    have hquotient := isExact_ofQuotient negative hn hgrid hlt
    have hsign : (if negative then -(a.natAbs : Int) else a.natAbs) = a := by
      apply Int.eq_of_mul_eq_mul_right (Int.natCast_ne_zero.2 (Nat.ne_of_gt hn))
      rw [← hscaled]
      cases negative
      · rw [if_neg Bool.false_ne_true, ← Int.natCast_mul, ← hunits]
        rfl
      · rw [if_pos rfl, Int.neg_mul, ← Int.natCast_mul, ← hunits]
        rfl
    rw [hsign, ← hunits] at hquotient
    exact hquotient

/-! ## Their place on the line -/

theorem rank_of_isFinite (h : x.isFinite) : x.rank = x.scaled := by
  cases x with
  | finite negative m => rfl
  | infinite negative => cases h
  | nan => cases h

theorem IsExact.atMost_eq (hx : x.IsExact a) (hy : y.IsExact b) : x.atMost y = decide (a ≤ b) := by
  rw [atMost, rank_of_isFinite hx.finite, rank_of_isFinite hy.finite, hx.scaled, hy.scaled]

theorem atMost_ofInt (ha : a.natAbs ≤ 2 ^ (53 : Nat)) (hb : b.natAbs ≤ 2 ^ (53 : Nat)) :
    (ofInt a).atMost (ofInt b) = decide (a ≤ b) := by
  have hpos : (0 : Int) < unitsPerOne := Int.natCast_pos.2 unitsPerOne_pos
  rw [(isExact_ofInt ha).atMost_eq (isExact_ofInt hb), decide_eq_decide]
  exact Int.mul_le_mul_right hpos

/-- The real value of a finite number. -/
noncomputable def toReal (x : Binary64) : ℝ := x.scaled / unitsPerOne

theorem IsExact.toReal_mul (h : x.IsExact a) {k : Int} (hk : a * n = k * unitsPerOne) :
    x.toReal * n = k := by
  have hunits : (unitsPerOne : ℝ) ≠ 0 := Nat.cast_ne_zero.2 (Nat.ne_of_gt unitsPerOne_pos)
  have hreal : (a : ℝ) * n = k * unitsPerOne := by exact_mod_cast hk
  rw [toReal, h.scaled, div_mul_eq_mul_div, hreal, mul_div_cancel_right₀ _ hunits]

theorem toReal_ofInt (ha : a.natAbs ≤ 2 ^ (53 : Nat)) : (ofInt a).toReal = a := by
  have h := (isExact_ofInt ha).toReal_mul (n := 1) (k := a) (by rw [Nat.cast_one, Int.mul_one])
  rwa [Nat.cast_one, mul_one] at h

/-- Half the sum of two integers of at most 52 bits is a number. -/
theorem isExact_half (ha : a.natAbs ≤ 2 ^ (52 : Nat)) (hb : b.natAbs ≤ 2 ^ (52 : Nat)) :
    ∃ units, ((ofInt a + ofInt b).divNat 2 Nat.zero_lt_two).IsExact units ∧
      units * (2 : Nat) = (a + b) * unitsPerOne := by
  obtain ⟨e, he⟩ : ∃ e, unitsPerOne = 2 ^ e * 2 := ⟨1073, by decide +kernel⟩
  have hle : (a + b).natAbs ≤ 2 ^ (53 : Nat) := by omega
  have hgrid := gridPoint_mul_unitsPerOne hle
  have hlt := mul_unitsPerOne_lt (Nat.le_trans hle (by decide))
  have hunits : (a * unitsPerOne + b * unitsPerOne).natAbs = (a + b).natAbs * unitsPerOne := by
    rw [← Int.add_mul, Int.natAbs_mul, Int.natAbs_natCast]
  rw [← hunits] at hgrid hlt
  have hsum := (isExact_ofInt (by omega)).add (isExact_ofInt (by omega)) hgrid hlt
  have hhalf : a * unitsPerOne + b * unitsPerOne = (a + b) * (2 ^ e : Nat) * (2 : Nat) := by
    rw [← Int.add_mul, he, Int.natCast_mul, Int.mul_assoc]
  rw [hhalf] at hsum
  refine ⟨_, hsum.divNat Nat.zero_lt_two ?_, by rw [← hhalf, Int.add_mul]⟩
  rw [Int.natAbs_mul, Int.natAbs_natCast]
  exact gridPoint_of_le hle e

end DesignMetrics.Binary64
