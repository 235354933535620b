import Mathlib.Data.Nat.Sqrt
import Mathlib.Tactic.Ring
import DesignMetrics.Proofs.Binary64.Integers

/-!
# The nearest grid point

Around a number of units the grid points lie a power of two apart, and none lies strictly between
the multiple below and the multiple above. Hence rounding goes to a neighbour: it passes no grid
point, it is at most half a step away, and no other grid point is nearer. A quotient or a square
root that is at most a grid point in range is in range itself when it has been rounded.
-/

namespace DesignMetrics.Binary64

/-! ## Grid points around a number -/

theorem gridPoint_zero : GridPoint 0 := ⟨0, 0, by decide, rfl⟩

theorem gridPoint_pow (e : Nat) : GridPoint (2 ^ e) := ⟨1, e, by decide, (Nat.one_mul _).symm⟩

/-- From `2 ^ 53` on, a number has 53 bits above its step. -/
theorem mul_pow_gridExponent_le {n : Nat} (h : gridExponent n ≠ 0) :
    2 ^ (52 : Nat) * 2 ^ gridExponent n ≤ n := by
  unfold gridExponent at h ⊢
  have hn : n ≠ 0 := by
    intro hzero
    subst hzero
    simp at h
  have hexponent : 52 + (n.log2 - 52) = n.log2 := by omega
  rw [← Nat.pow_add, hexponent]
  exact Nat.log2_self_le hn

theorem GridPoint.lt_of_not_dvd {g n : Nat} (hg : GridPoint g) (h : ¬ 2 ^ gridExponent n ∣ g) :
    g < 2 ^ (52 : Nat) * 2 ^ gridExponent n ∧ gridExponent n ≠ 0 := by
  obtain ⟨m, e, hm, rfl⟩ := hg
  have he : e < gridExponent n := by
    apply Nat.lt_of_not_le
    intro hle
    exact h (Nat.dvd_trans (Nat.pow_dvd_pow 2 hle) (Nat.dvd_mul_left _ _))
  have hlt : m * 2 ^ e < 2 ^ (53 : Nat) * 2 ^ e :=
    Nat.mul_lt_mul_of_pos_right hm (Nat.pow_pos (by decide))
  have hle : 2 ^ (e + 1) ≤ 2 ^ gridExponent n := Nat.pow_le_pow_right (by decide) he
  rw [Nat.pow_succ] at hle
  omega

/-- No grid point lies strictly between the multiples of the step around a number. -/
theorem GridPoint.le_or_le {g : Nat} (hg : GridPoint g) (n : Nat) :
    g ≤ n / 2 ^ gridExponent n * 2 ^ gridExponent n ∨
      (n / 2 ^ gridExponent n + 1) * 2 ^ gridExponent n ≤ g := by
  have hpos : 0 < 2 ^ gridExponent n := Nat.pow_pos (by decide)
  by_cases hdvd : 2 ^ gridExponent n ∣ g
  · obtain ⟨k, rfl⟩ := hdvd
    rw [Nat.mul_comm _ k]
    rcases Nat.lt_or_ge (n / 2 ^ gridExponent n) k with hlt | hle
    · exact .inr (Nat.mul_le_mul_right _ hlt)
    · exact .inl (Nat.mul_le_mul_right _ hle)
  · obtain ⟨hlt, hne⟩ := hg.lt_of_not_dvd hdvd
    have hfloor : 2 ^ (52 : Nat) ≤ n / 2 ^ gridExponent n :=
      (Nat.le_div_iff_mul_le hpos).2 (mul_pow_gridExponent_le hne)
    exact .inl (Nat.le_trans (Nat.le_of_lt hlt) (Nat.mul_le_mul_right _ hfloor))

theorem GridPoint.dvd_of_le {g n : Nat} (hg : GridPoint g) (h : n ≤ g) :
    2 ^ gridExponent n ∣ g := by
  by_contra hdvd
  obtain ⟨hlt, hne⟩ := hg.lt_of_not_dvd hdvd
  have hle := mul_pow_gridExponent_le hne
  omega

/-! ## Quotients and square roots pass no grid point -/

theorem nearestQuotient_le_of_le_mul {num den k : Nat} (h : num ≤ k * den) :
    nearestQuotient num den ≤ k := by
  rcases Nat.eq_zero_or_pos den with rfl | hpos
  · have hzero : num = 0 := by omega
    simp [nearestQuotient, hzero]
  · have hquotient : num / den ≤ k := Nat.div_le_of_le_mul (by rwa [Nat.mul_comm])
    rcases Nat.lt_or_eq_of_le hquotient with hlt | heq
    · exact Nat.le_trans (nearestQuotient_le num den) hlt
    · -- the quotient is exact, and there is nothing to round up
      have hremainder : num % den = 0 := by
        have hsum := Nat.div_add_mod num den
        rw [heq, Nat.mul_comm] at hsum
        omega
      unfold nearestQuotient
      dsimp only
      rw [hremainder, heq, if_pos (by omega)]

theorem roundQuotient_le {num den g : Nat} (hg : GridPoint g) (h : num ≤ g * den) :
    roundQuotient num den ≤ g := by
  have hquotient : num / den ≤ g := Nat.div_le_of_le_mul (by rwa [Nat.mul_comm])
  obtain ⟨k, hk⟩ := hg.dvd_of_le hquotient
  unfold roundQuotient
  dsimp only
  generalize 2 ^ gridExponent (num / den) = step at hk ⊢
  have hle : nearestQuotient num (den * step) ≤ k := by
    apply nearestQuotient_le_of_le_mul
    rw [hk] at h
    calc num ≤ step * k * den := h
      _ = k * (den * step) := by ring
  rw [hk, Nat.mul_comm step]
  exact Nat.mul_le_mul_right step hle

theorem sqrt_div_le {num den k : Nat} (h : num ≤ k ^ (2 : Nat) * den) : (num / den).sqrt ≤ k := by
  have hquotient : num / den ≤ k ^ (2 : Nat) := Nat.div_le_of_le_mul (by rwa [Nat.mul_comm])
  exact (Nat.sqrt_le_sqrt hquotient).trans_eq (Nat.sqrt_eq' k)

theorem nearestSqrt_le_of_le_mul {num den k : Nat} (h : num ≤ k ^ (2 : Nat) * den) :
    nearestSqrt num den ≤ k := by
  rcases Nat.eq_zero_or_pos den with rfl | hpos
  · have hzero : num = 0 := by omega
    simp [nearestSqrt, hzero]
  · rcases Nat.lt_or_eq_of_le (sqrt_div_le h) with hlt | heq
    · exact Nat.le_trans (nearestSqrt_le num den) hlt
    · have hsquare : 4 * k ^ (2 : Nat) + 1 ≤ (2 * k + 1) ^ (2 : Nat) := by
        have hexpand : (2 * k + 1) ^ (2 : Nat) = 4 * k ^ (2 : Nat) + 4 * k + 1 := by ring
        omega
      have hhalfway : 4 * num < (2 * k + 1) ^ (2 : Nat) * den :=
        calc 4 * num ≤ 4 * (k ^ (2 : Nat) * den) := Nat.mul_le_mul_left 4 h
          _ < (4 * k ^ (2 : Nat) + 1) * den := by
            rw [Nat.add_mul, Nat.mul_assoc]
            omega
          _ ≤ (2 * k + 1) ^ (2 : Nat) * den := Nat.mul_le_mul_right den hsquare
      unfold nearestSqrt
      dsimp only
      rw [heq, if_pos hhalfway]

theorem roundSqrt_le {num den g : Nat} (hg : GridPoint g) (h : num ≤ g ^ (2 : Nat) * den) :
    roundSqrt num den ≤ g := by
  obtain ⟨k, hk⟩ := hg.dvd_of_le (sqrt_div_le h)
  unfold roundSqrt
  dsimp only
  generalize 2 ^ gridExponent (num / den).sqrt = step at hk ⊢
  have hle : nearestSqrt num (den * step ^ (2 : Nat)) ≤ k := by
    apply nearestSqrt_le_of_le_mul
    rw [hk] at h
    calc num ≤ (step * k) ^ (2 : Nat) * den := h
      _ = k ^ (2 : Nat) * (den * step ^ (2 : Nat)) := by ring
  rw [hk, Nat.mul_comm step]
  exact Nat.mul_le_mul_right step hle

/-! ## A quotient and its nearest grid point -/

/-- The multiple of the step below a quotient: rounding goes down when it is at most half a step
away, and else to the multiple above, and there is no grid point between the two. Halfway between
them it goes to the even one. -/
structure IsFloorOf (num den low : Nat) : Prop where
  dvd : 2 ^ gridExponent (num / den) ∣ low
  le : low * den ≤ num
  lt : num < low * den + 2 ^ gridExponent (num / den) * den
  round : roundQuotient num den = low ∧
      2 * (num - low * den) ≤ 2 ^ gridExponent (num / den) * den ∨
    roundQuotient num den = low + 2 ^ gridExponent (num / den) ∧
      2 ^ gridExponent (num / den) * den ≤ 2 * (num - low * den)
  even : 2 * (num - low * den) = 2 ^ gridExponent (num / den) * den →
    2 * 2 ^ gridExponent (num / den) ∣ roundQuotient num den
  grid : ∀ g, GridPoint g → g ≤ low ∨ low + 2 ^ gridExponent (num / den) ≤ g

theorem isFloorOf (num : Nat) {den : Nat} (hden : 0 < den) :
    IsFloorOf num den
      (num / den / 2 ^ gridExponent (num / den) * 2 ^ gridExponent (num / den)) := by
  have hpos : 0 < den * 2 ^ gridExponent (num / den) :=
    Nat.mul_pos hden (Nat.pow_pos Nat.zero_lt_two)
  have hgrid := fun g (hg : GridPoint g) => hg.le_or_le (num / den)
  have hround : roundQuotient num den =
      nearestQuotient num (den * 2 ^ gridExponent (num / den)) * 2 ^ gridExponent (num / den) := rfl
  have hsum := Nat.div_add_mod num (den * 2 ^ gridExponent (num / den))
  have hremainder := Nat.mod_lt num hpos
  rw [Nat.div_div_eq_div_mul] at hgrid ⊢
  have hlow : num / (den * 2 ^ gridExponent (num / den)) * 2 ^ gridExponent (num / den) * den =
      den * 2 ^ gridExponent (num / den) * (num / (den * 2 ^ gridExponent (num / den))) := by ring
  have hstep : 2 ^ gridExponent (num / den) * den = den * 2 ^ gridExponent (num / den) :=
    Nat.mul_comm _ _
  simp only [Nat.add_mul, Nat.one_mul] at hgrid
  unfold nearestQuotient at hround
  dsimp only at hround
  refine ⟨Nat.dvd_mul_left _ _, by omega, by omega, ?_, ?_, hgrid⟩
  · rw [hround]
    repeat' split
    · exact .inl ⟨rfl, by omega⟩
    · exact .inr ⟨by rw [Nat.add_mul, Nat.one_mul], by omega⟩
    · exact .inl ⟨rfl, by omega⟩
    · exact .inr ⟨by rw [Nat.add_mul, Nat.one_mul], by omega⟩
  · intro htie
    rw [hround, if_neg (by omega), if_neg (by omega)]
    split
    · exact Nat.mul_dvd_mul_right (Nat.dvd_of_mod_eq_zero (by assumption)) _
    · exact Nat.mul_dvd_mul_right (Nat.dvd_of_mod_eq_zero (by omega)) _

/-! ## A number and its nearest grid point -/

/-- The multiple of the step below a number: rounding goes down when it is at most half a step away,
and else to the multiple above, and there is no grid point between the two. -/
structure IsFloor (n low : Nat) : Prop where
  dvd : 2 ^ gridExponent n ∣ low
  le : low ≤ n
  lt : n < low + 2 ^ gridExponent n
  round : roundQuotient n 1 = low ∧ 2 * (n - low) ≤ 2 ^ gridExponent n ∨
    roundQuotient n 1 = low + 2 ^ gridExponent n ∧ 2 ^ gridExponent n ≤ 2 * (n - low)
  grid : ∀ g, GridPoint g → g ≤ low ∨ low + 2 ^ gridExponent n ≤ g

theorem isFloor (n : Nat) : IsFloor n (n / 2 ^ gridExponent n * 2 ^ gridExponent n) := by
  obtain ⟨hdvd, hle, hlt, hround, -, hgrid⟩ := isFloorOf n Nat.one_pos
  simp only [Nat.div_one, Nat.mul_one] at hdvd hle hlt hround hgrid
  exact ⟨hdvd, hle, hlt, hround, hgrid⟩

theorem dvd_roundQuotient_one (n : Nat) : 2 ^ gridExponent n ∣ roundQuotient n 1 := by
  have h := isFloor n
  rcases h.round with ⟨hround, -⟩ | ⟨hround, -⟩
  · exact hround ▸ h.dvd
  · exact hround ▸ Nat.dvd_add h.dvd (Nat.dvd_refl _)

theorem natAbs_sub_roundQuotient_lt (n : Nat) :
    ((n : Int) - roundQuotient n 1).natAbs < 2 ^ gridExponent n := by
  have h := isFloor n
  have hle := h.le
  have hlt := h.lt
  have hround := h.round
  omega

/-- No grid point is nearer to a number than the one to which it is rounded. -/
theorem natAbs_sub_roundQuotient_le (n : Nat) {g : Nat} (hg : GridPoint g) :
    ((n : Int) - roundQuotient n 1).natAbs ≤ ((n : Int) - g).natAbs := by
  have h := isFloor n
  have hle := h.le
  have hlt := h.lt
  have hround := h.round
  have hgrid := h.grid g hg
  omega

/-- A multiple of its own step stays as it is. -/
theorem roundQuotient_one_of_dvd {n : Nat} (h : 2 ^ gridExponent n ∣ n) :
    roundQuotient n 1 = n := by
  have hdvd := Int.dvd_sub (Int.natCast_dvd_natCast.2 h)
    (Int.natCast_dvd_natCast.2 (dvd_roundQuotient_one n))
  have hzero := Int.eq_zero_of_dvd_of_natAbs_lt_natAbs hdvd (natAbs_sub_roundQuotient_lt n)
  omega

/-- A number that is a multiple of a power of two is rounded to such a multiple. -/
theorem pow_dvd_roundQuotient_one {e n : Nat} (h : 2 ^ e ∣ n) : 2 ^ e ∣ roundQuotient n 1 := by
  rcases Nat.le_total e (gridExponent n) with hle | hle
  · exact Nat.dvd_trans (Nat.pow_dvd_pow 2 hle) (dvd_roundQuotient_one n)
  · rwa [roundQuotient_one_of_dvd (Nat.dvd_trans (Nat.pow_dvd_pow 2 hle) h)]

/-- Rounding makes a number larger by one part in `2 ^ 52` at most. -/
theorem mul_roundQuotient_le (n : Nat) :
    2 ^ (52 : Nat) * roundQuotient n 1 ≤ (2 ^ (52 : Nat) + 1) * n := by
  have hlt := natAbs_sub_roundQuotient_lt n
  by_cases h : gridExponent n = 0
  · rw [h] at hlt
    omega
  · have hstep := mul_pow_gridExponent_le h
    omega

end DesignMetrics.Binary64
