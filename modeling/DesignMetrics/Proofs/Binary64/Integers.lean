import DesignMetrics.Binary64.Basic

/-!
# Integers as binary64 numbers

The number nearest to an integer has the integer's sign, and it is zero for zero alone. So no
integer becomes the negative zero, and the numbers of integers are told apart by their place on the
line.
-/

namespace DesignMetrics.Binary64

theorem le_nearestQuotient (num den : Nat) : num / den ≤ nearestQuotient num den := by
  unfold nearestQuotient
  dsimp only
  repeat' split
  all_goals omega

theorem pow_gridExponent_le {n : Nat} (h : n ≠ 0) : 2 ^ gridExponent n ≤ n := by
  have hle : gridExponent n ≤ n.log2 := Nat.sub_le _ _
  exact Nat.le_trans (Nat.pow_le_pow_right (by decide) hle) (Nat.log2_self_le h)

theorem roundQuotient_one_pos {num : Nat} (h : num ≠ 0) : 0 < roundQuotient num 1 := by
  have hpos : 0 < 2 ^ gridExponent num := Nat.pow_pos (by decide)
  have hquotient : 1 ≤ num / 2 ^ gridExponent num :=
    (Nat.one_le_div_iff hpos).2 (pow_gridExponent_le h)
  have hle := le_nearestQuotient num (2 ^ gridExponent num)
  have hround : roundQuotient num 1 =
      nearestQuotient num (2 ^ gridExponent num) * 2 ^ gridExponent num := by
    rw [roundQuotient, Nat.div_one, Nat.one_mul]
  rw [hround]
  exact Nat.mul_pos (by omega) hpos

theorem Magnitude.eq_of_units {a b : Magnitude} (h : a.units = b.units) : a = b := by
  cases a
  cases b
  cases h
  rfl

theorem exists_ofInt_eq {n : Int} (h : (ofInt n).isFinite) :
    ∃ m : Magnitude, ofInt n = .finite (n < 0) m ∧ (m.units = 0 → n = 0) := by
  unfold ofInt ofQuotient ofUnits at h ⊢
  split at h
  · rename_i hlt
    refine ⟨_, dif_pos hlt, fun hunits => ?_⟩
    refine Decidable.byContradiction fun hn => ?_
    have hnum : n.natAbs * unitsPerOne ≠ 0 :=
      Nat.mul_ne_zero (Int.natAbs_ne_zero.2 hn) (Nat.pos_iff_ne_zero.1 unitsPerOne_pos)
    exact absurd hunits (Nat.pos_iff_ne_zero.1 (roundQuotient_one_pos hnum))
  · simp [isFinite] at h

theorem rank_injective_ofInt {a b : Int} (ha : (ofInt a).isFinite) (hb : (ofInt b).isFinite)
    (h : (ofInt a).rank = (ofInt b).rank) : ofInt a = ofInt b := by
  obtain ⟨m, hm, hmzero⟩ := exists_ofInt_eq ha
  obtain ⟨k, hk, hkzero⟩ := exists_ofInt_eq hb
  rw [hm, hk] at h ⊢
  by_cases hsigna : a < 0 <;> by_cases hsignb : b < 0 <;>
    simp only [hsigna, hsignb, decide_true, decide_false, rank, scaled] at h ⊢
  -- a number below zero and one that is not could only meet at zero, and neither is a negative zero
  · rw [Magnitude.eq_of_units (by omega : m.units = k.units)]
  · exact absurd (hmzero (by omega)) (by omega)
  · exact absurd (hkzero (by omega)) (by omega)
  · rw [Magnitude.eq_of_units (by omega : m.units = k.units)]

end DesignMetrics.Binary64
