import DesignMetrics.Proofs.Binary64.Nearest

/-!
# Numbers in range

A number is known to be finite, and not below zero, by a grid point that it does not exceed. Every
operation whose exact result is at most a grid point in range keeps to that grid point. So the ratio
of a part to a whole is at most one, whatever the sizes of the two.
-/

namespace DesignMetrics.Binary64

/-- A finite number that is at least zero. -/
def IsProper (x : Binary64) : Prop := x.isFinite ∧ zero.atMost x

instance (x : Binary64) : Decidable x.IsProper := inferInstanceAs (Decidable (_ ∧ _))

/-- A finite number without a sign and of at most the given number of units. -/
def Within (bound : Nat) (x : Binary64) : Prop :=
  ∃ m : Magnitude, x = .finite false m ∧ m.units ≤ bound

theorem gridPoint_unitsPerOne : GridPoint unitsPerOne := by
  rw [unitsPerOne_eq]
  exact gridPoint_pow _

theorem gridPoint_two_mul_unitsPerOne : GridPoint (2 * unitsPerOne) := by
  rw [unitsPerOne_eq]
  exact gridPoint_of_le (by decide) _

theorem two_mul_unitsPerOne_lt : 2 * unitsPerOne < overflowUnits := by
  have hpow : ∀ e e' : Nat, e + 1 < e' → 2 * 2 ^ e < 2 ^ e' := by
    intro e e' h
    rw [Nat.mul_comm, ← Nat.pow_succ]
    exact Nat.pow_lt_pow_right (by decide) h
  rw [unitsPerOne_eq, overflowUnits_eq]
  exact hpow 1074 2098 (by decide)

theorem unitsPerOne_lt : unitsPerOne < overflowUnits :=
  Nat.lt_of_le_of_lt (Nat.le_mul_of_pos_left _ (by decide)) two_mul_unitsPerOne_lt

variable {bound num den : Nat} {x y : Binary64} {hden : 0 < den}

theorem rank_zero : zero.rank = 0 := by decide +kernel

theorem Within.isProper (h : x.Within bound) : x.IsProper := by
  obtain ⟨m, rfl, -⟩ := h
  refine ⟨rfl, ?_⟩
  rw [atMost, rank_zero]
  exact decide_eq_true (Int.natCast_nonneg m.units)

theorem Within.isFinite (h : x.Within bound) : x.isFinite := h.isProper.1

theorem Within.scaled_nonneg (h : x.Within bound) : 0 ≤ x.scaled := by
  obtain ⟨m, rfl, -⟩ := h
  exact Int.natCast_nonneg m.units

theorem Within.scaled_le (h : x.Within bound) : x.scaled ≤ bound := by
  obtain ⟨m, rfl, hle⟩ := h
  exact Int.ofNat_le.2 hle

theorem Within.mono (h : x.Within bound) {bound' : Nat} (hle : bound ≤ bound') :
    x.Within bound' := by
  obtain ⟨m, rfl, hm⟩ := h
  exact ⟨m, rfl, Nat.le_trans hm hle⟩

/-! ## Results of operations -/

theorem within_ofUnits {units : Nat} {gridPoint : GridPoint units}
    (hbound : bound < overflowUnits) (h : units ≤ bound) :
    (ofUnits false units gridPoint).Within bound := by
  rw [ofUnits, dif_pos (Nat.lt_of_le_of_lt h hbound)]
  exact ⟨⟨units, gridPoint, Nat.lt_of_le_of_lt h hbound⟩, rfl, h⟩

theorem within_ofQuotient (hgrid : GridPoint bound) (hbound : bound < overflowUnits)
    (h : num ≤ bound * den) : (ofQuotient false num den hden).Within bound :=
  within_ofUnits hbound (roundQuotient_le hgrid h)

theorem scaled_ofQuotient_le (num : Nat) (hden : 0 < den) :
    (ofQuotient false num den hden).scaled ≤ roundQuotient num den := by
  rw [ofQuotient, ofUnits]
  split
  · exact Int.le_refl _
  · exact Int.natCast_nonneg _

theorem within_ofSqrt (hden : 0 < den) (hgrid : GridPoint bound) (hbound : bound < overflowUnits)
    (h : num ≤ bound ^ (2 : Nat) * den) : (ofSqrt num den hden).Within bound :=
  within_ofUnits hbound (roundSqrt_le hgrid h)

theorem within_ofScaled (hgrid : GridPoint bound) (hbound : bound < overflowUnits) {scaled : Int}
    (hnonneg : 0 ≤ scaled) (h : scaled ≤ bound) : (ofScaled scaled).Within bound := by
  rw [ofScaled, decide_eq_false (by omega)]
  apply within_ofQuotient hgrid hbound
  omega

theorem ofRatio_natCast (num : Nat) (hden : 0 < (den : Int)) :
    ofRatio num den hden = ofQuotient false (num * unitsPerOne) den (Int.natCast_pos.1 hden) := by
  have hnum : ¬ ((num : Int) < 0) := by omega
  rw [ofRatio, decide_eq_false hnum]
  rfl

theorem within_ofRatio (hden : 0 < (den : Int)) (hgrid : GridPoint bound)
    (hbound : bound < overflowUnits) (h : num * unitsPerOne ≤ bound * den) :
    (ofRatio num den hden).Within bound := by
  rw [ofRatio_natCast]
  exact within_ofQuotient hgrid hbound h

theorem within_zero : zero.Within 0 := by
  have hzero : zero = ofQuotient false 0 1 Nat.one_pos := by
    rw [zero, ofInt, Int.natAbs_zero, Nat.zero_mul]
    rfl
  rw [hzero]
  exact within_ofQuotient gridPoint_zero (Nat.lt_trans unitsPerOne_pos unitsPerOne_lt)
    (Nat.zero_le _)

theorem scaled_one : one.scaled = unitsPerOne := by decide +kernel

theorem within_one : one.Within unitsPerOne := by
  have hone : one = ofQuotient false unitsPerOne 1 Nat.one_pos := by
    rw [one, ofInt, Int.natAbs_one, Nat.one_mul]
    rfl
  rw [hone]
  exact within_ofQuotient gridPoint_unitsPerOne unitsPerOne_lt (Nat.le_of_eq (Nat.mul_one _).symm)

/-- A part of a whole is a number from zero to one. -/
theorem within_ofRatio_of_le (hden : 0 < (den : Int)) (h : num ≤ den) :
    (ofRatio num den hden).Within unitsPerOne := by
  apply within_ofRatio hden gridPoint_unitsPerOne unitsPerOne_lt
  rw [Nat.mul_comm unitsPerOne]
  exact Nat.mul_le_mul_right _ h

theorem Within.divNat (h : x.Within bound) (hgrid : GridPoint bound)
    (hbound : bound < overflowUnits) {n : Nat} (hn : 0 < n) : (x.divNat n hn).Within bound := by
  obtain ⟨m, rfl, hle⟩ := h
  have hquotient : m.units ≤ bound * n := Nat.le_trans hle (Nat.le_mul_of_pos_right bound hn)
  exact within_ofUnits hbound (roundQuotient_le hgrid hquotient)

theorem Within.add {bound' : Nat} (hx : x.Within bound) (hy : y.Within bound')
    (hgrid : GridPoint num) (hnum : num < overflowUnits) (hle : x.scaled + y.scaled ≤ num) :
    (x + y).Within num := by
  have hnonneg := Int.add_nonneg hx.scaled_nonneg hy.scaled_nonneg
  obtain ⟨m, rfl, -⟩ := hx
  obtain ⟨m', rfl, -⟩ := hy
  exact within_ofScaled hgrid hnum hnonneg hle

theorem finite_sub_finite (m m' : Magnitude) :
    Binary64.finite false m - .finite false m' = ofScaled (m.units + -m'.units) :=
  rfl

theorem Within.sub (hx : x.Within bound) (hy : y.Within bound) (hgrid : GridPoint bound)
    (hbound : bound < overflowUnits) (hle : y.scaled ≤ x.scaled) : (x - y).Within bound := by
  have hscaled := hx.scaled_le
  have hnonneg := hy.scaled_nonneg
  obtain ⟨m, rfl, -⟩ := hx
  obtain ⟨m', rfl, -⟩ := hy
  rw [finite_sub_finite]
  apply within_ofScaled hgrid hbound
  · exact Int.sub_nonneg.2 hle
  · exact Int.le_trans (Int.sub_le_self _ hnonneg) hscaled

theorem Within.abs_sub {bound' : Nat} (hx : x.Within bound) (hy : y.Within bound')
    (hgrid : GridPoint num) (hnum : num < overflowUnits)
    (hle : (x.scaled - y.scaled).natAbs ≤ num) : (x - y).abs.Within num := by
  obtain ⟨m, rfl, -⟩ := hx
  obtain ⟨m', rfl, -⟩ := hy
  have hround : roundQuotient ((m.units : Int) + -(m'.units : Int)).natAbs 1 ≤ num := by
    apply roundQuotient_le hgrid
    rw [Nat.mul_one]
    exact hle
  rw [finite_sub_finite, ofScaled, ofQuotient, ofUnits, dif_pos (Nat.lt_of_le_of_lt hround hnum)]
  exact ⟨_, rfl, hround⟩

end DesignMetrics.Binary64
