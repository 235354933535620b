import DesignMetrics.Proofs.Binary64.Quotient

/-!
# Rounding keeps the order

Of two quotients the larger one is not rounded to the smaller grid point: both would have to lie
halfway between the two, and then they are one quotient with one result. So every operation that
rounds an exact result follows the order of the exact results, past the largest finite number too,
where an infinity takes its place at the end of the line.
-/

namespace DesignMetrics.Binary64

variable {num den num' den' g g' : Nat}

/-! ## Grid points -/

theorem gap_mul (num den g k : Nat) : gap (num * k) (den * k) g = gap num den g * k := by
  have hdistribute : ((g * (den * k) : Nat) : Int) - (num * k : Nat) =
      ((g * den : Nat) - (num : Int)) * k := by
    push_cast
    ring
  rw [gap, gap, hdistribute, Int.natAbs_mul, Int.natAbs_natCast]

theorem RoundsTo.mul (h : RoundsTo num den g) {k : Nat} (hk : 0 < k) :
    RoundsTo (num * k) (den * k) g where
  gridPoint := h.gridPoint
  nearest g' hg' := by
    rw [gap_mul, gap_mul]
    exact Nat.mul_le_mul_right k (h.nearest g' hg')
  even g' hg' hne htie := by
    rw [gap_mul, gap_mul] at htie
    exact h.even g' hg' hne (Nat.eq_of_mul_eq_mul_right hk htie)

/-- The same quotient in other terms is rounded to the same grid point. -/
theorem roundQuotient_mul (num : Nat) (hden : 0 < den) {k : Nat} (hk : 0 < k) :
    roundQuotient (num * k) (den * k) = roundQuotient num den := by
  have hpos := Nat.mul_pos hden hk
  exact (roundsTo_roundQuotient _ hpos).unique hpos ((roundsTo_roundQuotient num hden).mul hk)

theorem RoundsTo.le_of_le (hden : 0 < den) (h : RoundsTo num den g) (h' : RoundsTo num' den g')
    (hle : num ≤ num') : g ≤ g' := by
  by_contra hlt
  have hbelow : g' * den < g * den := Nat.mul_lt_mul_of_pos_right (Nat.lt_of_not_le hlt) hden
  have hnearest := h.nearest g' h'.gridPoint
  have hnearest' := h'.nearest g h.gridPoint
  have heq : num = num' := by
    unfold gap at hnearest hnearest'
    omega
  subst heq
  exact hlt (Nat.le_of_eq (h.unique hden h'))

theorem roundQuotient_mono (hden : 0 < den) (hden' : 0 < den')
    (hle : num * den' ≤ num' * den) : roundQuotient num den ≤ roundQuotient num' den' := by
  have h := (roundsTo_roundQuotient num hden).mul hden'
  have h' := (roundsTo_roundQuotient num' hden').mul hden
  rw [Nat.mul_comm den'] at h'
  exact h.le_of_le (Nat.mul_pos hden hden') h' hle

/-! ## Numbers -/

theorem rank_ofUnits (negative : Bool) {units : Nat} (gridPoint : GridPoint units) :
    (ofUnits negative units gridPoint).rank =
      if negative then -((min units overflowUnits : Nat) : Int)
      else (min units overflowUnits : Nat) := by
  unfold ofUnits
  split
  · rename_i hlt
    rw [Nat.min_eq_left (Nat.le_of_lt hlt)]
    cases negative <;> rfl
  · rename_i hlt
    rw [Nat.min_eq_right (Nat.le_of_not_lt hlt)]
    cases negative <;> rfl

theorem atMost_ofQuotient (hden : 0 < den) (hden' : 0 < den') (hle : num * den' ≤ num' * den) :
    (ofQuotient false num den hden).atMost (ofQuotient false num' den' hden') := by
  have hround := roundQuotient_mono hden hden' hle
  apply decide_eq_true
  rw [ofQuotient, ofQuotient, rank_ofUnits, rank_ofUnits]
  simp only [Bool.false_eq_true, if_false]
  omega

/-- Ratios are in the order of the exact ratios. -/
theorem atMost_ofRatio (hden : 0 < (den : Int)) (hden' : 0 < (den' : Int))
    (hle : num * den' ≤ num' * den) : (ofRatio num den hden).atMost (ofRatio num' den' hden') := by
  rw [ofRatio_natCast, ofRatio_natCast]
  apply atMost_ofQuotient
  rw [Nat.mul_right_comm, Nat.mul_right_comm num']
  exact Nat.mul_le_mul_right unitsPerOne hle

theorem ofRatio_mul (num : Nat) (hden : 0 < (den : Int)) {k : Nat} (hk : 0 < k)
    (hmul : 0 < ((den * k : Nat) : Int)) :
    ofRatio (num * k : Nat) (den * k : Nat) hmul = ofRatio num den hden := by
  have hunits : num * k * unitsPerOne = num * unitsPerOne * k := Nat.mul_right_comm ..
  rw [ofRatio_natCast, ofRatio_natCast, ofQuotient, ofQuotient]
  simp only [hunits, roundQuotient_mul _ (Int.natCast_pos.1 hden) hk]

theorem atMost_ofScaled {a b : Int} (hle : a ≤ b) : (ofScaled a).atMost (ofScaled b) := by
  have hmono : ∀ {n n' : Nat}, n ≤ n' → roundQuotient n 1 ≤ roundQuotient n' 1 := by
    intro n n' h
    exact roundQuotient_mono Nat.one_pos Nat.one_pos (Nat.mul_le_mul_right 1 h)
  apply decide_eq_true
  rw [ofScaled, ofScaled, ofQuotient, ofQuotient, rank_ofUnits, rank_ofUnits]
  simp only [decide_eq_true_eq]
  rcases Int.lt_or_le a 0 with ha | ha
  · rcases Int.lt_or_le b 0 with hb | hb
    · have hround := hmono (show b.natAbs ≤ a.natAbs by omega)
      rw [if_pos ha, if_pos hb]
      omega
    · rw [if_pos ha, if_neg (Int.not_lt.2 hb)]
      omega
  · have hround := hmono (show a.natAbs ≤ b.natAbs by omega)
    rw [if_neg (Int.not_lt.2 ha), if_neg (by omega)]
    omega

variable {bound bound' bound'' : Nat} {x y y' : Binary64}

theorem Within.rank_eq (h : x.Within bound) : x.rank = x.scaled := by
  obtain ⟨m, rfl, -⟩ := h
  rfl

theorem Within.eq_of_scaled_eq (hx : x.Within bound) (hy : y.Within bound')
    (h : x.scaled = y.scaled) : x = y := by
  obtain ⟨m, rfl, -⟩ := hx
  obtain ⟨m', rfl, -⟩ := hy
  rw [Magnitude.eq_of_units (Int.ofNat.inj h)]

/-- Zero is the only number from zero to zero. -/
theorem Within.eq_zero (h : x.Within 0) : x = zero := by
  apply h.eq_of_scaled_eq within_zero
  have hscaled := Int.le_antisymm h.scaled_le h.scaled_nonneg
  have hzero := Int.le_antisymm within_zero.scaled_le within_zero.scaled_nonneg
  exact hscaled.trans hzero.symm

theorem Within.rank_nonneg (h : x.Within bound) : 0 ≤ x.rank := by
  rw [h.rank_eq]
  exact h.scaled_nonneg

/-! ## Between zero and one -/

/-- A number from zero to one. -/
def IsShare (x : Binary64) : Prop := zero.atMost x ∧ x.atMost one

theorem rank_one : one.rank = unitsPerOne := by
  rw [within_one.rank_eq, scaled_one]

theorem Within.isShare (h : x.Within unitsPerOne) : x.IsShare := by
  refine ⟨h.isProper.2, decide_eq_true ?_⟩
  rw [h.rank_eq, rank_one]
  exact h.scaled_le

/-- A number that is not above zero, and has no sign, is zero. -/
theorem Within.floored_eq (h : x.Within bound) : (if zero.below x then x else zero) = x := by
  split
  · rfl
  · rename_i hbelow
    have hrank := of_decide_eq_false (Bool.eq_false_of_not_eq_true hbelow)
    have hnonneg := h.rank_nonneg
    apply within_zero.eq_of_scaled_eq h
    rw [← within_zero.rank_eq, ← h.rank_eq]
    rw [rank_zero] at hrank ⊢
    omega

theorem Within.capped_eq (h : x.Within unitsPerOne) : (if x.below one then x else one) = x := by
  split
  · rfl
  · rename_i hbelow
    have hrank := of_decide_eq_false (Bool.eq_false_of_not_eq_true hbelow)
    have hle := h.scaled_le
    apply within_one.eq_of_scaled_eq h
    rw [h.rank_eq, rank_one] at hrank
    rw [scaled_one]
    omega

/-- A proper part of a whole of at most `2 ^ 53` is not rounded up to the whole. -/
theorem rank_ofRatio_lt (hden : 0 < (den : Int)) (hlt : num < den)
    (hlimit : den ≤ 2 ^ (53 : Nat)) : (ofRatio num den hden).rank < one.rank := by
  obtain ⟨e, he⟩ : ∃ e, 1074 = 53 + e := ⟨1021, rfl⟩
  have hone : unitsPerOne = 2 ^ (53 : Nat) * 2 ^ e := by
    rw [unitsPerOne_eq, he, Nat.pow_add]
  have hstep : 0 < 2 ^ e := Nat.pow_pos Nat.zero_lt_two
  -- one step below one there is a grid point, and the part is at most that
  have hgrid := gridPoint_of_le (Nat.sub_le (2 ^ (53 : Nat)) 1) e
  have hbound : (2 ^ (53 : Nat) - 1) * 2 ^ e < unitsPerOne := by
    rw [hone]
    exact Nat.mul_lt_mul_of_pos_right (by decide) hstep
  have hshare : (ofRatio num den hden).Within ((2 ^ (53 : Nat) - 1) * 2 ^ e) := by
    apply within_ofRatio hden hgrid (Nat.lt_trans hbound unitsPerOne_lt)
    rw [hone, Nat.mul_right_comm _ (2 ^ e), ← Nat.mul_assoc]
    apply Nat.mul_le_mul_right
    omega
  have hle := hshare.scaled_le
  rw [hshare.rank_eq, rank_one]
  omega

/-! ## Differences -/

/-- The more is taken away, the less is left. -/
theorem Within.sub_atMost_sub (hx : x.Within bound) (hy : y.Within bound') (hy' : y'.Within bound'')
    (hle : y.atMost y') : (x - y').atMost (x - y) := by
  have hscaled := of_decide_eq_true hle
  rw [hy.rank_eq, hy'.rank_eq] at hscaled
  obtain ⟨m, rfl, -⟩ := hx
  obtain ⟨k, rfl, -⟩ := hy
  obtain ⟨k', rfl, -⟩ := hy'
  rw [finite_sub_finite, finite_sub_finite]
  exact atMost_ofScaled (Int.add_le_add_left (Int.neg_le_neg hscaled) _)

/-- Nothing is left of one when a whole is taken away. -/
theorem one_sub_ofRatio_self (hden : 0 < (den : Int)) : one - ofRatio den den hden = zero := by
  have hratio := ofRatio_mul 1 Int.one_pos (Int.natCast_pos.1 hden)
  simp only [Nat.one_mul] at hratio
  rw [hratio hden]
  decide +kernel

/-- Something is left of a number when less than the number is taken away. -/
theorem Within.sub_rank_pos (hx : x.Within bound) (hy : y.Within bound') (hlt : y.rank < x.rank) :
    0 < (x - y).rank := by
  rw [hx.rank_eq, hy.rank_eq] at hlt
  obtain ⟨m, rfl, -⟩ := hx
  obtain ⟨k, rfl, -⟩ := hy
  have hpos : (0 : Int) < m.units + -k.units := Int.sub_pos.2 hlt
  have hround := roundQuotient_one_pos (Int.natAbs_ne_zero.2 (Int.ne_of_gt hpos))
  have hlimit := overflowUnits_pos
  rw [finite_sub_finite, ofScaled, ofQuotient, rank_ofUnits]
  simp only [decide_eq_true_eq]
  rw [if_neg (by omega)]
  omega

end DesignMetrics.Binary64
