import Mathlib.Analysis.Real.Sqrt
import DesignMetrics.Proofs.Binary64.Exact

/-!
# Correctly rounded square roots

The square root of a quotient lies between two multiples of a step, and no grid point lies between
the two. The integer square root gives the lower one, and whether the root is past the middle is
seen from squares, so that rounding picks the nearest grid point to the real root. Of two real
numbers the larger one is not rounded to the smaller grid point.
-/

namespace DesignMetrics.Binary64

/-- The grid point nearest to a real number of units; halfway between two, the one that ends in a
zero bit. -/
structure NearestTo (r : ℝ) (rounded : Nat) : Prop where
  gridPoint : GridPoint rounded
  nearest : ∀ g, GridPoint g → |(rounded : ℝ) - r| ≤ |(g : ℝ) - r|
  even : ∀ g, GridPoint g → g ≠ rounded → |(g : ℝ) - r| = |(rounded : ℝ) - r| →
    EndsInZero rounded

variable {num den num' den' low g g' : Nat} {r r' : ℝ}

/-! ## Quotients as real numbers -/

theorem gap_eq (num : Nat) (hden : 0 < den) (g : Nat) :
    (gap num den g : ℝ) = |(g : ℝ) - num / den| * den := by
  have hpos : (0 : ℝ) < den := Nat.cast_pos.2 hden
  have hexpand : (g : ℝ) * den - num = (g - num / den) * den := by
    rw [sub_mul, div_mul_cancel₀ _ (ne_of_gt hpos)]
  rw [gap, Nat.cast_natAbs, Int.cast_abs]
  push_cast
  rw [hexpand, abs_mul, abs_of_pos hpos]

/-- A quotient of natural numbers is rounded correctly when its real value is. -/
theorem nearestTo_div_iff (hden : 0 < den) :
    NearestTo (num / den) g ↔ RoundsTo num den g := by
  have hpos : (0 : ℝ) < den := Nat.cast_pos.2 hden
  have hle : ∀ g g' : Nat, |(g : ℝ) - num / den| ≤ |(g' : ℝ) - num / den| ↔
      gap num den g ≤ gap num den g' := by
    intro g g'
    rw [← Nat.cast_le (α := ℝ), gap_eq num hden, gap_eq num hden, mul_le_mul_iff_left₀ hpos]
  have heq : ∀ g g' : Nat, |(g : ℝ) - num / den| = |(g' : ℝ) - num / den| ↔
      gap num den g = gap num den g' := by
    intro g g'
    rw [le_antisymm_iff, hle, hle, ← le_antisymm_iff]
  constructor
  · rintro ⟨hgrid, hnearest, heven⟩
    exact ⟨hgrid, fun g' hg' => (hle _ _).1 (hnearest g' hg'),
      fun g' hg' hne htie => heven g' hg' hne ((heq _ _).2 htie)⟩
  · rintro ⟨hgrid, hnearest, heven⟩
    exact ⟨hgrid, fun g' hg' => (hle _ _).2 (hnearest g' hg'),
      fun g' hg' hne htie => heven g' hg' hne ((heq _ _).1 htie)⟩

/-! ## Rounding keeps the order -/

/-- Of two numbers that are rounded, the larger one is not rounded to the smaller grid point: both
would have to be the middle between the two. -/
theorem NearestTo.le_of_le (h : NearestTo r g) (h' : NearestTo r' g') (hle : r ≤ r') : g ≤ g' := by
  by_contra hlt
  have hbelow : (g' : ℝ) < g := Nat.cast_lt.2 (Nat.lt_of_not_le hlt)
  have hnearest := sq_le_sq.2 (h.nearest g' h'.gridPoint)
  have hnearest' := sq_le_sq.2 (h'.nearest g h.gridPoint)
  have hmiddle : ((g + g' : Nat) : ℝ) / (2 : Nat) ≤ r := by
    push_cast
    nlinarith
  have hmiddle' : r' ≤ ((g + g' : Nat) : ℝ) / (2 : Nat) := by
    push_cast
    nlinarith
  have hr : r = ((g + g' : Nat) : ℝ) / (2 : Nat) := le_antisymm (hle.trans hmiddle') hmiddle
  have hr' : r' = ((g + g' : Nat) : ℝ) / (2 : Nat) := le_antisymm hmiddle' (hmiddle.trans hle)
  rw [hr, nearestTo_div_iff Nat.zero_lt_two] at h
  rw [hr', nearestTo_div_iff Nat.zero_lt_two] at h'
  exact hlt (Nat.le_of_eq (h.unique Nat.zero_lt_two h'))

/-! ## Square roots compared with natural numbers -/

theorem two_mul_sqrt (num den : Nat) : 2 * √((num : ℝ) / den) = √(4 * num / den) := by
  rw [mul_div_assoc, Real.sqrt_mul (by norm_num), show (4 : ℝ) = 2 ^ 2 by norm_num,
    Real.sqrt_sq (by norm_num)]

/-- A number is compared with twice a square root by its square. -/
theorem natCast_le_two_mul_sqrt (num : Nat) (hden : 0 < den) (a : Nat) :
    (a : ℝ) ≤ 2 * √(num / den) ↔ a ^ (2 : Nat) * den ≤ 4 * num := by
  have hpos : (0 : ℝ) < den := Nat.cast_pos.2 hden
  rw [two_mul_sqrt, Real.le_sqrt (Nat.cast_nonneg a) (by positivity), le_div_iff₀ hpos]
  exact_mod_cast Iff.rfl

theorem two_mul_sqrt_le_natCast (num : Nat) (hden : 0 < den) (a : Nat) :
    2 * √(num / den) ≤ (a : ℝ) ↔ 4 * num ≤ a ^ (2 : Nat) * den := by
  have hpos : (0 : ℝ) < den := Nat.cast_pos.2 hden
  rw [two_mul_sqrt, Real.sqrt_le_left (Nat.cast_nonneg a), div_le_iff₀ hpos]
  exact_mod_cast Iff.rfl

/-! ## A square root and its nearest grid point -/

/-- The multiple of a step below a square root: rounding goes down when it is at most half a step
away, and else to the multiple above, and there is no grid point between the two. Halfway between
them it goes to the even one. -/
structure IsFloorOfRoot (num den low step : Nat) : Prop where
  le : (2 * low) ^ (2 : Nat) * den ≤ 4 * num
  lt : 4 * num < (2 * (low + step)) ^ (2 : Nat) * den
  round : roundSqrt num den = low ∧ 4 * num ≤ (2 * low + step) ^ (2 : Nat) * den ∨
    roundSqrt num den = low + step ∧ (2 * low + step) ^ (2 : Nat) * den ≤ 4 * num
  even : 4 * num = (2 * low + step) ^ (2 : Nat) * den → 2 * step ∣ roundSqrt num den
  grid : ∀ g, GridPoint g → g ≤ low ∨ low + step ≤ g

theorem isFloorOfRoot (num : Nat) (hden : 0 < den) :
    IsFloorOfRoot num den
      ((num / den).sqrt / 2 ^ gridExponent (num / den).sqrt *
        2 ^ gridExponent (num / den).sqrt)
      (2 ^ gridExponent (num / den).sqrt) := by
  have hgrid := fun g (hg : GridPoint g) => hg.le_or_le (num / den).sqrt
  have hround : roundSqrt num den =
      nearestSqrt num (den * (2 ^ gridExponent (num / den).sqrt) ^ (2 : Nat)) *
        2 ^ gridExponent (num / den).sqrt := rfl
  have hstep : 0 < 2 ^ gridExponent (num / den).sqrt := Nat.pow_pos Nat.zero_lt_two
  generalize 2 ^ gridExponent (num / den).sqrt = step at hgrid hround hstep ⊢
  have hscaled : 0 < den * step ^ (2 : Nat) := Nat.mul_pos hden (Nat.pow_pos hstep)
  have hroot : (num / (den * step ^ (2 : Nat))).sqrt = (num / den).sqrt / step := by
    rw [← Nat.div_div_eq_div_mul, sqrt_div_sq _ hstep]
  have hle := Nat.sqrt_le' (num / (den * step ^ (2 : Nat)))
  have hlt := Nat.lt_succ_sqrt' (num / (den * step ^ (2 : Nat)))
  unfold nearestSqrt at hround
  dsimp only at hround
  rw [hroot] at hle hlt hround
  generalize (num / den).sqrt / step = root at hgrid hround hle hlt ⊢
  rw [Nat.le_div_iff_mul_le hscaled] at hle
  rw [Nat.div_lt_iff_lt_mul hscaled, Nat.succ_eq_add_one] at hlt
  have hhalfway : (2 * (root * step) + step) ^ (2 : Nat) * den =
      (2 * root + 1) ^ (2 : Nat) * (den * step ^ (2 : Nat)) := by ring
  refine { le := ?_, lt := ?_, round := ?_, even := ?_, grid := ?_ }
  · calc (2 * (root * step)) ^ (2 : Nat) * den =
        4 * (root ^ (2 : Nat) * (den * step ^ (2 : Nat))) := by ring
      _ ≤ 4 * num := Nat.mul_le_mul_left 4 hle
  · calc 4 * num < 4 * ((root + 1) ^ (2 : Nat) * (den * step ^ (2 : Nat))) := by omega
      _ = (2 * (root * step + step)) ^ (2 : Nat) * den := by ring
  · rw [hhalfway, hround]
    repeat' split
    · exact .inl ⟨rfl, by omega⟩
    · exact .inr ⟨by rw [Nat.add_mul, Nat.one_mul], by omega⟩
    · exact .inl ⟨rfl, by omega⟩
    · exact .inr ⟨by rw [Nat.add_mul, Nat.one_mul], by omega⟩
  · intro htie
    rw [hhalfway] at htie
    rw [hround, if_neg (by omega), if_neg (by omega)]
    split
    · exact Nat.mul_dvd_mul_right (Nat.dvd_of_mod_eq_zero (by assumption)) _
    · exact Nat.mul_dvd_mul_right (Nat.dvd_of_mod_eq_zero (by omega)) _
  · simpa only [Nat.add_mul, Nat.one_mul] using hgrid

/-- Between two neighbours a number is rounded to the one that is not further away. -/
theorem nearestTo_of_between {high rounded : Nat} (hle : (low : ℝ) ≤ r) (hge : r ≤ high)
    (hgridPoint : GridPoint rounded)
    (hround : rounded = low ∧ 2 * r ≤ low + high ∨ rounded = high ∧ low + high ≤ 2 * r)
    (heven : 2 * r = low + high → EndsInZero rounded)
    (hgrid : ∀ g, GridPoint g → g ≤ low ∨ high ≤ g) : NearestTo r rounded := by
  have hbelow : ∀ g : Nat, g ≤ low → (g : ℝ) ≤ low ∧ |(g : ℝ) - r| = r - g := by
    intro g hg
    have hg : (g : ℝ) ≤ low := Nat.cast_le.2 hg
    exact ⟨hg, by rw [abs_of_nonpos (by linarith), neg_sub]⟩
  have habove : ∀ g : Nat, high ≤ g → (high : ℝ) ≤ g ∧ |(g : ℝ) - r| = g - r := by
    intro g hg
    have hg : (high : ℝ) ≤ g := Nat.cast_le.2 hg
    exact ⟨hg, abs_of_nonneg (by linarith)⟩
  have hlow := (hbelow low (Nat.le_refl _)).2
  have hhigh := (habove high (Nat.le_refl _)).2
  refine ⟨hgridPoint, fun g hg => ?_, fun g hg hne htie => heven ?_⟩
  · rcases hgrid g hg with hside | hside
    · obtain ⟨hside, hgap⟩ := hbelow g hside
      rcases hround with ⟨rfl, hhalf⟩ | ⟨rfl, hhalf⟩
      · linarith
      · linarith
    · obtain ⟨hside, hgap⟩ := habove g hside
      rcases hround with ⟨rfl, hhalf⟩ | ⟨rfl, hhalf⟩
      · linarith
      · linarith
  · -- on the side of the result every other grid point is further away, so both sides are as near
    rcases hgrid g hg with hside | hside
    · obtain ⟨hside, hgap⟩ := hbelow g hside
      rcases hround with ⟨rfl, hhalf⟩ | ⟨rfl, hhalf⟩
      · exact absurd (Nat.cast_injective (R := ℝ) (by linarith)) hne
      · linarith
    · obtain ⟨hside, hgap⟩ := habove g hside
      rcases hround with ⟨rfl, hhalf⟩ | ⟨rfl, hhalf⟩
      · linarith
      · exact absurd (Nat.cast_injective (R := ℝ) (by linarith)) hne

/-- The square root of a quotient is rounded correctly. -/
theorem nearestTo_roundSqrt (num : Nat) (hden : 0 < den) :
    NearestTo √(num / den) (roundSqrt num den) := by
  have h := isFloorOfRoot num hden
  have hbound : roundSqrt num den ≤
      2 ^ (53 : Nat) * 2 ^ gridExponent (num / den).sqrt := by
    apply roundSqrt_le (gridPoint_of_le (Nat.le_refl _) _)
    have hroot := Nat.lt_succ_sqrt' (num / den)
    have hlt := Nat.pow_le_pow_left (lt_pow_gridExponent (num / den).sqrt) 2
    exact Nat.le_of_lt ((Nat.div_lt_iff_lt_mul hden).1 (Nat.lt_of_lt_of_le hroot hlt))
  generalize gridExponent (num / den).sqrt = e at h hbound
  generalize (num / den).sqrt / 2 ^ e * 2 ^ e = low at h
  have hroot := natCast_le_two_mul_sqrt num hden
  have hroot' := two_mul_sqrt_le_natCast num hden
  have hle := (hroot (2 * low)).2 h.le
  have hlt := mt (hroot (2 * (low + 2 ^ e))).1 (Nat.not_le_of_lt h.lt)
  have hmiddle : ((2 * low + 2 ^ e : Nat) : ℝ) = low + (low + 2 ^ e : Nat) := by
    push_cast
    ring
  rw [Nat.cast_mul, Nat.cast_two] at hle hlt
  refine nearestTo_of_between (by linarith) (by linarith) (gridPoint_roundSqrt num den) ?_ ?_ h.grid
  · rw [← hmiddle]
    rcases h.round with ⟨hround, hhalf⟩ | ⟨hround, hhalf⟩
    · exact .inl ⟨hround, (hroot' _).2 hhalf⟩
    · exact .inr ⟨hround, (hroot _).2 hhalf⟩
  · intro htie
    rw [← hmiddle] at htie
    have hhalf := Nat.le_antisymm ((hroot' _).1 htie.le) ((hroot _).1 htie.ge)
    exact endsInZero_of_dvd (h.even hhalf) hbound

theorem roundSqrt_mono (hden : 0 < den) (hden' : 0 < den') (hle : num * den' ≤ num' * den) :
    roundSqrt num den ≤ roundSqrt num' den' := by
  have hpos : (0 : ℝ) < den := Nat.cast_pos.2 hden
  have hpos' : (0 : ℝ) < den' := Nat.cast_pos.2 hden'
  have hquotient : (num : ℝ) / den ≤ num' / den' := by
    rw [div_le_div_iff₀ hpos hpos']
    exact_mod_cast hle
  exact (nearestTo_roundSqrt num hden).le_of_le (nearestTo_roundSqrt num' hden')
    (Real.sqrt_le_sqrt hquotient)

/-! ## Numbers -/

/-- Square roots are in the order of the exact square roots. -/
theorem atMost_ofSqrt (hden : 0 < den) (hden' : 0 < den') (hle : num * den' ≤ num' * den) :
    (ofSqrt num den hden).atMost (ofSqrt num' den' hden') := by
  have hround := roundSqrt_mono hden hden' hle
  apply decide_eq_true
  rw [ofSqrt, ofSqrt, rank_ofUnits, rank_ofUnits]
  simp only [Bool.false_eq_true, if_false]
  omega

/-- The number nearest to a real number: no finite number is nearer, and when another one is as near
the number is the one that ends in a zero bit. It has a sign only if the real number is below
zero. -/
structure IsNearest (x : Binary64) (r : ℝ) : Prop where
  finite : x.isFinite
  sign : ∀ m, x = .finite true m → r < 0
  nearest : ∀ y : Binary64, y.isFinite → |x.toReal - r| ≤ |y.toReal - r|
  even : ∀ y : Binary64, y.isFinite → y.toReal ≠ x.toReal → |y.toReal - r| = |x.toReal - r| →
    EndsInZero x.scaled.natAbs

theorem gridPoint_natAbs_scaled (x : Binary64) : GridPoint x.scaled.natAbs := by
  cases x with
  | finite negative m =>
    cases negative with
    | false => exact m.gridPoint
    | true =>
      rw [scaled, Int.natAbs_neg]
      exact m.gridPoint
  | infinite negative => exact gridPoint_zero
  | nan => exact gridPoint_zero

theorem abs_toReal_sub (x : Binary64) (r : ℝ) :
    |x.toReal - r| = |(x.scaled : ℝ) - r * unitsPerOne| / unitsPerOne := by
  have hpos : (0 : ℝ) < unitsPerOne := Nat.cast_pos.2 unitsPerOne_pos
  rw [toReal, ← abs_of_pos hpos, ← abs_div, abs_of_pos hpos, sub_div,
    mul_div_cancel_right₀ _ (ne_of_gt hpos)]

/-- A number below zero is further away from one that is not than the number without its sign. -/
theorem abs_natAbs_sub_le (n : Int) (hr : 0 ≤ r) : |(n.natAbs : ℝ) - r| ≤ |(n : ℝ) - r| := by
  have h := abs_abs_sub_abs_le (n : ℝ) r
  rwa [abs_of_nonneg hr, ← Int.cast_abs, ← Nat.cast_natAbs] at h

theorem NearestTo.isNearest {m : Magnitude} (h : NearestTo (r * unitsPerOne) m.units)
    (hr : 0 ≤ r) : (Binary64.finite false m).IsNearest r := by
  have hpos : (0 : ℝ) < unitsPerOne := Nat.cast_pos.2 unitsPerOne_pos
  have hunits : (0 : ℝ) ≤ r * unitsPerOne := mul_nonneg hr hpos.le
  have hx : ((Binary64.finite false m).scaled : ℝ) = m.units := Int.cast_natCast _
  refine ⟨rfl, by rintro _ ⟨⟩, fun y _ => ?_, fun y _ hne htie => ?_⟩
  · rw [abs_toReal_sub, abs_toReal_sub, hx, div_le_div_iff_of_pos_right hpos]
    exact (h.nearest _ y.gridPoint_natAbs_scaled).trans (abs_natAbs_sub_le y.scaled hunits)
  · rw [abs_toReal_sub, abs_toReal_sub, hx, div_left_inj' (ne_of_gt hpos)] at htie
    have hside := abs_natAbs_sub_le y.scaled hunits
    have hnearest := h.nearest _ y.gridPoint_natAbs_scaled
    by_cases hsame : y.scaled.natAbs = m.units
    · -- the same number below zero is as near to zero alone, and there zero would be nearer
      have hother : y.scaled ≠ m.units := fun heq => hne (by rw [toReal, toReal, heq, scaled])
      have hnegative : y.scaled = -m.units := by omega
      rw [hnegative, Int.cast_neg, Int.cast_natCast, abs_eq_abs] at htie
      have hzero := h.nearest 0 gridPoint_zero
      have hpositive : (0 : ℝ) < m.units := Nat.cast_pos.2 (by omega)
      rcases htie with htie | htie
      · linarith
      · have hroot : r * unitsPerOne = 0 := by linarith
        rw [hroot, sub_zero, Nat.cast_zero, sub_zero, abs_zero, abs_of_pos hpositive] at hzero
        linarith
    · exact h.even _ y.gridPoint_natAbs_scaled hsame (le_antisymm (htie ▸ hside) hnearest)

theorem sqrt_mul_sq_div (num den unit : Nat) :
    √((num * unit ^ (2 : Nat) : Nat) / den) = √((num : ℝ) / den) * unit := by
  rw [Nat.cast_mul, Nat.cast_pow, mul_div_right_comm, Real.sqrt_mul (by positivity),
    Real.sqrt_sq (Nat.cast_nonneg unit)]

/-- A square root that is in range is the number nearest to the exact one. -/
theorem isNearest_ofSqrt {hden : 0 < den}
    (hfinite : (ofSqrt (num * unitsPerOne ^ (2 : Nat)) den hden).isFinite) :
    (ofSqrt (num * unitsPerOne ^ (2 : Nat)) den hden).IsNearest √(num / den) := by
  have hround := nearestTo_roundSqrt (num * unitsPerOne ^ (2 : Nat)) hden
  rw [sqrt_mul_sq_div] at hround
  obtain ⟨m, hm, hunits⟩ := exists_ofUnits_eq hfinite
  rw [ofSqrt, hm]
  rw [← hunits] at hround
  exact hround.isNearest (Real.sqrt_nonneg _)

end DesignMetrics.Binary64
