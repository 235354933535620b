import Mathlib.Data.Nat.Log
import DesignMetrics.Proofs.Binary64.Range

/-!
# Correctly rounded quotients

A quotient is rounded correctly when no grid point is nearer to it than the result, and when of two
grid points that are equally near the result is the one that ends in a zero bit. This says nothing
of how the result is found, and it leaves one grid point only. Dividing two natural numbers gives
that one, so a ratio is known from the two numbers alone.
-/

namespace DesignMetrics.Binary64

/-- How far a number of units is from a quotient, in parts of a unit of which `den` make one. -/
def gap (num den units : Nat) : Nat := (((units * den : Nat) : Int) - num).natAbs

/-- The last of the 53 bits of a grid point is zero. -/
def EndsInZero (n : Nat) : Prop := 2 ^ (gridExponent n + 1) ∣ n

/-- The grid point nearest to a quotient; halfway between two, the one that ends in a zero bit. -/
structure RoundsTo (num den rounded : Nat) : Prop where
  gridPoint : GridPoint rounded
  nearest : ∀ g, GridPoint g → gap num den rounded ≤ gap num den g
  even : ∀ g, GridPoint g → g ≠ rounded → gap num den g = gap num den rounded →
    EndsInZero rounded

/-- The finite number without a sign that is nearest to the quotient of two natural numbers. -/
def IsQuotient (x : Binary64) (num den : Nat) : Prop :=
  ∃ m : Magnitude, x = .finite false m ∧ RoundsTo (num * unitsPerOne) den m.units

variable {num den low g : Nat}

/-! ## Rounding is correct -/

theorem IsFloorOf.gap_of_le (h : IsFloorOf num den low) (hle : g ≤ low) :
    gap num den g = num - low * den + (low - g) * den := by
  have hlow := h.le
  obtain ⟨k, rfl⟩ := Nat.exists_eq_add_of_le hle
  rw [Nat.add_mul] at hlow ⊢
  rw [gap, Nat.add_sub_cancel_left]
  omega

theorem IsFloorOf.gap_of_ge (h : IsFloorOf num den low)
    (hle : low + 2 ^ gridExponent (num / den) ≤ g) :
    gap num den g = low * den + 2 ^ gridExponent (num / den) * den - num +
      (g - (low + 2 ^ gridExponent (num / den))) * den := by
  have hlow := h.lt
  obtain ⟨k, rfl⟩ := Nat.exists_eq_add_of_le hle
  rw [gap, Nat.add_sub_cancel_left, Nat.add_mul, Nat.add_mul]
  omega

/-- No grid point is nearer to a quotient than the one to which it is rounded. -/
theorem gap_roundQuotient_le (num : Nat) (hden : 0 < den) (hg : GridPoint g) :
    gap num den (roundQuotient num den) ≤ gap num den g := by
  have h := isFloorOf num hden
  have hlow := h.gap_of_le (Nat.le_refl _)
  have hhigh := h.gap_of_ge (Nat.le_refl _)
  have hle := h.le
  rw [Nat.sub_self, Nat.zero_mul] at hlow hhigh
  rcases h.grid g hg with hside | hside
  · have hgap := h.gap_of_le hside
    rcases h.round with ⟨hround, hhalf⟩ | ⟨hround, hhalf⟩
    · rw [hround]
      omega
    · rw [hround]
      omega
  · have hgap := h.gap_of_ge hside
    rcases h.round with ⟨hround, hhalf⟩ | ⟨hround, hhalf⟩
    · rw [hround]
      omega
    · rw [hround]
      omega

theorem endsInZero_of_dvd {n e : Nat} (hdvd : 2 * 2 ^ e ∣ n) (hle : n ≤ 2 ^ (53 : Nat) * 2 ^ e) :
    EndsInZero n := by
  rw [Nat.mul_comm, ← Nat.pow_succ] at hdvd
  rw [← Nat.pow_add] at hle
  rcases Nat.lt_or_eq_of_le hle with hlt | rfl
  · have hexponent : gridExponent n ≤ e := by
      by_cases hzero : n = 0
      · simp [hzero, gridExponent]
      · have hlog := (Nat.log2_lt hzero).2 hlt
        unfold gridExponent
        omega
    exact Nat.dvd_trans (Nat.pow_dvd_pow 2 (Nat.succ_le_succ hexponent)) hdvd
  · have hexponent : gridExponent (2 ^ (53 + e)) = e + 1 := by
      rw [gridExponent, Nat.log2_two_pow]
      omega
    rw [EndsInZero, hexponent]
    exact Nat.pow_dvd_pow 2 (by omega)

theorem roundQuotient_le_pow (num : Nat) (hden : 0 < den) :
    roundQuotient num den ≤ 2 ^ (53 : Nat) * 2 ^ gridExponent (num / den) := by
  apply roundQuotient_le (gridPoint_of_le (Nat.le_refl _) _)
  exact Nat.le_of_lt ((Nat.div_lt_iff_lt_mul hden).1 (lt_pow_gridExponent (num / den)))

theorem endsInZero_roundQuotient (hden : 0 < den) (hg : GridPoint g)
    (hne : g ≠ roundQuotient num den)
    (htie : gap num den g = gap num den (roundQuotient num den)) :
    EndsInZero (roundQuotient num den) := by
  have h := isFloorOf num hden
  generalize num / den / 2 ^ gridExponent (num / den) * 2 ^ gridExponent (num / den) = low at h
  have hlow := h.gap_of_le (Nat.le_refl _)
  have hhigh := h.gap_of_ge (Nat.le_refl _)
  have hle := h.le
  rw [Nat.sub_self, Nat.zero_mul] at hlow hhigh
  apply endsInZero_of_dvd (h.even _) (roundQuotient_le_pow num hden)
  -- on the side of the result every other grid point is further away, so both sides are as near
  rcases h.grid g hg with hside | hside
  · have hgap := h.gap_of_le hside
    rcases h.round with ⟨hround, hhalf⟩ | ⟨hround, hhalf⟩
    · rw [hround] at htie hne
      have hpos : 0 < (low - g) * den := Nat.mul_pos (by omega) hden
      omega
    · rw [hround] at htie
      omega
  · have hgap := h.gap_of_ge hside
    rcases h.round with ⟨hround, hhalf⟩ | ⟨hround, hhalf⟩
    · rw [hround] at htie
      omega
    · rw [hround] at htie hne
      have hpos : 0 < (g - (low + 2 ^ gridExponent (num / den))) * den :=
        Nat.mul_pos (by omega) hden
      omega

theorem roundsTo_roundQuotient (num : Nat) (hden : 0 < den) :
    RoundsTo num den (roundQuotient num den) where
  gridPoint := gridPoint_roundQuotient num den
  nearest _ hg := gap_roundQuotient_le num hden hg
  even _ hg hne htie := endsInZero_roundQuotient hden hg hne htie

/-! ## There is one correct result -/

theorem gridExponent_mono {m n : Nat} (h : m ≤ n) : gridExponent m ≤ gridExponent n := by
  have hlog : m.log2 ≤ n.log2 := by
    rw [Nat.log2_eq_log_two, Nat.log2_eq_log_two]
    exact Nat.log_mono_right h
  unfold gridExponent
  omega

/-- One step above a grid point is the next one. -/
theorem GridPoint.add_step (hg : GridPoint g) : GridPoint (g + 2 ^ gridExponent g) := by
  obtain ⟨k, hk⟩ := hg.dvd_of_le (Nat.le_refl g)
  have hlt := lt_pow_gridExponent g
  generalize gridExponent g = e at hk hlt ⊢
  subst hk
  rw [Nat.mul_comm] at hlt ⊢
  rw [← Nat.succ_mul]
  exact gridPoint_of_le (Nat.lt_of_mul_lt_mul_right hlt) e

theorem GridPoint.add_step_le (hg : GridPoint g) {g' : Nat} (hg' : GridPoint g') (hlt : g < g') :
    g + 2 ^ gridExponent g ≤ g' := by
  have hside := hg'.le_or_le g
  rw [Nat.add_mul, Nat.div_mul_cancel (hg.dvd_of_le (Nat.le_refl g))] at hside
  omega

/-- Two neighbours do not both end in a zero bit. -/
theorem not_endsInZero_add_step (h : EndsInZero g) : ¬ EndsInZero (g + 2 ^ gridExponent g) := by
  intro hnext
  have hexponent := gridExponent_mono (Nat.le_add_right g (2 ^ gridExponent g))
  have hpos : 0 < 2 ^ gridExponent g := Nat.pow_pos Nat.zero_lt_two
  have hdvd := Nat.dvd_trans (Nat.pow_dvd_pow 2 (Nat.succ_le_succ hexponent)) hnext
  have hle := Nat.le_of_dvd hpos ((Nat.dvd_add_right h).1 hdvd)
  rw [Nat.pow_succ] at hle
  omega

theorem RoundsTo.not_lt {g' : Nat} (hden : 0 < den) (h : RoundsTo num den g)
    (h' : RoundsTo num den g') : ¬ g < g' := by
  intro hlt
  have htie : gap num den g = gap num den g' :=
    Nat.le_antisymm (h.nearest g' h'.gridPoint) (h'.nearest g h.gridPoint)
  have hzero := h.even g' h'.gridPoint (Nat.ne_of_gt hlt) htie.symm
  have hzero' := h'.even g h.gridPoint (Nat.ne_of_lt hlt) htie
  rcases Nat.lt_or_eq_of_le (h.gridPoint.add_step_le h'.gridPoint hlt) with hbetween | rfl
  · -- a grid point between the two would be nearer than both
    have hnearest := h.nearest _ h.gridPoint.add_step
    have hpos : 0 < 2 ^ gridExponent g := Nat.pow_pos Nat.zero_lt_two
    have hbelow := Nat.mul_lt_mul_of_pos_right (Nat.lt_add_of_pos_right (n := g) hpos) hden
    have habove := Nat.mul_lt_mul_of_pos_right hbetween hden
    unfold gap at htie hnearest
    omega
  · exact not_endsInZero_add_step hzero hzero'

theorem RoundsTo.unique {g' : Nat} (hden : 0 < den) (h : RoundsTo num den g)
    (h' : RoundsTo num den g') : g = g' :=
  Nat.le_antisymm (Nat.le_of_not_lt (h'.not_lt hden h)) (Nat.le_of_not_lt (h.not_lt hden h'))

/-! ## Ratios -/

theorem exists_ofUnits_eq {units : Nat} {gridPoint : GridPoint units}
    (hfinite : (ofUnits false units gridPoint).isFinite) :
    ∃ m : Magnitude, ofUnits false units gridPoint = .finite false m ∧ m.units = units := by
  unfold ofUnits at hfinite ⊢
  split at hfinite
  · rename_i hlt
    exact ⟨⟨units, gridPoint, hlt⟩, dif_pos hlt, rfl⟩
  · exact absurd hfinite Bool.false_ne_true

theorem isQuotient_ofRatio {hden : 0 < (den : Int)} (hfinite : (ofRatio num den hden).isFinite) :
    (ofRatio num den hden).IsQuotient num den := by
  rw [ofRatio_natCast, ofQuotient] at hfinite ⊢
  obtain ⟨m, hm, hunits⟩ := exists_ofUnits_eq hfinite
  refine ⟨m, hm, ?_⟩
  rw [hunits]
  exact roundsTo_roundQuotient _ (Int.natCast_pos.1 hden)

/-- The ratio of two numbers, when it is in range, is the one that the quotient rounds to. -/
theorem isQuotient_iff {hden : 0 < (den : Int)} (hfinite : (ofRatio num den hden).isFinite)
    {x : Binary64} : x.IsQuotient num den ↔ x = ofRatio num den hden := by
  have hratio := isQuotient_ofRatio hfinite
  constructor
  · rintro ⟨m, rfl, hm⟩
    obtain ⟨m', hm', hround⟩ := hratio
    rw [hm', Magnitude.eq_of_units (hm.unique (Int.natCast_pos.1 hden) hround)]
  · rintro rfl
    exact hratio

end DesignMetrics.Binary64
