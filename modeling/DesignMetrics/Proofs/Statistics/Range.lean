import Mathlib.Algebra.Order.Ring.Int
import DesignMetrics.Proofs.Metrics.Summary
import DesignMetrics.Proofs.Statistics.RunningSum

/-!
# Statistics of counts that are not too large

Counts from zero on, below `2 ^ 1023` together, become numbers whose sum exceeds that by one part in
`2 ^ 52` at most, and which can be summed. All three figures of a distribution are at most the sum
of the numbers: the mean and the larger half of the middle are, and so is the deviation, since the
sum of the squares is at most the square of the sum.
-/

namespace DesignMetrics.Statistics

open Binary64

variable {xs : List Binary64} {counts : List Int}

/-! ## The numbers of some counts -/

def countLimit : Nat := 2 ^ (1023 : Nat)

theorem countLimit_mul_unitsPerOne : countLimit * unitsPerOne = 2 ^ (52 : Nat) * largestStep := by
  have hpow : ∀ e e' : Nat, 2 ^ e * 2 ^ e' = 2 ^ (e + e') := fun e e' => (Nat.pow_add 2 e e').symm
  rw [countLimit, unitsPerOne_eq, largestStep, hpow, hpow]

-- the powers are never evaluated
attribute [local irreducible] countLimit largestStep

theorem gridPoint_sumBound : GridPoint sumBound := gridPoint_mul_largestStep (by decide)

theorem sumBound_lt : sumBound < overflowUnits := mul_largestStep_lt (by decide)

theorem ofInt_of_nonneg {count : Int} (hcount : 0 ≤ count) :
    ofInt count = ofQuotient false (count.natAbs * unitsPerOne) 1 Nat.one_pos := by
  rw [ofInt, decide_eq_false (by omega)]

theorem within_ofInt {count : Int} (hcount : 0 ≤ count) (hle : count ≤ countLimit) :
    (ofInt count).Within sumBound := by
  rw [ofInt_of_nonneg hcount]
  apply within_ofQuotient gridPoint_sumBound sumBound_lt
  have hunits : count.natAbs * unitsPerOne ≤ countLimit * unitsPerOne :=
    Nat.mul_le_mul_right _ (by omega)
  rw [countLimit_mul_unitsPerOne] at hunits
  rw [sumBound]
  omega

/-- A number is larger than its count by one part in `2 ^ 52` at most. -/
theorem mul_scaled_ofInt_le {count : Int} (hcount : 0 ≤ count) :
    (2 ^ (52 : Nat) : Nat) * (ofInt count).scaled ≤
      (2 ^ (52 : Nat) + 1 : Nat) * (count * unitsPerOne) := by
  have hround := Int.ofNat_le.2 (mul_roundQuotient_le (count.natAbs * unitsPerOne))
  rw [Int.natCast_mul, Int.natCast_mul, Int.natCast_mul, Int.natAbs_of_nonneg hcount] at hround
  rw [ofInt_of_nonneg hcount]
  have hscaled := scaled_ofQuotient_le (count.natAbs * unitsPerOne) Nat.one_pos
  exact Int.le_trans (Int.mul_le_mul_of_nonneg_left hscaled (Int.natCast_nonneg _)) hround

theorem mul_sum_map_le {a b unit : Int} {value : Int → Int}
    (h : ∀ count ∈ counts, a * value count ≤ b * (count * unit)) :
    a * (counts.map value).sum ≤ b * (counts.sum * unit) := by
  induction counts with
  | nil => simp
  | cons count rest ih =>
    have hfirst := h count List.mem_cons_self
    have hrest := ih fun c hc => h c (List.mem_cons_of_mem count hc)
    rw [List.map_cons, List.sum_cons, List.sum_cons, Int.mul_add, Int.add_mul, Int.mul_add]
    omega

theorem sum_scaled_le (hcounts : ∀ count ∈ counts, 0 ≤ count) (hsum : counts.sum ≤ countLimit) :
    ((counts.map ofInt).map scaled).sum ≤ sumBound := by
  have hle : (2 ^ (52 : Nat) : Nat) * ((counts.map ofInt).map scaled).sum ≤
      (2 ^ (52 : Nat) + 1 : Nat) * (counts.sum * unitsPerOne) := by
    rw [List.map_map, Function.comp_def]
    exact mul_sum_map_le fun count hcount => mul_scaled_ofInt_le (hcounts count hcount)
  have hunits : counts.sum * unitsPerOne ≤ (countLimit * unitsPerOne : Nat) := by
    rw [Int.natCast_mul]
    exact Int.mul_le_mul_of_nonneg_right hsum (Int.natCast_nonneg _)
  rw [countLimit_mul_unitsPerOne] at hunits
  rw [sumBound]
  omega

theorem exists_sample (hfinite : ∀ count ∈ counts, (ofInt count).isFinite) :
    sample (some (counts.map .integer)) = .ok (counts.map ofInt) := by
  have hmapM : (counts.map Observation.integer).mapM Observation.toNumber =
      .ok (counts.map ofInt) := by
    induction counts with
    | nil => rfl
    | cons count rest ih =>
      have hfirst : (Observation.integer count).toNumber = .ok (ofInt count) :=
        inRange_eq_ok.2 ⟨hfinite count List.mem_cons_self, rfl⟩
      rw [List.map_cons, List.mapM_cons, hfirst,
        ih fun c hc => hfinite c (List.mem_cons_of_mem count hc)]
      rfl
  exact hmapM

/-! ## Mean and median -/

theorem exists_mean (hxs : ∀ x ∈ xs, x.Within sumBound) (hsum : (xs.map scaled).sum ≤ sumBound) :
    ∃ average, mean xs = .ok average ∧ average.Within sumBound := by
  by_cases hne : xs = []
  · subst hne
    exact ⟨.zero, rfl, within_zero.mono (Nat.zero_le _)⟩
  · obtain ⟨total, htotal, hwithin⟩ := exists_sum hxs hsum
    exact ⟨_, mean_of_sum hne htotal, hwithin.divNat gridPoint_sumBound sumBound_lt _⟩

/-- Two neighbours in a list of numbers from zero on are at most the sum together. -/
theorem getElem_add_getElem_le {values : List Int} (hvalues : ∀ value ∈ values, 0 ≤ value) {i : Nat}
    (hi : i + 1 < values.length) : values[i] + values[i + 1] ≤ values.sum := by
  have hsublist : [values[i], values[i + 1]].Sublist values := by
    have hdrop : values.drop i = values[i] :: values[i + 1] :: values.drop (i + 2) := by
      rw [List.drop_eq_getElem_cons (by omega), List.drop_eq_getElem_cons hi]
    exact (hdrop ▸ (List.Sublist.cons_cons _ (.cons_cons _ (List.nil_sublist _)))).trans
      (List.drop_sublist i values)
  have hsum := hsublist.sum_le_sum hvalues
  simpa using hsum

theorem within_median (hxs : ∀ x ∈ xs, x.Within sumBound)
    (hsum : (xs.map scaled).sum ≤ sumBound) : (median xs).Within sumBound := by
  have hperm := List.mergeSort_perm xs atMost
  unfold median
  extract_lets ascending middle
  have hlength : ascending.length = xs.length := hperm.length_eq
  have hmem : ∀ x ∈ ascending, x.Within sumBound := fun x hx => hxs x (hperm.mem_iff.1 hx)
  split
  · exact within_zero.mono (Nat.zero_le _)
  · rename_i hempty
    have hpos : 0 < xs.length := List.length_pos_iff.2 (by simpa using hempty)
    have hmiddle : middle < ascending.length := by omega
    rw [List.getElem?_eq_getElem hmiddle, Option.getD_some]
    split
    · exact hmem _ (List.getElem_mem hmiddle)
    · obtain ⟨below, hbelow⟩ : ∃ below, middle = below + 1 := ⟨middle - 1, by omega⟩
      clear_value middle
      subst hbelow
      have hbelow : below < ascending.length := by omega
      have hvalues : ∀ value ∈ ascending.map scaled, 0 ≤ value := by
        intro value hvalue
        obtain ⟨x, hx, rfl⟩ := List.mem_map.1 hvalue
        exact (hmem x hx).scaled_nonneg
      have hle := getElem_add_getElem_le hvalues (by rwa [List.length_map])
      rw [(hperm.map scaled).sum_eq, List.getElem_map, List.getElem_map] at hle
      have hadd := (hmem _ (List.getElem_mem hbelow)).add (hmem _ (List.getElem_mem hmiddle))
        gridPoint_sumBound sumBound_lt (Int.le_trans hle hsum)
      rw [Nat.add_sub_cancel, List.getElem?_eq_getElem hbelow, Option.getD_some]
      exact hadd.divNat gridPoint_sumBound sumBound_lt (by decide)

/-! ## Deviation -/

theorem sum_squares_le {values : List Int} (hvalues : ∀ value ∈ values, 0 ≤ value) :
    (values.map fun value => value * value).sum ≤ values.sum * values.sum := by
  induction values with
  | nil => simp
  | cons value rest ih =>
    have hfirst := hvalues value List.mem_cons_self
    have hrest := ih fun v hv => hvalues v (List.mem_cons_of_mem value hv)
    have hnonneg : 0 ≤ rest.sum :=
      List.sum_nonneg fun v hv => hvalues v (List.mem_cons_of_mem value hv)
    have hproduct := Int.mul_nonneg hfirst hnonneg
    simp only [List.map_cons, List.sum_cons, Int.add_mul, Int.mul_add, Int.mul_comm rest.sum value]
    omega

/-- The variation of numbers from zero on is at most the square of their sum, times their number. -/
theorem scaledVariation_le {values : List Int} {bound : Nat} (hvalues : ∀ value ∈ values, 0 ≤ value)
    (hsum : values.sum ≤ bound) : scaledVariation values ≤ bound ^ (2 : Nat) * values.length := by
  have hvariation : (scaledVariation values : Int) ≤
      values.length * (values.map fun value => value * value).sum := by
    show ((values.length * (values.map fun value => value * value).sum -
      values.sum * values.sum).toNat : Int) ≤ _
    have hsquare := mul_self_nonneg values.sum
    have hsquares : 0 ≤ (values.map fun value => value * value).sum := by
      apply List.sum_nonneg
      intro square hmem
      obtain ⟨value, -, rfl⟩ := List.mem_map.1 hmem
      exact mul_self_nonneg value
    have hproduct := Int.mul_nonneg (Int.natCast_nonneg values.length) hsquares
    omega
  have hnonneg : 0 ≤ values.sum := List.sum_nonneg hvalues
  have hle : (values.map fun value => value * value).sum ≤ (bound : Int) * bound :=
    (sum_squares_le hvalues).trans (mul_le_mul hsum hsum hnonneg (Int.natCast_nonneg _))
  have hbound := Int.mul_le_mul_of_nonneg_left hle (Int.natCast_nonneg values.length)
  have htotal := hvariation.trans hbound
  rw [← Int.natCast_mul, ← Int.natCast_mul] at htotal
  calc scaledVariation values ≤ values.length * (bound * bound) := Int.ofNat_le.1 htotal
    _ = bound ^ (2 : Nat) * values.length := by ring

theorem exists_populationDeviation (hxs : ∀ x ∈ xs, x.Within sumBound)
    (hsum : (xs.map scaled).sum ≤ sumBound) :
    ∃ deviation, populationDeviation xs = .ok deviation ∧ deviation.Within sumBound := by
  unfold populationDeviation
  split
  · exact ⟨.zero, rfl, within_zero.mono (Nat.zero_le _)⟩
  · rename_i hne
    have hpos : 0 < xs.length := List.length_pos_iff.2 hne
    have hfinite : xs.all isFinite := List.all_eq_true.2 fun x hx => (hxs x hx).isFinite
    have hvalues : ∀ value ∈ xs.map scaled, 0 ≤ value := by
      intro value hvalue
      obtain ⟨x, hx, rfl⟩ := List.mem_map.1 hvalue
      exact (hxs x hx).scaled_nonneg
    have hvariation := scaledVariation_le hvalues hsum
    rw [List.length_map] at hvariation
    have hle : scaledVariation (xs.map scaled) ≤ sumBound ^ (2 : Nat) * (xs.length * xs.length) :=
      hvariation.trans (Nat.mul_le_mul_left _ (Nat.le_mul_of_pos_left _ hpos))
    have hwithin := within_ofSqrt (Nat.mul_pos hpos hpos) gridPoint_sumBound sumBound_lt hle
    refine ⟨_, ?_, hwithin⟩
    rw [spread, if_pos hfinite, inRange_eq_ok]
    exact ⟨hwithin.isFinite, rfl⟩

end DesignMetrics.Statistics

namespace DesignMetrics

/-- A distribution of which all figures are finite and at least zero. -/
structure Distribution.IsProper (d : Distribution) : Prop where
  average : d.average.IsProper
  median : d.median.IsProper
  deviation : d.deviation.IsProper

/-- Counts from zero on whose sum is not too large have a distribution. -/
theorem Distribution.exists_ofCounts {counts : List Int} (hcounts : ∀ count ∈ counts, 0 ≤ count)
    (hsum : counts.sum ≤ Statistics.countLimit) :
    ∃ d, Distribution.ofCounts counts = .ok d ∧ d.IsProper := by
  have hle : ∀ count ∈ counts, count ≤ Statistics.countLimit := fun count hcount =>
    (List.single_le_sum hcounts count hcount).trans hsum
  have hxs : ∀ x ∈ counts.map Binary64.ofInt, x.Within Statistics.sumBound := by
    intro x hx
    obtain ⟨count, hcount, rfl⟩ := List.mem_map.1 hx
    exact Statistics.within_ofInt (hcounts count hcount) (hle count hcount)
  have hscaled := Statistics.sum_scaled_le hcounts hsum
  have hsample := Statistics.exists_sample fun count hcount =>
    (hxs _ (List.mem_map_of_mem hcount)).isFinite
  obtain ⟨average, haverage, hproper⟩ := Statistics.exists_mean hxs hscaled
  obtain ⟨deviation, hdeviation, hproper'⟩ := Statistics.exists_populationDeviation hxs hscaled
  have hmedian := Statistics.within_median hxs hscaled
  refine ⟨⟨counts.sum, average, Statistics.median (counts.map .ofInt), deviation⟩, ?_,
    hproper.isProper, hmedian.isProper, hproper'.isProper⟩
  rw [Distribution.ofCounts, hsample]
  show (Statistics.mean _).bind _ = _
  rw [haverage]
  show (Statistics.populationDeviation _).bind _ = _
  rw [hdeviation]
  rfl

end DesignMetrics
