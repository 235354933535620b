import Mathlib.Algebra.BigOperators.Group.List.Basic
import Mathlib.Algebra.Ring.Int.Defs
import DesignMetrics.Statistics
import DesignMetrics.Proofs.Binary64.Integers
import DesignMetrics.Proofs.Outcome

/-!
# Statistics do not depend on order

The sum of finite numbers is kept exactly until it is rounded at the end, so that a mean which is in
range in two orders is the same in both. The median is read off the numbers in ascending order, and
the deviations are made of exact sums: neither looks at the order in which the numbers came.
-/

namespace DesignMetrics.Statistics

open Binary64

variable {xs ys : List Binary64}

/-! ## Samples of integers -/

theorem inRange_eq_ok {x y : Binary64} : inRange x = .ok y ↔ x.isFinite ∧ x = y := by
  by_cases h : x.isFinite <;> simp [inRange, h]

/-- The numbers of some integers, when all of them are in range. -/
theorem sample_eq_ok {counts : List Int} (h : sample (some (counts.map .integer)) = .ok xs) :
    (∀ count ∈ counts, (ofInt count).isFinite) ∧ xs = counts.map ofInt := by
  have hmapM : (counts.map Observation.integer).mapM Observation.toNumber = .ok xs := h
  have hnumbers :
      List.Forall₂ (fun count x => (ofInt count).isFinite ∧ ofInt count = x) counts xs :=
    (List.forall₂_map_left_iff.1 (forall₂_of_mapM hmapM)).imp fun _ _ hcount =>
      inRange_eq_ok.1 hcount
  obtain ⟨hfinite, hvalues⟩ := (List.forall₂_and_left _ _).1 hnumbers
  rw [← List.forall₂_map_left_iff, List.forall₂_eq_eq_eq] at hvalues
  exact ⟨hfinite, hvalues.symm⟩

/-! ## Means -/

theorem sum_carryIn {carried : Int} {parts parts' : List Int}
    (h : carryIn carried parts = some parts') : parts'.sum = carried + parts.sum := by
  induction parts generalizing carried parts' with
  | nil =>
    cases h
    split <;> simp_all
  | cons part parts ih =>
    unfold carryIn at h
    extract_lets exact rounded at h
    split at h
    · obtain ⟨rest, hrest, h⟩ := Option.bind_eq_some_iff.1 h
      have hsum := ih hrest
      cases h
      -- what the carried value misses of the exact one stays behind, unless it misses nothing
      split
      · rename_i heq
        rw [hsum, ← heq, List.sum_cons]
        show carried + part + parts.sum = _
        omega
      · rw [List.sum_cons, hsum, List.sum_cons]
        show carried + part - rounded + (rounded + parts.sum) = _
        omega
    · cases h

/-- A sum under way that has met finite numbers only, with the given exact sum. -/
structure RunningSum.Holds (s : RunningSum) (exact : Int) : Prop where
  positiveInfinity : s.positiveInfinity = false
  negativeInfinity : s.negativeInfinity = false
  notANumber : s.notANumber = false
  sum_parts : s.parts.sum = exact

theorem RunningSum.Holds.add {s s' : RunningSum} {exact : Int} {x : Binary64}
    (h : s.Holds exact) (hx : x.isFinite) (hadd : s.add x = .ok s') :
    s'.Holds (exact + x.scaled) := by
  cases x with
  | finite negative m =>
    cases hparts : carryIn (Binary64.finite negative m).scaled s.parts with
    | none => simp [RunningSum.add, hparts] at hadd
    | some parts =>
      simp only [RunningSum.add, hparts, Except.ok.injEq] at hadd
      subst hadd
      refine ⟨h.positiveInfinity, h.negativeInfinity, h.notANumber, ?_⟩
      rw [sum_carryIn hparts, h.sum_parts, Int.add_comm]
  | infinite negative => cases hx
  | nan => cases hx

theorem RunningSum.Holds.addAll {s s' : RunningSum} {exact : Int} (h : s.Holds exact)
    (hfinite : ∀ x ∈ xs, x.isFinite) (hfold : xs.foldlM RunningSum.add s = .ok s') :
    s'.Holds (exact + (xs.map scaled).sum) := by
  induction xs generalizing s exact with
  | nil =>
    cases hfold
    simpa using h
  | cons x rest ih =>
    rw [List.foldlM_cons] at hfold
    obtain ⟨next, hnext, hfold⟩ := bind_eq_ok.1 hfold
    have hrest := ih (h.add (hfinite x List.mem_cons_self) hnext)
      (fun y hy => hfinite y (List.mem_cons_of_mem x hy)) hfold
    rwa [List.map_cons, List.sum_cons, ← Int.add_assoc]

/-- A sum of finite numbers that is in range is the exact sum, rounded once. -/
theorem sum_eq {total : Binary64} (hfinite : ∀ x ∈ xs, x.isFinite) (h : sum xs = .ok total) :
    total = ofScaled (xs.map scaled).sum := by
  obtain ⟨s, hfold, htotal⟩ := bind_eq_ok.1 h
  have hstart : RunningSum.Holds {} 0 := ⟨rfl, rfl, rfl, rfl⟩
  have hs := hstart.addAll hfinite hfold
  rw [RunningSum.total, hs.positiveInfinity, hs.negativeInfinity, hs.notANumber] at htotal
  rw [Int.zero_add] at hs
  exact (Except.ok.inj htotal).symm.trans (congrArg ofScaled hs.sum_parts)

theorem mean_of_sum {total : Binary64} (hne : xs ≠ []) (htotal : sum xs = .ok total) :
    mean xs = .ok (total.divNat xs.length (List.length_pos_iff.2 hne)) := by
  rw [mean, dif_neg hne, htotal]
  rfl

theorem mean_eq_ok {average : Binary64} (hne : xs ≠ []) (h : mean xs = .ok average) :
    ∃ total, sum xs = .ok total ∧
      average = total.divNat xs.length (List.length_pos_iff.2 hne) := by
  rw [mean, dif_neg hne] at h
  obtain ⟨total, htotal, h⟩ := bind_eq_ok.1 h
  exact ⟨total, htotal, (Except.ok.inj h).symm⟩

theorem mean_perm {a b : Binary64} (hperm : xs.Perm ys) (hfinite : ∀ x ∈ xs, x.isFinite)
    (ha : mean xs = .ok a) (hb : mean ys = .ok b) : a = b := by
  have hfinite' : ∀ y ∈ ys, y.isFinite := fun y hy => hfinite y (hperm.mem_iff.2 hy)
  have hexact : (xs.map scaled).sum = (ys.map scaled).sum := (hperm.map scaled).sum_eq
  by_cases hne : xs = []
  · subst hne
    rw [List.nil_perm.1 hperm] at hb
    exact Except.ok.inj (ha.symm.trans hb)
  · have hne' : ys ≠ [] := fun hnil => hne (List.perm_nil.1 (hnil ▸ hperm))
    obtain ⟨total, htotal, rfl⟩ := mean_eq_ok hne ha
    obtain ⟨total', htotal', rfl⟩ := mean_eq_ok hne' hb
    simp only [sum_eq hfinite htotal, sum_eq hfinite' htotal', hexact, hperm.length_eq]

/-! ## Medians -/

theorem mergeSort_perm_eq (hperm : xs.Perm ys)
    (hrank : ∀ x ∈ xs, ∀ y ∈ xs, x.rank = y.rank → x = y) :
    xs.mergeSort atMost = ys.mergeSort atMost := by
  have htrans : ∀ a b c : Binary64, atMost a b = true → atMost b c = true → atMost a c = true := by
    intro a b c hab hbc
    simp only [atMost, decide_eq_true_eq] at hab hbc ⊢
    omega
  have htotal : ∀ a b : Binary64, (atMost a b || atMost b a) = true := by
    intro a b
    simp only [atMost, Bool.or_eq_true, decide_eq_true_eq]
    omega
  have hsorted : ((xs.mergeSort atMost).Perm (ys.mergeSort atMost)) :=
    (List.mergeSort_perm xs atMost).trans (hperm.trans (List.mergeSort_perm ys atMost).symm)
  refine List.Perm.eq_of_pairwise (fun a b ha hb hab hba => ?_)
    (List.pairwise_mergeSort htrans htotal xs) (List.pairwise_mergeSort htrans htotal ys) hsorted
  simp only [atMost, decide_eq_true_eq] at hab hba
  -- numbers on one place of the line are the same number, so that the ascending list is unique
  have hb : b ∈ xs := hperm.mem_iff.2 (List.mem_mergeSort.1 hb)
  exact hrank a (List.mem_mergeSort.1 ha) b hb (by omega)

theorem median_perm (hperm : xs.Perm ys)
    (hrank : ∀ x ∈ xs, ∀ y ∈ xs, x.rank = y.rank → x = y) : median xs = median ys := by
  rw [median, median, mergeSort_perm_eq hperm hrank, hperm.length_eq, hperm.isEmpty_eq]

theorem median_map_ofInt_perm {counts counts' : List Int} (hperm : counts.Perm counts')
    (hfinite : ∀ count ∈ counts, (ofInt count).isFinite) :
    median (counts.map ofInt) = median (counts'.map ofInt) := by
  refine median_perm (hperm.map ofInt) (List.forall_mem_map.2 fun a ha => ?_)
  refine List.forall_mem_map.2 fun b hb => ?_
  exact rank_injective_ofInt (hfinite a ha) (hfinite b hb)

/-! ## Deviations -/

theorem scaledVariation_perm {xs ys : List Int} (hperm : xs.Perm ys) :
    scaledVariation xs = scaledVariation ys := by
  have htotal : xs.sum = ys.sum := hperm.sum_eq
  have hsquares : (xs.map fun x => x * x).sum = (ys.map fun x => x * x).sum :=
    (hperm.map _).sum_eq
  show (xs.length * (xs.map fun x => x * x).sum - xs.sum * xs.sum).toNat = _
  rw [htotal, hsquares, hperm.length_eq]
  rfl

theorem populationDeviation_perm (hperm : xs.Perm ys) :
    populationDeviation xs = populationDeviation ys := by
  have hfinite : xs.all isFinite = ys.all isFinite := hperm.all_eq
  simp only [populationDeviation, spread, ← List.length_eq_zero_iff, hperm.length_eq, hfinite,
    scaledVariation_perm (hperm.map scaled)]

end DesignMetrics.Statistics
