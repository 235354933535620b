import Mathlib.Algebra.Order.BigOperators.Group.List
import DesignMetrics.Proofs.Binary64.Range
import DesignMetrics.Proofs.Statistics.Order

/-!
# Sums on the way

The parts of a running sum lie apart: each is a multiple of a power of two above all that comes
before it, so that all parts but the last together are smaller than one step of the largest numbers.
Taking in a number keeps them apart, since what rounding leaves behind is never more than the part
that was added. So no carried value is far from a sum of the numbers met so far, and while these
sums are in range, no carried value is out of range.
-/

namespace DesignMetrics.Statistics

open Binary64

variable {low before bound k : Nat} {n m carried part : Int} {parts : List Int}

/-! ## Rounding with a sign -/

theorem natAbs_roundScaled (n : Int) : (roundScaled n).natAbs = roundQuotient n.natAbs 1 := by
  unfold roundScaled
  split <;> simp

theorem natAbs_sub_roundScaled (n : Int) :
    (n - roundScaled n).natAbs = ((n.natAbs : Int) - roundQuotient n.natAbs 1).natAbs := by
  unfold roundScaled
  split <;> omega

theorem natAbs_roundScaled_le (hgrid : GridPoint bound) (h : n.natAbs ≤ bound) :
    (roundScaled n).natAbs ≤ bound := by
  rw [natAbs_roundScaled]
  apply roundQuotient_le hgrid
  omega

/-- What rounding leaves behind of a sum is not more than the part that was added to a grid
point. -/
theorem natAbs_sub_roundScaled_le (hgrid : GridPoint carried.natAbs) (part : Int) :
    (carried + part - roundScaled (carried + part)).natAbs ≤ part.natAbs := by
  have hnearest := natAbs_sub_roundQuotient_le (carried + part).natAbs hgrid
  rw [natAbs_sub_roundScaled]
  omega

/-! ## Parts that lie apart -/

/-- Some power of two above `low` divides a number. -/
def Clears (low : Nat) (n : Int) : Prop := ∃ e, low < 2 ^ e ∧ 2 ^ e ∣ n.natAbs

theorem Clears.mono (h : Clears before n) (hle : low ≤ before) : Clears low n := by
  obtain ⟨e, hlt, hdvd⟩ := h
  exact ⟨e, by omega, hdvd⟩

theorem Clears.add (hn : Clears low n) (hm : Clears low m) : Clears low (n + m) := by
  obtain ⟨e, he, hn⟩ := hn
  obtain ⟨e', he', hm⟩ := hm
  rcases Nat.le_total e e' with hle | hle
  · have hm := Nat.dvd_trans (Nat.pow_dvd_pow 2 hle) hm
    exact ⟨e, he, Int.natCast_dvd.1 (Int.dvd_add (Int.natCast_dvd.2 hn) (Int.natCast_dvd.2 hm))⟩
  · have hn := Nat.dvd_trans (Nat.pow_dvd_pow 2 hle) hn
    exact ⟨e', he', Int.natCast_dvd.1 (Int.dvd_add (Int.natCast_dvd.2 hn) (Int.natCast_dvd.2 hm))⟩

/-- Below a power of two there is room for a number and for all that it clears. -/
theorem Clears.add_lt (h : Clears low n) (hn : n.natAbs < 2 ^ k) (hlow : low < 2 ^ k) :
    low + n.natAbs < 2 ^ k := by
  obtain ⟨e, he, q, hq⟩ := h
  rcases Nat.eq_zero_or_pos q with rfl | hpos
  · omega
  · have hle : 2 ^ e ≤ n.natAbs := hq ▸ Nat.le_mul_of_pos_right _ hpos
    have hexponent : e < k := (Nat.pow_lt_pow_iff_right (by decide)).1 (Nat.lt_of_le_of_lt hle hn)
    have hpow : 2 ^ k = 2 ^ e * 2 ^ (k - e) := by
      rw [← Nat.pow_add]
      congr 1
      omega
    have hlt : q < 2 ^ (k - e) := by
      rw [hq, hpow] at hn
      exact Nat.lt_of_mul_lt_mul_left hn
    have hroom : 2 ^ e * (q + 1) ≤ 2 ^ k := hpow ▸ Nat.mul_le_mul_left _ hlt
    rw [Nat.mul_add, ← hq] at hroom
    omega

theorem Clears.roundScaled (h : Clears low n) : Clears low (roundScaled n) := by
  obtain ⟨e, hlt, hdvd⟩ := h
  refine ⟨e, hlt, ?_⟩
  rw [natAbs_roundScaled]
  exact pow_dvd_roundQuotient_one hdvd

theorem Clears.sub_roundScaled (h : Clears low n) : Clears low (n - Statistics.roundScaled n) := by
  obtain ⟨e, hlt, hdvd⟩ := h
  refine ⟨e, hlt, ?_⟩
  have hround : 2 ^ e ∣ (Statistics.roundScaled n).natAbs := by
    rw [natAbs_roundScaled]
    exact pow_dvd_roundQuotient_one hdvd
  exact Int.natCast_dvd.1 (Int.dvd_sub (Int.natCast_dvd.2 hdvd) (Int.natCast_dvd.2 hround))

/-- The rounded value clears what it leaves behind. -/
theorem Clears.roundScaled_add (h : Clears low n) :
    Clears (low + (n - Statistics.roundScaled n).natAbs) (Statistics.roundScaled n) := by
  have hlt : (n - Statistics.roundScaled n).natAbs < 2 ^ gridExponent n.natAbs := by
    rw [natAbs_sub_roundScaled]
    exact natAbs_sub_roundQuotient_lt n.natAbs
  by_cases hlow : low < 2 ^ gridExponent n.natAbs
  · refine ⟨gridExponent n.natAbs, h.sub_roundScaled.add_lt hlt hlow, ?_⟩
    rw [natAbs_roundScaled]
    exact dvd_roundQuotient_one n.natAbs
  · -- the number is a multiple of its step already, and nothing is left behind
    obtain ⟨e, he, hdvd⟩ := h
    have hexponent : gridExponent n.natAbs ≤ e :=
      Nat.le_of_lt ((Nat.pow_lt_pow_iff_right (by decide)).1 (Nat.lt_of_le_of_lt (by omega) he))
    have hround :=
      roundQuotient_one_of_dvd (Nat.dvd_trans (Nat.pow_dvd_pow 2 hexponent) hdvd)
    rw [natAbs_sub_roundScaled, hround, Int.sub_self, Int.natAbs_zero]
    exact Clears.roundScaled ⟨e, he, hdvd⟩

/-- Every part clears all parts before it. -/
def Apart (low : Nat) : List Int → Prop
  | [] => True
  | part :: parts => Clears low part ∧ Apart (low + part.natAbs) parts

def absSum (parts : List Int) : Nat := (parts.map Int.natAbs).sum

theorem Apart.dropLast (h : Apart low parts) : Apart low parts.dropLast := by
  induction parts generalizing low with
  | nil => exact h
  | cons part parts ih =>
    cases parts with
    | nil => trivial
    | cons next rest => exact ⟨h.1, ih h.2⟩

theorem Apart.absSum_lt (h : Apart low parts) (hlow : low < 2 ^ k)
    (hparts : ∀ part ∈ parts, part.natAbs < 2 ^ k) : low + absSum parts < 2 ^ k := by
  induction parts generalizing low with
  | nil => exact hlow
  | cons part parts ih =>
    have hpart := h.1.add_lt (hparts part List.mem_cons_self) hlow
    have hrest := ih h.2 hpart fun p hp => hparts p (List.mem_cons_of_mem part hp)
    rw [absSum, List.map_cons, List.sum_cons, ← Nat.add_assoc]
    exact hrest

/-! ## Taking in a number -/

/-- The largest step between numbers in range, in units. -/
def largestStep : Nat := 2 ^ (2045 : Nat)

theorem natAbs_sub_roundScaled_lt (h : n.natAbs < overflowUnits) :
    (n - roundScaled n).natAbs < largestStep := by
  rw [natAbs_sub_roundScaled]
  refine Nat.lt_of_lt_of_le (natAbs_sub_roundQuotient_lt _) ?_
  apply Nat.pow_le_pow_right (by decide)
  unfold gridExponent
  rcases Nat.eq_zero_or_pos n.natAbs with hzero | hpos
  · rw [hzero]
    decide
  · rw [overflowUnits_eq] at h
    have hlog := (Nat.log2_lt (by omega)).2 h
    omega

theorem absSum_dropLast_cons (part : Int) {parts : List Int} (h : parts ≠ []) :
    absSum (part :: parts).dropLast = part.natAbs + absSum parts.dropLast := by
  rw [List.dropLast_cons_of_ne_nil h, absSum, List.map_cons, List.sum_cons, absSum]

theorem mem_dropLast_cons {a b : Int} {l : List Int} (h : a ∈ (b :: l).dropLast) :
    a = b ∨ a ∈ l.dropLast := by
  cases l with
  | nil => simp at h
  | cons c l => simpa using h

theorem carryIn_cons {rest : List Int}
    (hrounded : (roundScaled (carried + part)).natAbs < overflowUnits)
    (hrest : carryIn (roundScaled (carried + part)) parts = some rest) :
    carryIn carried (part :: parts) =
      some (if carried + part = roundScaled (carried + part) then rest
        else (carried + part - roundScaled (carried + part)) :: rest) := by
  rw [carryIn, if_pos hrounded, hrest]
  rfl

/-- The carried value and the sum stay within the bound, whichever way the inner parts push them. -/
structure Room (bound : Nat) (carried : Int) (parts : List Int) : Prop where
  carried_add : carried.natAbs + 2 * absSum parts.dropLast ≤ bound
  sum_add : (carried + parts.sum).natAbs + absSum parts.dropLast ≤ bound

theorem Room.natAbs_add_le (h : Room bound carried (part :: parts)) :
    (carried + part).natAbs ≤ bound := by
  obtain ⟨hcarried, hsum⟩ := h
  by_cases hparts : parts = []
  · subst hparts
    rw [List.sum_singleton] at hsum
    omega
  · rw [absSum_dropLast_cons part hparts] at hcarried
    omega

/-- What the rounded value misses of the exact one is not more than the part that was added. -/
theorem Room.roundScaled_add (h : Room bound carried (part :: parts)) (hgrid : GridPoint bound)
    (hcarried : GridPoint carried.natAbs) : Room bound (roundScaled (carried + part)) parts := by
  have hleft := natAbs_sub_roundScaled_le hcarried part
  have hrounded := natAbs_roundScaled_le hgrid h.natAbs_add_le
  obtain ⟨hinner, hsum⟩ := h
  by_cases hparts : parts = []
  · subst hparts
    exact ⟨by simpa [absSum] using hrounded, by simpa [absSum] using hrounded⟩
  · rw [absSum_dropLast_cons part hparts] at hinner hsum
    rw [List.sum_cons] at hsum
    exact ⟨by omega, by omega⟩

/-- A number is taken in when there is room for it, and the new parts lie apart. -/
theorem exists_carryIn (hgrid : GridPoint bound) (hbound : bound < overflowUnits)
    (hcarried : GridPoint carried.natAbs) (hclears : Clears low carried) (hlow : low ≤ before)
    (happart : Apart before parts) (hroom : Room bound carried parts) :
    ∃ parts', carryIn carried parts = some parts' ∧ Apart low parts' ∧
      ∀ part ∈ parts'.dropLast, part.natAbs < largestStep := by
  induction parts generalizing carried low before with
  | nil =>
    refine ⟨_, rfl, ?_⟩
    split
    · exact ⟨trivial, by simp⟩
    · exact ⟨⟨hclears, trivial⟩, by simp⟩
  | cons part parts ih =>
    have hrounded := natAbs_roundScaled_le hgrid hroom.natAbs_add_le
    have hlt := Nat.lt_of_le_of_lt hrounded hbound
    have hsmall := natAbs_sub_roundScaled_lt (Nat.lt_of_le_of_lt hroom.natAbs_add_le hbound)
    have hexact := hclears.add (happart.1.mono hlow)
    have hleft := natAbs_sub_roundScaled_le hcarried part
    obtain ⟨rest, hrest, hrestApart, hrestSmall⟩ := ih
      (natAbs_roundScaled (carried + part) ▸ gridPoint_roundQuotient _ _) hexact.roundScaled_add
      (by omega) happart.2 (hroom.roundScaled_add hgrid hcarried)
    refine ⟨_, carryIn_cons hlt hrest, ?_⟩
    split
    · rename_i heq
      rw [← heq, Int.sub_self, Int.natAbs_zero, Nat.add_zero] at hrestApart
      exact ⟨hrestApart, hrestSmall⟩
    · refine ⟨⟨hexact.sub_roundScaled, hrestApart⟩, fun p hp => ?_⟩
      rcases mem_dropLast_cons hp with rfl | hp
      · exact hsmall
      · exact hrestSmall p hp

/-! ## Sums of numbers in range -/

/-- A little more than `2 ^ 1023`, in units: what a sum of rounded counts below `2 ^ 1023` comes to
at most. -/
def sumBound : Nat := (2 ^ (52 : Nat) + 1) * largestStep

theorem gridPoint_mul_largestStep {k : Nat} (h : k ≤ 2 ^ (53 : Nat)) :
    GridPoint (k * largestStep) := by
  rw [largestStep]
  exact gridPoint_of_le h _

theorem overflowUnits_eq_mul : overflowUnits = 2 ^ (53 : Nat) * largestStep := by
  have hpow : ∀ e e' : Nat, 2 ^ (e + e') = 2 ^ e * 2 ^ e' := Nat.pow_add 2
  rw [overflowUnits_eq, largestStep, ← hpow]

theorem mul_largestStep_lt {k : Nat} (h : k < 2 ^ (53 : Nat)) :
    k * largestStep < overflowUnits := by
  have hpow : ∀ e : Nat, 0 < 2 ^ e := fun _ => Nat.pow_pos (by decide)
  rw [overflowUnits_eq_mul]
  exact Nat.mul_lt_mul_of_pos_right h (hpow 2045)

/-- Parts that lie apart, all but the last of them small. -/
structure Tidy (parts : List Int) : Prop where
  apart : Apart 0 parts
  small : ∀ part ∈ parts.dropLast, part.natAbs < largestStep

theorem Tidy.exists_carryIn (h : Tidy parts) (hgrid : GridPoint carried.natAbs)
    (hcarried : carried.natAbs ≤ sumBound) (hsum : (carried + parts.sum).natAbs ≤ sumBound) :
    ∃ parts', carryIn carried parts = some parts' ∧ Tidy parts' := by
  have hinner : absSum parts.dropLast < largestStep := by
    have hlt := h.apart.dropLast.absSum_lt (Nat.pow_pos (by decide)) h.small
    rwa [Nat.zero_add] at hlt
  have hbound : sumBound + 2 * largestStep = (2 ^ (52 : Nat) + 3) * largestStep := by
    rw [sumBound]
    omega
  have hroom : Room ((2 ^ (52 : Nat) + 3) * largestStep) carried parts := ⟨by omega, by omega⟩
  have hclears : Clears 0 carried := ⟨0, by decide, Nat.one_dvd _⟩
  obtain ⟨parts', hparts', happart, hsmall⟩ := Statistics.exists_carryIn
    (gridPoint_mul_largestStep (by decide)) (mul_largestStep_lt (by decide)) hgrid hclears
    (Nat.le_refl 0) h.apart hroom
  exact ⟨parts', hparts', happart, hsmall⟩

variable {s : RunningSum} {exact : Int} {x : Binary64} {xs : List Binary64}

theorem RunningSum.exists_add (h : s.Holds exact) (htidy : Tidy s.parts) (hx : x.Within sumBound)
    (hexact : 0 ≤ exact) (hsum : exact + x.scaled ≤ sumBound) :
    ∃ s', s.add x = .ok s' ∧ s'.Holds (exact + x.scaled) ∧ Tidy s'.parts := by
  have hnonneg := hx.scaled_nonneg
  have hle := hx.scaled_le
  obtain ⟨m, rfl, -⟩ := hx
  have hgrid : GridPoint ((Binary64.finite false m).scaled).natAbs := m.gridPoint
  have hparts := h.sum_parts
  obtain ⟨parts, hcarry, hparts⟩ := htidy.exists_carryIn hgrid (by omega) (by omega)
  have hadd : s.add (.finite false m) = .ok { s with parts } := by
    rw [RunningSum.add, hcarry]
  exact ⟨_, hadd, h.add rfl hadd, hparts⟩

theorem sum_scaled_nonneg (h : ∀ x ∈ xs, x.Within bound) : 0 ≤ (xs.map scaled).sum := by
  apply List.sum_nonneg
  intro value hvalue
  obtain ⟨x, hx, rfl⟩ := List.mem_map.1 hvalue
  exact (h x hx).scaled_nonneg

theorem RunningSum.exists_addAll (h : s.Holds exact) (htidy : Tidy s.parts) (hexact : 0 ≤ exact)
    (hxs : ∀ x ∈ xs, x.Within sumBound) (hsum : exact + (xs.map scaled).sum ≤ sumBound) :
    ∃ s', xs.foldlM RunningSum.add s = .ok s' ∧ s'.Holds (exact + (xs.map scaled).sum) := by
  induction xs generalizing s exact with
  | nil => exact ⟨s, rfl, by simpa using h⟩
  | cons x rest ih =>
    have hx := hxs x List.mem_cons_self
    have hrest : ∀ y ∈ rest, y.Within sumBound := fun y hy => hxs y (List.mem_cons_of_mem x hy)
    have hnonneg := hx.scaled_nonneg
    have hrestNonneg := sum_scaled_nonneg hrest
    rw [List.map_cons, List.sum_cons, ← Int.add_assoc] at hsum ⊢
    obtain ⟨next, hnext, hholds, htidy⟩ := exists_add h htidy hx hexact (by omega)
    obtain ⟨s', hs', hend⟩ := ih hholds htidy (by omega) hrest hsum
    refine ⟨s', ?_, hend⟩
    rw [List.foldlM_cons, hnext]
    exact hs'

/-- The sum of numbers that stays in range is there, and in range. -/
theorem exists_sum (hxs : ∀ x ∈ xs, x.Within sumBound) (hsum : (xs.map scaled).sum ≤ sumBound) :
    ∃ total, sum xs = .ok total ∧ total.Within sumBound := by
  have hstart : RunningSum.Holds {} 0 := ⟨rfl, rfl, rfl, rfl⟩
  have htidy : Tidy ({} : RunningSum).parts := ⟨trivial, by simp⟩
  obtain ⟨s, hfold, hs⟩ :=
    RunningSum.exists_addAll hstart htidy (Int.le_refl 0) hxs (by rwa [Int.zero_add])
  have htotal : sum xs = .ok (ofScaled (s.parts.foldr (· + ·) 0)) := by
    rw [sum, hfold]
    show s.total = _
    rw [RunningSum.total, hs.positiveInfinity, hs.negativeInfinity, hs.notANumber]
    rfl
  refine ⟨_, htotal, ?_⟩
  rw [sum_eq (fun x hx => (hxs x hx).isFinite) htotal]
  exact within_ofScaled (gridPoint_mul_largestStep (by decide)) (mul_largestStep_lt (by decide))
    (sum_scaled_nonneg hxs) hsum

end DesignMetrics.Statistics
