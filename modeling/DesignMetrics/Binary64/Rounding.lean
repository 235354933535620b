/-!
# Rounding to 53 significant bits

Magnitudes are counted in units of `2 ^ -1074`, the distance between the smallest binary64 numbers.
A number of units is a grid point when it has at most 53 significant bits. This file rounds exact
quotients and exact square roots to the nearest grid point, a tie going to the even neighbour, and
shows that the results are grid points.
-/

namespace DesignMetrics.Binary64

/-- Powers are those of the core library, whatever else is in scope. -/
scoped instance (priority := 2000) natPower : Pow Nat Nat := instPowNat

/-- At most 53 significant bits. -/
def GridPoint (n : Nat) : Prop := ∃ m e : Nat, m < 2 ^ (53 : Nat) ∧ n = m * 2 ^ e

/-- Numbers of the size of `n` units that have 53 significant bits are the multiples of
`2 ^ gridExponent n`. -/
def gridExponent (n : Nat) : Nat := n.log2 - 52

/-- The natural number nearest to `num / den`; halfway between two, the even one. -/
def nearestQuotient (num den : Nat) : Nat :=
  let quotient := num / den
  let remainder := num % den
  if 2 * remainder < den then quotient
  else if den < 2 * remainder then quotient + 1
  else if quotient % 2 = 0 then quotient
  else quotient + 1

def roundQuotient (num den : Nat) : Nat :=
  let step := 2 ^ gridExponent (num / den)
  nearestQuotient num (den * step) * step

/-- The natural number nearest to the square root of `num / den`; halfway between two, the even
one. -/
def nearestSqrt (num den : Nat) : Nat :=
  let root := (num / den).sqrt
  let halfway := (2 * root + 1) ^ (2 : Nat) * den
  if 4 * num < halfway then root
  else if halfway < 4 * num then root + 1
  else if root % 2 = 0 then root
  else root + 1

/-- The grid point nearest to `√(num / den)` units. -/
def roundSqrt (num den : Nat) : Nat :=
  let step := 2 ^ gridExponent (num / den).sqrt
  nearestSqrt num (den * step ^ (2 : Nat)) * step

/-! ## The results are grid points -/

theorem nearestQuotient_le (num den : Nat) : nearestQuotient num den ≤ num / den + 1 := by
  unfold nearestQuotient
  dsimp only
  repeat' split
  all_goals omega

theorem nearestSqrt_le (num den : Nat) : nearestSqrt num den ≤ (num / den).sqrt + 1 := by
  unfold nearestSqrt
  dsimp only
  repeat' split
  all_goals omega

theorem lt_pow_gridExponent (n : Nat) : n < 2 ^ (53 : Nat) * 2 ^ gridExponent n := by
  unfold gridExponent
  by_cases h : n = 0
  · subst h; simp
  · have hlt : n < 2 ^ (n.log2 + 1) := (Nat.log2_lt h).1 (Nat.lt_succ_self _)
    rw [← Nat.pow_add]
    exact Nat.lt_of_lt_of_le hlt (Nat.pow_le_pow_right (by decide) (by omega))

theorem gridPoint_of_le {m : Nat} (h : m ≤ 2 ^ (53 : Nat)) (e : Nat) : GridPoint (m * 2 ^ e) := by
  by_cases hm : m < 2 ^ (53 : Nat)
  · exact ⟨m, e, hm, rfl⟩
  · have hm' : m = 2 ^ (53 : Nat) := Nat.le_antisymm h (Nat.le_of_not_lt hm)
    exact ⟨1, 53 + e, by decide, by rw [hm', Nat.pow_add, Nat.one_mul]⟩

theorem gridPoint_roundQuotient (num den : Nat) : GridPoint (roundQuotient num den) := by
  apply gridPoint_of_le
  have hlt := lt_pow_gridExponent (num / den)
  have hquotient : num / (den * 2 ^ gridExponent (num / den)) < 2 ^ (53 : Nat) := by
    rw [← Nat.div_div_eq_div_mul]
    exact Nat.div_lt_of_lt_mul (by rw [Nat.mul_comm]; exact hlt)
  have hle := nearestQuotient_le num (den * 2 ^ gridExponent (num / den))
  omega

/-- A square comes out of the root of a quotient. -/
theorem sqrt_div_sq (n : Nat) {d : Nat} (hd : 0 < d) :
    (n / d ^ (2 : Nat)).sqrt = n.sqrt / d := by
  rw [Nat.pow_two]
  apply Nat.le_antisymm
  · rw [Nat.le_div_iff_mul_le hd]
    apply Nat.le_of_lt_succ
    apply Nat.mul_self_lt_mul_self_iff.1
    calc (n / (d * d)).sqrt * d * ((n / (d * d)).sqrt * d) =
        (n / (d * d)).sqrt * (n / (d * d)).sqrt * (d * d) := Nat.mul_mul_mul_comm ..
      _ ≤ n / (d * d) * (d * d) := Nat.mul_le_mul_right _ (Nat.sqrt_le _)
      _ ≤ n := Nat.div_mul_le_self _ _
      _ < n.sqrt.succ * n.sqrt.succ := Nat.lt_succ_sqrt n
  · apply Nat.le_of_lt_succ
    apply Nat.mul_self_lt_mul_self_iff.1
    apply Nat.lt_of_le_of_lt _ (Nat.lt_succ_sqrt _)
    rw [Nat.le_div_iff_mul_le (Nat.mul_pos hd hd)]
    calc n.sqrt / d * (n.sqrt / d) * (d * d) = n.sqrt / d * d * (n.sqrt / d * d) :=
        Nat.mul_mul_mul_comm ..
      _ ≤ n.sqrt * n.sqrt := Nat.mul_self_le_mul_self (Nat.div_mul_le_self _ _)
      _ ≤ n := Nat.sqrt_le n

theorem gridPoint_roundSqrt (num den : Nat) : GridPoint (roundSqrt num den) := by
  apply gridPoint_of_le
  have hlt := lt_pow_gridExponent (num / den).sqrt
  have hstep : 0 < 2 ^ gridExponent (num / den).sqrt := Nat.pow_pos (by decide)
  have hroot : (num / (den * (2 ^ gridExponent (num / den).sqrt) ^ (2 : Nat))).sqrt
      < 2 ^ (53 : Nat) := by
    rw [← Nat.div_div_eq_div_mul, sqrt_div_sq _ hstep]
    exact Nat.div_lt_of_lt_mul (by rw [Nat.mul_comm]; exact hlt)
  have hle := nearestSqrt_le num (den * (2 ^ gridExponent (num / den).sqrt) ^ (2 : Nat))
  omega

end DesignMetrics.Binary64
