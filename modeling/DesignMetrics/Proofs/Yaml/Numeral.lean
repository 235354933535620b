import DesignMetrics.Proofs.Yaml.PlainWord
import DesignMetrics.Yaml.Scalar
import Mathlib.Data.List.TakeWhile

/-!
# Decimal numerals

The decimal digits of a number, without a zero in front, look like an integer and like nothing else:
neither like an octal number nor like one of base 60, a real number or a word with a meaning of its
own. They are read as the number they are the digits of, as long as there are not too many.
-/

namespace DesignMetrics.Yaml

/-- Decimal digits that start with a zero only if there is no other digit. -/
structure IsNumeral (s : List Char) : Prop where
  ne_nil : s ≠ []
  digits : ∀ c ∈ s, c.isDigit = true
  zero : s.head? = some '0' → s = ['0']

theorem digitChar_ne_zero : ∀ n < 10, n ≠ 0 → Nat.digitChar n ≠ '0' := by decide

theorem head?_toDigits_ne_zero {n : Nat} (hn : n ≠ 0) :
    (Nat.toDigits 10 n).head? ≠ some '0' := by
  induction n using Nat.strongRecOn with
  | ind n ih =>
    rw [Nat.toDigits_eq_if (by decide)]
    split
    · next hlt => exact fun heq => digitChar_ne_zero n hlt hn (Option.some.inj heq)
    · next hle =>
      have hhead := ih (n / 10) (by omega) (by omega)
      have hne : Nat.toDigits 10 (n / 10) ≠ [] := Nat.toDigits_ne_nil
      obtain ⟨c, rest, hcons⟩ := List.exists_cons_of_ne_nil hne
      rw [hcons] at hhead ⊢
      exact hhead

theorem isNumeral_toDigits (n : Nat) : IsNumeral (Nat.toDigits 10 n) where
  ne_nil := Nat.toDigits_ne_nil
  digits c hc := Nat.isDigit_of_mem_toDigits (by decide) (by decide) hc
  zero hhead := by
    by_cases hn : n = 0
    · rw [hn, Nat.toDigits_zero]
    · exact absurd hhead (head?_toDigits_ne_zero hn)

namespace IsNumeral

variable {s : List Char}

theorem isWord (h : IsNumeral s) : IsWord s where
  ne_nil := h.ne_nil
  chars c hc := by simp [isWordChar, Char.isAlphanum, h.digits c hc]

theorem not_mem (h : IsNumeral s) {c : Char} (hc : c.isDigit = false) : c ∉ s := by
  intro hmem
  rw [h.digits c hmem] at hc
  cases hc

/-- A numeral is none of some texts that do not start with a digit. -/
theorem contains_eq_false (h : IsNumeral s) {texts : List String}
    (htexts : ∀ text ∈ texts, text.toList.head?.all (!·.isDigit) = true) :
    texts.contains (String.ofList s) = false := by
  obtain ⟨c, rest, rfl⟩ := List.exists_cons_of_ne_nil h.ne_nil
  have hc : c.isDigit = true := h.digits c List.mem_cons_self
  rw [List.contains_eq_mem, decide_eq_false_iff_not]
  intro hmem
  have hhead := htexts _ hmem
  rw [String.toList_ofList] at hhead
  simp [hc] at hhead

theorem signed_eq (h : IsNumeral s) : Text.signed s = (false, s) := Text.signed_of_isDigit h.digits

theorem colonParts_eq {s : List Char} (h : ':' ∉ s) : Kind.colonParts s = [s] := by
  induction s with
  | nil => rfl
  | cons c rest ih =>
    rw [List.mem_cons, not_or] at h
    rw [Kind.colonParts, if_neg (Ne.symm h.1), ih h.2]

theorem isNatural (h : IsNumeral s) : Kind.isNatural s = true := by
  have hdecimal : Kind.isSexagesimal s = true := by
    obtain ⟨c, rest, rfl⟩ := List.exists_cons_of_ne_nil h.ne_nil
    have hall : ∀ c ∈ rest, c.isDigit = true := fun c hc => h.digits c (List.mem_cons_of_mem _ hc)
    have hc := h.digits c List.mem_cons_self
    rw [Kind.isSexagesimal, colonParts_eq (h.not_mem rfl)]
    simp [Kind.isDecimal, Kind.areDigits, hc]
    exact fun d hd => Or.inl (hall d hd)
  by_cases hzero : s.head? = some '0'
  · rw [h.zero hzero]
    rfl
  · unfold Kind.isNatural
    split <;> simp_all

theorem withoutFinalBreak_eq (h : IsNumeral s) : Kind.withoutFinalBreak s = s := by
  rw [Kind.withoutFinalBreak, if_neg]
  intro hlast
  exact h.not_mem (c := '\n') rfl (List.mem_of_getLast? hlast)

theorem isReal_eq_false (h : IsNumeral s) : Kind.isReal s = false := by
  have hdrop : s.dropWhile (· != '.') = [] := by
    rw [List.dropWhile_eq_nil_iff]
    intro c hc
    have hne : c ≠ '.' := fun heq => h.not_mem (c := '.') rfl (heq ▸ hc)
    simpa using hne
  have hpointed : Kind.isPointed s = false := by
    simp only [Kind.isPointed, h.signed_eq, hdrop]
  rw [Kind.isReal, h.signed_eq, hpointed, h.contains_eq_false (by decide),
    h.contains_eq_false (by decide)]
  rfl

/-- A numeral looks like an integer. -/
theorem ofPlain_eq (h : IsNumeral s) : Kind.ofPlain s = .integer := by
  have hempty : s.isEmpty = false := by simpa using h.ne_nil
  have hinteger : Kind.isInteger s = true := by rw [Kind.isInteger, h.signed_eq, h.isNatural]
  have hnull : Kind.nullTexts.contains (String.ofList s) = false := h.contains_eq_false (by decide)
  have htruth : Kind.truthTexts.contains (String.ofList s) = false :=
    h.contains_eq_false (by decide)
  rw [Kind.ofPlain, h.withoutFinalBreak_eq, hempty]
  simp only [hnull, htruth, h.isReal_eq_false, hinteger]
  rfl

theorem magnitude_eq (h : IsNumeral s) (hlength : s.length ≤ Text.maxDecimalDigits) :
    Number.magnitude s = .ok (Nat.ofDigitChars 10 s 0) := by
  by_cases hzero : s.head? = some '0'
  · rw [h.zero hzero]
    rfl
  · have hcolon : s.contains ':' = false := by simpa using h.not_mem rfl
    have hten : Number.magnitude s = Number.integerOf 10 s := by
      unfold Number.magnitude
      split
      · exact absurd rfl h.ne_nil
      all_goals simp_all
    rw [hten, Number.integerOf_ten h.ne_nil h.digits hlength, Text.digitsValue_ten h.digits]

/-- A numeral is read as the number that its digits make, unless there are too many. -/
theorem integer_eq (h : IsNumeral s) (hlength : s.length ≤ Text.maxDecimalDigits) :
    Number.integer s = .ok (Nat.ofDigitChars 10 s 0) := by
  have hunderscores : Number.withoutUnderscores s = s := by
    refine List.filter_eq_self.2 fun c hc => ?_
    have hne : c ≠ '_' := fun heq => h.not_mem (c := '_') rfl (heq ▸ hc)
    simpa using hne
  rw [Number.integer, hunderscores, h.signed_eq]
  simp only [h.magnitude_eq hlength]
  rfl

end IsNumeral

/-- A number has a written form if and only if it has few enough digits. -/
theorem isWritable_iff {n : Nat} :
    Text.isWritable n = true ↔ (Nat.toDigits 10 n).length ≤ Text.maxDecimalDigits := by
  rw [Nat.length_toDigits_le_iff (by decide) (by decide), Text.isWritable, decide_eq_true_iff,
    Int.natAbs_natCast, Nat.pow_eq]

/-- The digits of a number that has a written form are read as that number. -/
theorem datum_toDigits {n : Nat} (h : Text.isWritable n = true) :
    Kind.datum .integer (Nat.toDigits 10 n) = .ok (.integer n) := by
  rw [Kind.datum, (isNumeral_toDigits n).integer_eq (isWritable_iff.1 h),
    Nat.ofDigitChars_ten_toDigits]
  rfl

end DesignMetrics.Yaml
