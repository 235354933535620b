import DesignMetrics.Yaml.Token

/-!
# Words of letters and digits

A word of letters, digits and underscores is a plain scalar by itself: it holds nothing that ends a
scalar or starts anything else. It goes up to a colon before a space, or up to the end of its line
when the next line is not indented.
-/

namespace DesignMetrics.Yaml

def isWordChar (c : Char) : Bool := c.isAlphanum || c = '_'

structure IsWord (word : List Char) : Prop where
  ne_nil : word ≠ []
  chars : ∀ c ∈ word, isWordChar c = true

variable {c d : Char} {word rest : List Char}

theorem isWord_of_all (hne : word ≠ []) (hall : word.all isWordChar = true) : IsWord word :=
  ⟨hne, List.all_eq_true.1 hall⟩

theorem ne_of_isWordChar (hc : isWordChar c = true) (hd : isWordChar d = false) : c ≠ d := by
  rintro rfl
  rw [hc] at hd
  cases hd

theorem toNat_of_isUpper (h : c.isUpper = true) : 65 ≤ c.toNat ∧ c.toNat ≤ 90 :=
  of_decide_eq_true h

theorem toNat_of_isLower (h : c.isLower = true) : 97 ≤ c.toNat ∧ c.toNat ≤ 122 := by
  have hbounds : (decide ('a'.val ≤ c.val) && decide (c.val ≤ 'z'.val)) = true := h
  rw [Bool.and_eq_true] at hbounds
  exact ⟨of_decide_eq_true hbounds.1, of_decide_eq_true hbounds.2⟩

theorem toNat_of_isWordChar (hc : isWordChar c = true) : 48 ≤ c.toNat ∧ c.toNat ≤ 122 := by
  have hcases : (c.isUpper || c.isLower || c.isDigit || c = '_') = true := hc
  simp only [Bool.or_eq_true, decide_eq_true_eq] at hcases
  rcases hcases with ((hupper | hlower) | hdigit) | rfl
  · have := toNat_of_isUpper hupper
    omega
  · have := toNat_of_isLower hlower
    omega
  · have hbounds : 48 ≤ c.toNat ∧ c.toNat ≤ 57 := Char.isDigit_iff_toNat.1 hdigit
    omega
  · decide

theorem isPrintable_of_isWordChar (hc : isWordChar c = true) : isPrintable c = true := by
  have := toNat_of_isWordChar hc
  simp only [isPrintable, printableRanges, Text.inRanges, List.any_cons, Bool.or_eq_true,
    Bool.and_eq_true, decide_eq_true_eq]
  omega

theorem IsWord.all_isPrintable (hword : IsWord word) : word.all isPrintable = true :=
  List.all_eq_true.2 fun c hc => isPrintable_of_isWordChar (hword.chars c hc)

theorem isBreak_of_isWordChar (hc : isWordChar c = true) : isBreak c = false := by
  simp [isBreak, ne_of_isWordChar hc (d := '\n') rfl, ne_of_isWordChar hc (d := '\x85') rfl,
    ne_of_isWordChar hc (d := '\u2028') rfl, ne_of_isWordChar hc (d := '\u2029') rfl]

theorem isSpaceOrTab_of_isWordChar (hc : isWordChar c = true) : isSpaceOrTab c = false := by
  simp [isSpaceOrTab, ne_of_isWordChar hc (d := ' ') rfl, ne_of_isWordChar hc (d := '\t') rfl]

theorem stopsPlain_of_isWordChar (hc : isWordChar c = true) (rest : List Char) :
    stopsPlain false c rest = false := by
  simp [stopsPlain, isSpaceOrTab_of_isWordChar hc, isBreak_of_isWordChar hc,
    ne_of_isWordChar hc (d := ':') rfl]

theorem startsPlain_of_isWordChar (hc : isWordChar c = true) (rest : List Char) :
    Layout.startsPlain false c rest = true := by
  have hmarks : "-?:,[]\x7b\x7d#&*!|>\x27\"%@\x60".toList.all (!isWordChar ·) = true := by decide
  have hnone : c ∉ "-?:,[]\x7b\x7d#&*!|>\x27\"%@\x60".toList := by
    intro hmem
    have hmark := List.all_eq_true.1 hmarks c hmem
    rw [hc] at hmark
    cases hmark
  rw [Layout.startsPlain]
  simp only [isSpaceOrTab_of_isWordChar hc, isBreak_of_isWordChar hc, List.contains_eq_mem, hnone]
  rfl

theorem plainWord_of_stops (hword : ∀ c ∈ word, isWordChar c = true)
    (hstop : stopsPlain false c rest = true) :
    plainWord false (word ++ c :: rest) = (word, c :: rest) := by
  induction word with
  | nil => simp [plainWord, hstop]
  | cons first others ih =>
    have hfirst := stopsPlain_of_isWordChar (hword first List.mem_cons_self) (others ++ c :: rest)
    have hothers := ih fun d hd => hword d (List.mem_cons_of_mem first hd)
    simp [plainWord, hfirst, hothers]

/-- What starts neither with a space nor with a line break, or is nothing. -/
def StartsText (s : List Char) : Prop := ∀ c ∈ s.head?, c ≠ ' ' ∧ isBreak c = false

theorem emptyLines_of_startsText (h : StartsText rest) : emptyLines 0 rest = ([], 0, rest) := by
  cases rest with
  | nil => rfl
  | cons first others =>
    obtain ⟨hspace, hbreak⟩ := h first rfl
    simp [emptyLines, hspace, hbreak]

theorem plainText_before_colon (hword : IsWord word) (least : Nat) :
    plainText false least (word ++ ':' :: ' ' :: rest) = ⟨word, false, ':' :: ' ' :: rest⟩ := by
  have hgap : plainGap (':' :: ' ' :: rest) = ⟨[], none, ':' :: ' ' :: rest⟩ := rfl
  rw [plainText, plainFrom, plainWord_of_stops hword.chars rfl]
  simp [hgap, PlainGap.joins]

theorem plainText_before_break (hword : IsWord word) (hrest : StartsText rest) :
    plainText false 1 (word ++ '\n' :: rest) = ⟨word, true, rest⟩ := by
  have hgap : plainGap ('\n' :: rest) = ⟨[' '], some 0, rest⟩ := by
    have hbreak : isBreak '\n' = true := rfl
    simp [plainGap, hbreak, emptyLines_of_startsText hrest, folded, breakText]
  rw [plainText, plainFrom, plainWord_of_stops hword.chars rfl]
  simp [hgap, PlainGap.joins]

end DesignMetrics.Yaml
