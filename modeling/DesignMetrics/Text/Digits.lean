import DesignMetrics.Text.Blank

/-!
# Digits of numbers

Numbers may be written with the decimal digits of any script and may have space around them. They
have at most 4300 decimal digits: longer ones are neither read nor written.
-/

namespace DesignMetrics.Text

/-- The code points of the digits zero. The digits one to nine follow each of them. -/
def zeroCodes : List Nat :=
  [0x30, 0x660, 0x6F0, 0x7C0, 0x966, 0x9E6, 0xA66, 0xAE6, 0xB66, 0xBE6, 0xC66, 0xCE6, 0xD66, 0xDE6,
    0xE50, 0xED0, 0xF20, 0x1040, 0x1090, 0x17E0, 0x1810, 0x1946, 0x19D0, 0x1A80, 0x1A90, 0x1B50,
    0x1BB0, 0x1C40, 0x1C50, 0xA620, 0xA8D0, 0xA900, 0xA9D0, 0xA9F0, 0xAA50, 0xABF0, 0xFF10, 0x104A0,
    0x10D30, 0x11066, 0x110F0, 0x11136, 0x111D0, 0x112F0, 0x11450, 0x114D0, 0x11650, 0x116C0,
    0x11730, 0x118E0, 0x11950, 0x11C50, 0x11D50, 0x11DA0, 0x16A60, 0x16AC0, 0x16B50, 0x1D7CE,
    0x1D7D8, 0x1D7E2, 0x1D7EC, 0x1D7F6, 0x1E140, 0x1E2F0, 0x1E950, 0x1FBF0]

/-- The value of a decimal digit of any script. -/
def decimalDigit? (c : Char) : Option Nat :=
  (zeroCodes.find? fun first => decide (first ≤ c.toNat) && decide (c.toNat < first + 10)).map
    (c.toNat - ·)

/-- White space around a number. The information separators are none here. -/
def isNumberSpace (c : Char) : Bool := isBlankChar c && !inRanges [(0x1C, 0x1F)] c.toNat

/-- A character of a number: digits of any script as those from 0 to 9, white space as spaces. -/
def numberChar (c : Char) : Char :=
  match decimalDigit? c with
  | some value => Char.ofNat (48 + value)
  | none => if isNumberSpace c then ' ' else c

/-- The text of a number without the space around it, its digits from 0 to 9. -/
def numberText (s : List Char) : List Char :=
  let inner := (s.map numberChar).dropWhile (· = ' ')
  (inner.reverse.dropWhile (· = ' ')).reverse

theorem numberChar_of_isDigit {c : Char} (h : c.isDigit = true) : numberChar c = c := by
  have hrange : 48 ≤ c.toNat ∧ c.toNat ≤ 57 := by
    simpa [Char.isDigit, UInt32.le_iff_toNat_le] using h
  have hdigit : decimalDigit? c = some (c.toNat - 48) := by
    simp [decimalDigit?, zeroCodes, hrange.1, show c.toNat < 48 + 10 by omega]
  rw [numberChar, hdigit]
  show Char.ofNat (48 + (c.toNat - 48)) = c
  rw [show 48 + (c.toNat - 48) = c.toNat by omega, Char.ofNat_toNat]

theorem ne_space_of_isDigit {c : Char} (h : c.isDigit = true) : c ≠ ' ' := by
  rintro rfl
  simp at h

theorem dropWhile_space_of_isDigit {s : List Char} (h : ∀ c ∈ s, c.isDigit = true) :
    s.dropWhile (· = ' ') = s := by
  cases s with
  | nil => rfl
  | cons c rest => simp [ne_space_of_isDigit (h c (by simp))]

/-- Digits from 0 to 9 are the text of a number as they stand. -/
theorem numberText_of_isDigit {s : List Char} (h : ∀ c ∈ s, c.isDigit = true) :
    numberText s = s := by
  have hmap : s.map numberChar = s := by
    rw [List.map_congr_left fun c hc => numberChar_of_isDigit (h c hc), List.map_id']
  have hrev : ∀ c ∈ s.reverse, c.isDigit = true := fun c hc => h c (List.mem_reverse.1 hc)
  simp only [numberText, hmap, dropWhile_space_of_isDigit h, dropWhile_space_of_isDigit hrev,
    List.reverse_reverse]

def signed : List Char → Bool × List Char
  | '-' :: rest => (true, rest)
  | '+' :: rest => (false, rest)
  | s => (false, s)

theorem signed_of_isDigit {s : List Char} (h : ∀ c ∈ s, c.isDigit = true) :
    signed s = (false, s) := by
  unfold signed
  split
  · simp at h
  · simp at h
  · rfl

def isHexDigit (c : Char) : Bool :=
  c.isDigit || ('a' ≤ c && c ≤ 'f') || ('A' ≤ c && c ≤ 'F')

def hexDigitValue (c : Char) : Nat :=
  if c.isDigit then c.toNat - 48 else if c ≤ 'F' then c.toNat - 55 else c.toNat - 87

/-- The number with the given digits, of a base up to sixteen. -/
def digitsValue (base : Nat) (digits : List Char) : Nat :=
  digits.foldl (fun n c => base * n + hexDigitValue c) 0

theorem digitsValue_ten {s : List Char} (h : ∀ c ∈ s, c.isDigit = true) :
    digitsValue 10 s = Nat.ofDigitChars 10 s 0 := by
  unfold digitsValue
  rw [Nat.ofDigitChars]
  generalize 0 = start
  induction s generalizing start with
  | nil => rfl
  | cons c rest ih =>
    simp only [List.foldl_cons]
    rw [ih fun c hc => h c (List.mem_cons_of_mem _ hc)]
    simp [hexDigitValue, h c (by simp)]

/-- The greatest number of decimal digits that is read or written. -/
def maxDecimalDigits : Nat := 4300

def isWritable (n : Int) : Bool := decide (n.natAbs < Nat.pow 10 maxDecimalDigits)

end DesignMetrics.Text
