/-!
# Blank text

A name made of white space alone names nothing. White space is the Unicode property together with
the four information separators U+001C to U+001F.
-/

namespace DesignMetrics.Text

/-- The white-space characters, as closed ranges of code points, ascending. -/
def blankRanges : List (Nat × Nat) :=
  [(0x09, 0x0D), (0x1C, 0x20), (0x85, 0x85), (0xA0, 0xA0), (0x1680, 0x1680), (0x2000, 0x200A),
    (0x2028, 0x2029), (0x202F, 0x202F), (0x205F, 0x205F), (0x3000, 0x3000)]

def inRanges (ranges : List (Nat × Nat)) (code : Nat) : Bool :=
  ranges.any fun range => decide (range.1 ≤ code) && decide (code ≤ range.2)

def isBlankChar (c : Char) : Bool := inRanges blankRanges c.toNat

def isBlank (s : String) : Bool := s.toList.all isBlankChar

end DesignMetrics.Text
