import DesignMetrics.Text.Blank

/-!
# Lines of a document

Documents are read as lists of characters. The classes of characters that end words and lines, the
marks that end documents, what a run of line breaks means inside a scalar that is folded, and how
far a text can be read.
-/

namespace DesignMetrics.Yaml

def isBreak (c : Char) : Bool := c = '\n' || c = '\x85' || c = '\u2028' || c = '\u2029'

def isSpaceOrTab (c : Char) : Bool := c = ' ' || c = '\t'

/-- What a line break is read as: the next-line character is an ordinary one. -/
def breakText (c : Char) : Char := if c = '\x85' then '\n' else c

/-- Whether no word goes on here. -/
def atWordEnd : List Char → Bool
  | [] => true
  | c :: _ => isSpaceOrTab c || isBreak c

/-- Whether a line that starts here starts or ends a document. -/
def atMarker : List Char → Bool
  | '-' :: '-' :: '-' :: rest => atWordEnd rest
  | '.' :: '.' :: '.' :: rest => atWordEnd rest
  | _ => false

/-- What a line break means in a folded scalar, given the breaks of the empty lines after it: one
alone is a space, an ordinary one before others is dropped. -/
def folded (first : Char) (others : List Char) : List Char :=
  if breakText first = '\n' then (if others = [] then [' '] else others) else first :: others

/-- The two-character and one-character carriage returns as ordinary line breaks. -/
def withPlainBreaks : List Char → List Char
  | [] => []
  | '\r' :: '\n' :: rest => '\n' :: withPlainBreaks rest
  | c :: rest => (if c = '\r' then '\n' else c) :: withPlainBreaks rest

/-- The characters that may stand in a document, as code ranges. -/
def printableRanges : List (Nat × Nat) :=
  [(0x09, 0x0A), (0x0D, 0x0D), (0x20, 0x7E), (0x85, 0x85), (0xA0, 0xFFFD), (0x10000, 0x10FFFF)]

def isPrintable (c : Char) : Bool := Text.inRanges printableRanges c.toNat

/-- Texts are taken in blocks of 4096 characters, the first two of them together; this is where the
block of a character starts. -/
def blockStart (index : Nat) : Nat := if index < 8192 then 0 else index / 4096 * 4096

/-- What can be read of a text. A block is taken only if all of it is printable, so the first
character that is not stands at the start of its block. -/
def readable (s : List Char) : List Char :=
  match s.findIdx? (!isPrintable ·) with
  | none => s
  | some index => s.take (blockStart index) ++ (s.drop index).take 1

theorem all_take_of_printable {s : List Char} (h : s.all isPrintable) (n : Nat) :
    (s.take n).all isPrintable :=
  List.all_eq_true.2 fun c hc => List.all_eq_true.1 h c (List.mem_of_mem_take hc)

theorem readable_of_printable {s : List Char} (h : s.all isPrintable) : readable s = s := by
  have none_found : s.findIdx? (!isPrintable ·) = none := by
    simpa [List.findIdx?_eq_none_iff] using h
  simp [readable, none_found]

end DesignMetrics.Yaml
