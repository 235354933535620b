import DesignMetrics.Text.Digits
import DesignMetrics.Yaml.Flaw
import DesignMetrics.Yaml.Line

/-!
# Written forms of scalars

A scalar is written plainly, between quotes, or as a block of indented lines. Each reader takes the
characters from the scalar on and gives its text with the characters after it.
-/

namespace DesignMetrics.Yaml

/-- A text and the characters after it. -/
abbrev Reading := Except Flaw (List Char × List Char)

def Reading.prepend (text : List Char) (reading : Reading) : Reading :=
  reading.map fun r => (text ++ r.1, r.2)

/-! ## Plain scalars -/

/-- Whether the words of a plain scalar stop at a character, given what follows it. -/
def stopsPlain (inFlow : Bool) (c : Char) (rest : List Char) : Bool :=
  isSpaceOrTab c || isBreak c
    || (c = ':' && (atWordEnd rest || (inFlow && rest.head?.any (",[]\x7b\x7d".toList.contains ·))))
    || (inFlow && ",?[]\x7b\x7d".toList.contains c)

/-- A word of a plain scalar and what follows it. -/
def plainWord (inFlow : Bool) : List Char → List Char × List Char
  | [] => ([], [])
  | c :: rest =>
    if stopsPlain inFlow c rest then ([], c :: rest)
    else (c :: (plainWord inFlow rest).1, (plainWord inFlow rest).2)

/-- What stands between two words of a plain scalar. A gap that crosses lines has the column of the
next word. -/
structure PlainGap where
  text : List Char
  column : Option Nat
  rest : List Char

/-- The breaks of empty lines, the column of the next character that is no space, and the characters
from there on. -/
def emptyLines (column : Nat) : List Char → List Char × Nat × List Char
  | [] => ([], column, [])
  | c :: rest =>
    if c = ' ' then emptyLines (column + 1) rest
    else if isBreak c then
      (breakText c :: (emptyLines 0 rest).1, (emptyLines 0 rest).2)
    else ([], column, c :: rest)

def plainGap (s : List Char) : PlainGap :=
  match s.dropWhile (· = ' ') with
  | [] => ⟨s, none, []⟩
  | c :: rest =>
    if isBreak c then
      let lines := emptyLines 0 rest
      ⟨folded c lines.1, some lines.2.1, lines.2.2⟩
    else ⟨s.takeWhile (· = ' '), none, c :: rest⟩

/-- Whether a plain scalar goes on behind a gap: there is a gap, no comment starts, and a new line
is indented enough and no document marker. -/
def PlainGap.joins (gap : PlainGap) (inFlow : Bool) (least : Nat) : Bool :=
  let sameBlock :=
    match gap.column with
    | none => true
    | some column => (inFlow || least ≤ column) && !(column = 0 && atMarker gap.rest)
  !gap.text.isEmpty && gap.rest.head? != some '#' && sameBlock
    && !(plainWord inFlow gap.rest).1.isEmpty

structure PlainText where
  text : List Char
  /-- Whether the characters behind the scalar are on a new line. -/
  endsLine : Bool
  rest : List Char

def plainFrom (inFlow : Bool) (least : Nat) : Nat → List Char → PlainText
  | 0, s => ⟨[], false, s⟩
  | fuel + 1, s =>
    let word := plainWord inFlow s
    let gap := plainGap word.2
    if gap.joins inFlow least then
      let more := plainFrom inFlow least fuel gap.rest
      { more with text := word.1 ++ gap.text ++ more.text }
    else ⟨word.1, gap.column.isSome, gap.rest⟩

/-- The plain scalar that starts here, whose further lines start at column `least` or later unless
it stands in a flow collection. -/
def plainText (inFlow : Bool) (least : Nat) (s : List Char) : PlainText :=
  plainFrom inFlow least (s.length + 1) s

/-! ## Quoted scalars -/

/-- The line breaks of empty lines between quotes; no document marker may start a line. -/
def quotedLines (lineStart : Bool) : List Char → Reading
  | [] => .ok ([], [])
  | c :: rest =>
    if lineStart && atMarker (c :: rest) then .error .malformed
    else if isSpaceOrTab c then quotedLines false rest
    else if isBreak c then (quotedLines true rest).prepend [breakText c]
    else .ok ([], c :: rest)

def escapedChar? : Char → Option Char
  | '0' => some '\x00'
  | 'a' => some '\x07'
  | 'b' => some '\x08'
  | 't' => some '\t'
  | '\t' => some '\t'
  | 'n' => some '\n'
  | 'v' => some '\x0b'
  | 'f' => some '\x0c'
  | 'r' => some '\r'
  | 'e' => some '\x1b'
  | ' ' => some ' '
  | '"' => some '"'
  | '\\' => some '\\'
  | '/' => some '/'
  | 'N' => some '\x85'
  | '_' => some '\xa0'
  | 'L' => some '\u2028'
  | 'P' => some '\u2029'
  | _ => none

/-- How many hexadecimal digits follow a backslash and a character. -/
def escapedWidth? : Char → Option Nat
  | 'x' => some 2
  | 'u' => some 4
  | 'U' => some 8
  | _ => none

/-- The character with a code of `width` hexadecimal digits. A code of half a surrogate pair is read
as the replacement character. -/
def escapedCode (width : Nat) (s : List Char) : Reading :=
  let digits := s.take width
  let code := Text.digitsValue 16 digits
  if digits.length ≠ width ∨ !digits.all Text.isHexDigit then .error .malformed
  else if 0x80000000 ≤ code then .error (.defective .longCode)
  else if 0x10FFFF < code then .error (.defective .noCharacter)
  else .ok ([if code.isValidChar then Char.ofNat code else '\ufffd'], s.drop width)

def escaped : List Char → Reading
  | [] => .error .malformed
  | c :: rest =>
    match escapedChar? c, escapedWidth? c with
    | some x, _ => .ok ([x], rest)
    | none, some width => escapedCode width rest
    | none, none => if isBreak c then quotedLines true rest else .error .malformed

/-- What spaces, tabs and line breaks between quotes stand for; a document must not end there. -/
def quotedGap (s : List Char) : Reading :=
  match s.dropWhile isSpaceOrTab with
  | [] => .error .malformed
  | c :: rest =>
    if isBreak c then (quotedLines true rest).map fun lines => (folded c lines.1, lines.2)
    else .ok (s.takeWhile isSpaceOrTab, c :: rest)

def quotedFrom (double : Bool) : Nat → List Char → Reading
  | 0, _ => .error .malformed
  | _, [] => .error .malformed
  | fuel + 1, c :: rest =>
    let followedBy (reading : Reading) : Reading :=
      reading.bind fun text => (quotedFrom double fuel text.2).prepend text.1
    if isSpaceOrTab c || isBreak c then followedBy (quotedGap (c :: rest))
    else if double then
      if c = '"' then .ok ([], rest)
      else if c = '\\' then followedBy (escaped rest)
      else followedBy (.ok ([c], rest))
    else if c = '\'' then
      match rest with
      | '\'' :: more => followedBy (.ok ([c], more))
      | _ => .ok ([], rest)
    else followedBy (.ok ([c], rest))

/-- The text of a scalar whose opening quote has been read. Between single quotes a quote is written
twice; between double quotes a backslash escapes. -/
def quotedText (double : Bool) (s : List Char) : Reading := quotedFrom double (s.length + 1) s

/-! ## Block scalars -/

/-- What happens to the line breaks at the end of a block. -/
inductive Chomping where
  | strip
  | clip
  | keep
deriving DecidableEq

structure BlockHeader where
  chomping : Chomping := .clip
  /-- By how many columns the lines are indented, if that is written. -/
  indentation : Option Nat := none

def chomping? : List Char → Option (Chomping × List Char)
  | '+' :: rest => some (.keep, rest)
  | '-' :: rest => some (.strip, rest)
  | _ => none

/-- The written indentation, from 1 to 9; a zero is an error. -/
def indentation? : List Char → Option (Option Nat × List Char)
  | [] => some (none, [])
  | c :: rest =>
    if c = '0' then none
    else if c.isDigit then some (some (c.toNat - 48), rest)
    else some (none, c :: rest)

/-- The rest of a line that holds nothing but a comment, from the line after it on. -/
def ignoredLine? (s : List Char) : Option (List Char) :=
  match s.dropWhile (· = ' ') with
  | [] => some []
  | c :: rest =>
    if isBreak c then some rest
    else if c = '#' then some ((rest.dropWhile (!isBreak ·)).drop 1)
    else none

/-- The indicators behind the mark of a block scalar, in either order. -/
def blockHeader? (s : List Char) : Option (BlockHeader × List Char) := do
  let (header, rest) ← match chomping? s with
    | some (chomping, rest) => do
      let (indentation, rest) ← indentation? rest
      pure (⟨chomping, indentation⟩, rest)
    | none => do
      let (indentation, rest) ← indentation? s
      match indentation, chomping? rest with
      | some _, some (chomping, rest) => pure (⟨chomping, indentation⟩, rest)
      | _, _ => pure (⟨.clip, indentation⟩, rest)
  guard (rest.head?.all fun c => c = ' ' || isBreak c)
  return (header, ← ignoredLine? rest)

/-- The breaks of empty lines before a line of a block, of which `indentation` columns are skipped,
the column of the next character, and the characters from there on. -/
def blockGap (indentation column : Nat) : List Char → List Char × Nat × List Char
  | [] => ([], column, [])
  | c :: rest =>
    if c = ' ' && column < indentation then blockGap indentation (column + 1) rest
    else if isBreak c then
      (breakText c :: (blockGap indentation 0 rest).1, (blockGap indentation 0 rest).2)
    else ([], column, c :: rest)

/-- The greatest number of spaces in front of the first character that is no space, over all lines
up to it. -/
def deepestColumn (deepest column : Nat) : List Char → Nat
  | [] => deepest
  | c :: rest =>
    if c = ' ' then deepestColumn (max deepest (column + 1)) (column + 1) rest
    else if isBreak c then deepestColumn deepest 0 rest
    else deepest

structure BlockText where
  text : List Char
  /-- The break of the last line. -/
  lastBreak : List Char
  /-- The breaks of the empty lines behind it. -/
  emptyLines : List Char
  rest : List Char

/-- The lines from the indented one that starts here on. A folded break between two lines that start
with no space is a space, or nothing if empty lines follow. -/
def blockFrom (folds : Bool) (indentation : Nat) : Nat → List Char → BlockText
  | 0, s => ⟨[], [], [], s⟩
  | fuel + 1, s =>
    let line := s.takeWhile (!isBreak ·)
    let after := s.dropWhile (!isBreak ·)
    let lineBreak := (after.take 1).map breakText
    let (empty, column, rest) := blockGap indentation 0 (after.drop 1)
    if column = indentation ∧ rest ≠ [] then
      let startsWord (t : List Char) : Bool := t.head?.any (!isSpaceOrTab ·)
      let joint :=
        if folds && lineBreak = ['\n'] && startsWord s && startsWord rest then
          (if empty.isEmpty then [' '] else [])
        else lineBreak
      let more := blockFrom folds indentation fuel rest
      { more with text := line ++ joint ++ empty ++ more.text }
    else ⟨line, lineBreak, empty, rest⟩

/-- The text of a block scalar whose mark has been read. Its lines are indented to column `least` at
the least. -/
def blockText? (folds : Bool) (least : Nat) (s : List Char) : Option (List Char × List Char) := do
  let (header, lines) ← blockHeader? s
  let least := max least 1
  let indentation :=
    match header.indentation with
    | some n => least + n - 1
    | none => max least (deepestColumn 0 0 lines)
  let (empty, column, rest) := blockGap indentation 0 lines
  let block : BlockText :=
    if column = indentation ∧ rest ≠ [] then
      let block := blockFrom folds indentation (rest.length + 1) rest
      { block with text := empty ++ block.text }
    else ⟨[], [], empty, rest⟩
  let ending :=
    match header.chomping with
    | .strip => []
    | .clip => block.lastBreak
    | .keep => block.lastBreak ++ block.emptyLines
  return (block.text ++ ending, block.rest)

end DesignMetrics.Yaml
