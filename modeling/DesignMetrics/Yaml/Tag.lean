import DesignMetrics.Yaml.ScalarText

/-!
# Tags and directives

A tag declares the kind of a node. It is written in full, or as a handle that stands for its
beginning, followed by the rest. Lines of directions to the reader, in front of a document, give the
version and the meaning of handles. Readers take the characters from behind the first mark on.
-/

namespace DesignMetrics.Yaml

structure Tag where
  handle : Option String
  suffix : String
deriving DecidableEq

namespace Tag

/-- The tag of a lone mark, which asks for the kind that the form of the node suggests. -/
def nonSpecific : Tag := ⟨none, "!"⟩

def coreStart : String := "tag:yaml.org,2002:"

/-- The handles that need no declaration. -/
def knownHandles : List (String × String) := [("!", "!"), ("!!", coreStart)]

/-- The full tag, unless its handle has no meaning. -/
def full? (handles : List (String × String)) (tag : Tag) : Option String :=
  match tag.handle with
  | none => some tag.suffix
  | some handle => (handles.lookup handle).map (· ++ tag.suffix)

end Tag

inductive Directive where
  | version
  /-- A handle and the beginning of the tags that it stands for. -/
  | handle (name start : String)
  /-- A direction without a meaning here. -/
  | other
deriving DecidableEq

/-! ## Parts -/

def isNameChar (c : Char) : Bool := c.isAlphanum || c = '-' || c = '_'

def isUriChar (c : Char) : Bool := c.isAlphanum || "-;/?:@&=+$,_.!~*\x27()[]%".toList.contains c

/-- Whether a space, a line break or the end is here. -/
def atGap (s : List Char) : Bool := s.head?.all fun c => c = ' ' || isBreak c

/-- Read the octets behind percent signs as text; `octets` are those of the run so far, last
first. -/
def unescaped? (octets : List UInt8) : List Char → Option (List Char)
  | [] => decoded?
  | '%' :: high :: low :: rest =>
    if Text.isHexDigit high ∧ Text.isHexDigit low then
      unescaped? (UInt8.ofNat (Text.digitsValue 16 [high, low]) :: octets) rest
    else none
  | c :: rest =>
    if c = '%' then none
    else do
      let before ← decoded?
      let after ← unescaped? [] rest
      return before ++ c :: after
where
  decoded? : Option (List Char) :=
    (String.fromUTF8? ⟨octets.reverse.toArray⟩).map String.toList

/-- A part of a tag, and what follows it. -/
def uri? (s : List Char) : Option (String × List Char) := do
  let written := s.takeWhile isUriChar
  guard (written ≠ [])
  return (String.ofList (← unescaped? [] written), s.dropWhile isUriChar)

/-- A handle: one mark in front of a space, or two with a name or nothing between them. -/
def handle? (s : List Char) : Option (String × List Char) :=
  if s.head? = some ' ' then some ("!", s)
  else
    match s.dropWhile isNameChar with
    | '!' :: rest => some (String.ofList ('!' :: s.takeWhile isNameChar ++ ['!']), rest)
    | _ => none

/-- A tag. A second mark before the next gap ends a handle, otherwise the first one is a handle. -/
def tag? (s : List Char) : Option (Tag × List Char) :=
  if atWordEnd s then some (.nonSpecific, s)
  else do
    let (tag, rest) ←
      match s with
      | '<' :: more => do
        let (suffix, rest) ← uri? more
        guard (rest.head? = some '>')
        pure (⟨none, suffix⟩, rest.drop 1)
      | _ => do
        let word := s.takeWhile fun c => !(c = ' ' || isBreak c)
        let (handle, rest) ← if word.contains '!' then handle? s else some ("!", s)
        let (suffix, rest) ← uri? rest
        pure (⟨some handle, suffix⟩, rest)
    guard (atGap rest)
    return (tag, rest)

/-! ## Directives -/

/-- What a reading that may fail gives, where failing means a malformed document. -/
def orMalformed {α : Type} (found : Option α) : Except Flaw α :=
  match found with
  | some a => .ok a
  | none => .error .malformed

/-- A part of a version number; the character behind it has to be printable. -/
def versionPart (s : List Char) : Except Flaw (Nat × List Char) :=
  let digits := s.takeWhile Char.isDigit
  let rest := s.dropWhile Char.isDigit
  if digits = [] ∨ !rest.head?.all isPrintable then .error .malformed
  else if Text.maxDecimalDigits < digits.length then .error (.defective .longNumber)
  else .ok (Text.digitsValue 10 digits, rest)

/-- What follows a version, which has to start with 1. -/
def version (s : List Char) : Except Flaw (List Char) := do
  let (major, rest) ← versionPart (s.dropWhile (· = ' '))
  if rest.head? ≠ some '.' then throw .malformed
  let (_, rest) ← versionPart (rest.drop 1)
  if !atGap rest ∨ major ≠ 1 then throw .malformed
  return rest

/-- The meaning of a handle and what follows it. -/
def declaration? (s : List Char) : Option (Directive × List Char) := do
  let s := s.dropWhile (· = ' ')
  guard (s.head? = some '!')
  let (name, rest) ← handle? (s.drop 1)
  guard (rest.head? = some ' ')
  let (start, rest) ← uri? (rest.dropWhile (· = ' '))
  guard (atGap rest)
  return (.handle name start, rest)

def directive (s : List Char) : Except Flaw (Directive × List Char) := do
  let name := s.takeWhile isNameChar
  let rest := s.dropWhile isNameChar
  if name = [] ∨ !atGap rest then throw .malformed
  let (found, rest) ←
    if String.ofList name = "YAML" then do pure (.version, ← version rest)
    else if String.ofList name = "TAG" then orMalformed (declaration? rest)
    else pure (.other, rest.dropWhile (!isBreak ·))
  return (found, ← orMalformed (ignoredLine? rest))

end DesignMetrics.Yaml
