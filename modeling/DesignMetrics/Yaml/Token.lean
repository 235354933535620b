import DesignMetrics.Yaml.Tag

/-!
# Tokens of a document

The tokens of a document carry its nesting: indented collections start and end with tokens of their
own, and every key of a mapping has a token in front of it. A key without a mark is recognised only
at the colon behind it, so a token that may turn out to start one is remembered as a `PendingKey`
until its line ends.
-/

namespace DesignMetrics.Yaml

inductive Token where
  | directive (directive : Directive)
  | documentStart
  | documentEnd
  | blockSequenceStart
  | blockMappingStart
  | blockEnd
  | flowSequenceStart
  | flowSequenceEnd
  | flowMappingStart
  | flowMappingEnd
  | dash
  | comma
  | key
  | value
  | alias (name : String)
  | anchor (name : String)
  | tag (tag : Tag)
  | scalar (plain : Bool) (text : List Char)
  | broken (flaw : Flaw)
deriving DecidableEq

/-- A token that becomes a key if a colon follows it closely enough. -/
structure PendingKey where
  /-- How many tokens stand before it. -/
  position : Nat
  /-- Whether nothing but a key can stand there. -/
  required : Bool
  /-- How many characters stand before it. -/
  index : Nat
  line : Nat
  column : Nat

structure Layout where
  rest : List Char
  /-- How many characters have been passed. -/
  index : Nat := 0
  line : Nat := 0
  column : Nat := 0
  /-- The columns of the open indented collections, innermost first. -/
  indents : List Nat := []
  /-- The pending key of the innermost flow collection, or outside of them. -/
  pending : Option PendingKey := none
  /-- The pending keys around each open flow collection, innermost first. -/
  enclosing : List (Option PendingKey) := []
  /-- Whether an unmarked key may start here. -/
  keyAllowed : Bool := true
  /-- The tokens so far, last first. -/
  tokens : List Token := []

abbrev Step := Except Flaw Layout

namespace Layout

def inFlow (s : Layout) : Bool := !s.enclosing.isEmpty

/-- The least column of the lines of a scalar. -/
def least (s : Layout) : Nat :=
  match s.indents with
  | [] => 0
  | column :: _ => column + 1

/-- Line and column behind a character; a byte-order mark has no width. -/
def place (position : Nat × Nat) (c : Char) : Nat × Nat :=
  if isBreak c then (position.1 + 1, 0)
  else if c = '\ufeff' then position
  else (position.1, position.2 + 1)

/-- Go on where `rest` starts, a tail of what is left. -/
def moveTo (s : Layout) (rest : List Char) : Layout :=
  let passed := s.rest.take (s.rest.length - rest.length)
  let position := passed.foldl place (s.line, s.column)
  { s with rest, index := s.index + passed.length, line := position.1, column := position.2 }

/-- The line and column after a move depend on the characters passed alone. -/
theorem moveTo_of_rest {s : Layout} {passed rest : List Char} (h : s.rest = passed ++ rest) :
    s.moveTo rest =
      { s with
        rest
        index := s.index + passed.length
        line := (passed.foldl place (s.line, s.column)).1
        column := (passed.foldl place (s.line, s.column)).2 } := by
  simp [moveTo, h]

def advance (s : Layout) (count : Nat) : Layout := s.moveTo (s.rest.drop count)

def emit (s : Layout) (token : Token) : Layout := { s with tokens := token :: s.tokens }

/-- Close the indented collections that start behind a column; flow collections ignore columns. -/
def closeBehind (s : Layout) (behind : Nat → Bool) : Layout :=
  if s.inFlow then s
  else
    let closed := s.indents.takeWhile behind
    { s with
      indents := s.indents.dropWhile behind
      tokens := closed.map (fun _ => Token.blockEnd) ++ s.tokens }

/-- Whether an indented collection opens at a column. -/
def opensAt (s : Layout) (column : Nat) : Bool := !s.inFlow && s.indents.head?.all (· < column)

/-- Open an indented collection at the current column, unless it is open. -/
def openBlock (s : Layout) (token : Token) : Layout :=
  if s.opensAt s.column then { s.emit token with indents := s.column :: s.indents } else s

/-! ## Keys without a mark -/

/-- A pending key goes with its line, or when it has become too long. -/
def isStale (s : Layout) (k : PendingKey) : Bool :=
  k.line != s.line || decide (k.index + 1024 < s.index)

def pendingKeys (s : Layout) : List PendingKey := (s.pending :: s.enclosing).reduceOption

/-- Drop the pending key here; a required one must not be dropped. -/
def dropPending (s : Layout) : Step :=
  if s.pending.any (·.required) then .error .malformed else .ok { s with pending := none }

def dropStale (s : Layout) : Step :=
  if (s.pendingKeys.filter s.isStale).any (·.required) then .error .malformed
  else
    .ok { s with
      pending := s.pending.filter (!s.isStale ·)
      enclosing := s.enclosing.map (Option.filter (!s.isStale ·)) }

/-- Remember that the token that comes next may be a key. -/
def expectKey (s : Layout) : Step :=
  if s.keyAllowed then do
    let s ← s.dropPending
    let required := !s.inFlow && s.indents.head? == some s.column
    return { s with pending := some ⟨s.tokens.length, required, s.index, s.line, s.column⟩ }
  else .ok s

/-! ## Between tokens -/

/-- What is left behind blanks, comments and line breaks, and whether a line break was among
them. -/
def skipBlank (inComment : Bool) : List Char → Bool × List Char
  | [] => (false, [])
  | c :: rest =>
    if isBreak c then (true, (skipBlank false rest).2)
    else if inComment || c = ' ' then skipBlank inComment rest
    else if c = '#' then skipBlank true rest
    else (false, c :: rest)

/-- Go to the next token. A new line allows a key and closes collections that are indented more. -/
def toNextToken (s : Layout) : Step := do
  let (newLine, rest) := skipBlank false s.rest
  let s := s.moveTo rest
  let s ← { s with keyAllowed := s.keyAllowed || (newLine && !s.inFlow) }.dropStale
  return s.closeBehind (s.column < ·)

/-! ## Single tokens -/

/-- Emit a token that ends where `rest` starts; no key may follow it on its line. -/
def emitTo (s : Layout) (token : Token) (rest : List Char) : Layout :=
  { (s.moveTo rest).emit token with keyAllowed := false }

/-- Emit a scalar. Whether its last line is a document marker is told from the first three
characters of that line. -/
def emitScalar (s : Layout) (plain : Bool) (text rest : List Char) : Step :=
  let next := s.emitTo (.scalar plain text) rest
  if next.line = s.line ∨ (rest.take (3 - next.column)).all isPrintable then .ok next
  else .error .malformed

theorem emitScalar_of_printable {s : Layout} {rest : List Char} (h : rest.all isPrintable)
    (plain : Bool) (text : List Char) :
    s.emitScalar plain text rest = .ok (s.emitTo (.scalar plain text) rest) := by
  simp [emitScalar, all_take_of_printable h]

def anchorName? (s : List Char) : Option (String × List Char) :=
  let name := s.takeWhile isNameChar
  let rest := s.dropWhile isNameChar
  if name ≠ [] ∧ (atWordEnd rest ∨ rest.head?.any ("?:,]\x7d%@\x60".toList.contains ·)) then
    some (String.ofList name, rest)
  else none

/-- Whether a plain scalar starts with a character, given what follows it. -/
def startsPlain (inFlow : Bool) (c : Char) (rest : List Char) : Bool :=
  let indicators := "-?:,[]\x7b\x7d#&*!|>\x27\"%@\x60".toList
  (!isSpaceOrTab c && !isBreak c && !indicators.contains c)
    || (!atWordEnd rest && (c = '-' || (!inFlow && (c = '?' || c = ':'))))

/-- A flow collection starts, and may be a key as a whole. -/
def openFlow (s : Layout) (token : Token) : Step := do
  let s ← s.expectKey
  let s := { s with enclosing := s.pending :: s.enclosing, pending := none, keyAllowed := true }
  return (s.advance 1).emit token

def closeFlow (s : Layout) (token : Token) : Step := do
  let s ← s.dropPending
  match s.enclosing with
  | [] => .error .malformed
  | pending :: enclosing =>
    let s := { s with pending, enclosing, keyAllowed := false }
    return (s.advance 1).emit token

def comma (s : Layout) : Step := do
  if !s.inFlow then throw .malformed
  let s ← s.dropPending
  return { (s.advance 1).emit .comma with keyAllowed := true }

/-- A dash opens a sequence unless it stands in a flow collection, where it has no meaning. -/
def dash (s : Layout) : Step := do
  if !s.inFlow && !s.keyAllowed then throw .malformed
  let s ← (s.openBlock .blockSequenceStart).dropPending
  return { (s.advance 1).emit .dash with keyAllowed := true }

def key (s : Layout) : Step := do
  if !s.inFlow && !s.keyAllowed then throw .malformed
  let s ← (s.openBlock .blockMappingStart).dropPending
  return { (s.advance 1).emit .key with keyAllowed := !s.inFlow }

/-- A pending key is one: its token goes in front of it, and so does the start of a mapping unless
one is open at its column. -/
def confirmKey (s : Layout) (k : PendingKey) : Layout :=
  let opens := s.opensAt k.column
  let after := s.tokens.take (s.tokens.length - k.position)
  let before := s.tokens.drop (s.tokens.length - k.position)
  { s with
    pending := none
    indents := if opens then k.column :: s.indents else s.indents
    tokens := after ++ .key :: (if opens then [.blockMappingStart] else []) ++ before }

def value (s : Layout) : Step :=
  match s.pending with
  | some k => .ok { ((s.confirmKey k).advance 1).emit .value with keyAllowed := false }
  | none =>
    if !s.inFlow && !s.keyAllowed then .error .malformed
    else
      let s := s.openBlock .blockMappingStart
      .ok { (s.advance 1).emit .value with keyAllowed := !s.inFlow }

/-- Outside of collections: for directions and document marks, which leave no room for a key. -/
def outside (s : Layout) : Step := (s.closeBehind fun _ => true).dropPending

def token (s : Layout) (c : Char) (rest : List Char) : Step :=
  if s.column = 0 && c = '%' then do
    let s ← s.outside
    let (found, rest) ← directive rest
    return s.emitTo (.directive found) rest
  else if s.column = 0 && (c = '-' || c = '.') && !(s.rest.take 3).all isPrintable then
    .error .malformed
  else if s.column = 0 && atMarker s.rest then do
    let mark := if c = '-' then .documentStart else .documentEnd
    return (← s.outside).emitTo mark (s.rest.drop 3)
  else if c = '[' then s.openFlow .flowSequenceStart
  else if c = '\x7b' then s.openFlow .flowMappingStart
  else if c = ']' then s.closeFlow .flowSequenceEnd
  else if c = '\x7d' then s.closeFlow .flowMappingEnd
  else if c = ',' then s.comma
  else if c = '-' && atWordEnd rest then s.dash
  else if c = '?' && (s.inFlow || atWordEnd rest) then s.key
  else if c = ':' && (s.inFlow || atWordEnd rest) then s.value
  else if c = '*' then do
    let s ← s.expectKey
    let (name, rest) ← orMalformed (anchorName? rest)
    return s.emitTo (.alias name) rest
  else if c = '&' then do
    let s ← s.expectKey
    let (name, rest) ← orMalformed (anchorName? rest)
    return s.emitTo (.anchor name) rest
  else if c = '!' then do
    let s ← s.expectKey
    let (tag, rest) ← orMalformed (tag? rest)
    return s.emitTo (.tag tag) rest
  else if (c = '|' || c = '>') && !s.inFlow then do
    let s ← s.dropPending
    let (text, rest) ← orMalformed (blockText? (c = '>') s.least rest)
    return { s.emitTo (.scalar false text) rest with keyAllowed := true }
  else if c = '\'' || c = '"' then do
    let s ← s.expectKey
    let (text, rest) ← quotedText (c = '"') rest
    s.emitScalar false text rest
  else if startsPlain s.inFlow c rest then do
    let s ← s.expectKey
    let plain := plainText s.inFlow s.least s.rest
    return { ← s.emitScalar true plain.text plain.rest with keyAllowed := plain.endsLine }
  else .error .malformed

/-! ## All tokens -/

/-- Take a step if it reads printable characters only: those that it passes and the one behind
them. -/
def checked (s : Layout) (step : Step) : Step := do
  let next ← step
  if !(s.rest.take (next.index - s.index + 1)).all isPrintable then throw .malformed
  return next

theorem checked_of_printable {s : Layout} (h : s.rest.all isPrintable) (step : Step) :
    s.checked step = step := by
  cases step with
  | error flaw => rfl
  | ok next => simp [checked, all_take_of_printable h]

/-- How many tokens are settled: those before every pending key, because a key might go in front of
the others. -/
def settled (s : Layout) : Nat :=
  (s.pendingKeys.map (·.position)).foldl min s.tokens.length

/-- The settled tokens, if no further token can be made out. -/
def brokenBy (s : Layout) (flaw : Flaw) : List Token :=
  s.tokens.reverse.take s.settled ++ [.broken flaw]

def finish (s : Layout) : Step := (s.closeBehind fun _ => true).dropPending

def tokensFrom : Nat → Layout → List Token
  | 0, s => s.brokenBy .malformed
  | fuel + 1, s =>
    match s.checked s.toNextToken with
    | .error flaw => s.brokenBy flaw
    | .ok next =>
      match next.rest with
      | [] =>
        match next.finish with
        | .error flaw => s.brokenBy flaw
        | .ok last => last.tokens.reverse
      | c :: rest =>
        match next.checked (do (← next.token c rest).dropStale) with
        | .error flaw => s.brokenBy flaw
        | .ok next => tokensFrom fuel next

end Layout

/-- The tokens of a text. They end in `Token.broken` where some characters form none. -/
def tokensOf (text : List Char) : List Token :=
  let text := readable text
  let mark := if text.head? = some '\ufeff' then 1 else 0
  ({ rest := text.drop mark, index := mark } : Layout).tokensFrom (text.length + 1)

end DesignMetrics.Yaml
