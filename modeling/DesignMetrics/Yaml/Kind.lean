import DesignMetrics.Yaml.Tag
import DesignMetrics.Yaml.TimestampText

/-!
# Kinds of nodes

The kind of a node says what it stands for. It is declared by a tag, or follows from the form of the
node: a plain scalar has the kind that its text looks like. Underscores may stand between the digits
of numbers, a leading zero makes an integer octal, and numbers with colons have base 60.
-/

namespace DesignMetrics.Yaml

inductive Kind where
  | null
  | truth
  | integer
  | real
  | text
  | binary
  | timestamp
  | sequence
  | mapping
  | set
  /-- A sequence of mappings with one entry each, ordered or not. -/
  | pairs
  /-- The key of mappings whose entries are merged into the one around it. -/
  | merge
  /-- The key of the value that a mapping has as a scalar. -/
  | default
  | unknown
deriving DecidableEq, Repr

namespace Kind

def names : List (String × Kind) :=
  [("null", .null), ("bool", .truth), ("int", .integer), ("float", .real), ("str", .text),
    ("binary", .binary), ("timestamp", .timestamp), ("seq", .sequence), ("map", .mapping),
    ("set", .set), ("omap", .pairs), ("pairs", .pairs), ("merge", .merge), ("value", .default)]

def ofTag (tag : String) : Kind :=
  ((names.find? fun entry => tag = Tag.coreStart ++ entry.1).map (·.2)).getD .unknown

def isCollection : Kind → Bool
  | sequence => true
  | mapping => true
  | set => true
  | pairs => true
  | _ => false

/-- Whether no node of the kind can be read by itself. -/
def isUnreadable : Kind → Bool
  | merge => true
  | default => true
  | unknown => true
  | _ => false

/-! ## Plain scalars -/

def nullTexts : List String := ["~", "null", "Null", "NULL"]

def truthTexts : List String :=
  ["yes", "Yes", "YES", "no", "No", "NO", "true", "True", "TRUE", "false", "False", "FALSE",
    "on", "On", "ON", "off", "Off", "OFF"]

/-- Texts that stand for marks of the format. -/
def markTexts : List String := ["!", "&", "*"]

/-- Digits of one base, with underscores, at least one character. -/
def areDigits (isDigit : Char → Bool) (s : List Char) : Bool :=
  !s.isEmpty && s.all fun c => isDigit c || c = '_'

/-- Decimal digits with underscores that start with a digit. -/
def isDecimal (s : List Char) : Bool := s.head?.any Char.isDigit && areDigits Char.isDigit s

/-- A digit of base 60 after the first one: a number below 60 in one or two decimal digits. -/
def isSexagesimalDigit : List Char → Bool
  | [c] => c.isDigit
  | [c, d] => c.isDigit && c ≤ '5' && d.isDigit
  | _ => false

def colonParts : List Char → List (List Char)
  | [] => [[]]
  | c :: rest =>
    if c = ':' then [] :: colonParts rest
    else
      match colonParts rest with
      | [] => [[c]]
      | part :: parts => (c :: part) :: parts

/-- A number of base 60, or a decimal one if there is no colon. -/
def isSexagesimal (s : List Char) : Bool :=
  match colonParts s with
  | [] => false
  | first :: others => isDecimal first && others.all isSexagesimalDigit

/-- The text of an integer without its sign. -/
def isNatural : List Char → Bool
  | '0' :: 'b' :: digits => areDigits (fun c => c = '0' || c = '1') digits
  | '0' :: 'x' :: digits => areDigits Text.isHexDigit digits
  | '0' :: digits => digits.all fun c => ('0' ≤ c && c ≤ '7') || c = '_'
  | s => isSexagesimal s

def isInteger (s : List Char) : Bool := isNatural (Text.signed s).2

/-- The exponent of a real number, which always has a sign; there may be none. -/
def isExponent : List Char → Bool
  | [] => true
  | e :: sign :: digits =>
    (e = 'e' || e = 'E') && (sign = '-' || sign = '+') && !digits.isEmpty
      && digits.all Char.isDigit
  | _ => false

/-- A real number with its point. It has a sign only in front of digits, and an exponent only if its
base is ten. -/
def isPointed (s : List Char) : Bool :=
  let whole := (Text.signed s).2.takeWhile (· != '.')
  match (Text.signed s).2.dropWhile (· != '.') with
  | [] => false
  | _ :: tail =>
    let fraction := tail.takeWhile fun c => c.isDigit || c = '_'
    let rest := tail.dropWhile fun c => c.isDigit || c = '_'
    if whole.isEmpty then s.head? = some '.' && isDecimal fraction && isExponent rest
    else isSexagesimal whole && (if whole.contains ':' then rest.isEmpty else isExponent rest)

def isReal (s : List Char) : Bool :=
  [".inf", ".Inf", ".INF"].contains (String.ofList (Text.signed s).2)
    || [".nan", ".NaN", ".NAN"].contains (String.ofList s) || isPointed s

/-- The text without a line break at its end, which has no weight for the kind. -/
def withoutFinalBreak (s : List Char) : List Char :=
  if s.getLast? = some '\n' then s.dropLast else s

/-- The kind that the text of a plain scalar looks like. -/
def ofPlain (s : List Char) : Kind :=
  let body := withoutFinalBreak s
  let text := String.ofList body
  if s.isEmpty || nullTexts.contains text then .null
  else if truthTexts.contains text then .truth
  else if isReal body then .real
  else if isInteger body then .integer
  else if TimestampText.isPlain body then .timestamp
  else if text = "<<" then .merge
  else if text = "=" then .default
  else if markTexts.contains text then .unknown
  else .text

end Kind

end DesignMetrics.Yaml
