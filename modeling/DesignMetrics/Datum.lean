import DesignMetrics.Binary64.Decimal
import DesignMetrics.Text.Digits
import DesignMetrics.Text.Quoted
import DesignMetrics.Timestamp

/-!
# Plain data

What settings files hold, what faults report and what reports are made of: nulls, truth values,
integers of any size, floating-point numbers, texts, lists and mappings whose entries keep their
order; in settings files also binary data, timestamps, sets and lists of pairs. `Datum.printed` is
the written form that messages use.
-/

namespace DesignMetrics

inductive Datum where
  | null
  | truth (value : Bool)
  | integer (value : Int)
  | real (value : Binary64)
  | text (value : String)
  | binary (octets : List UInt8)
  | timestamp (value : Timestamp)
  | list (items : List Datum)
  | mapping (entries : List (Datum × Datum))
  | pairs (entries : List (Datum × Datum))
  | set (members : List Datum)
deriving Inhabited

namespace Datum

def record (members : List (String × Datum)) : Datum :=
  .mapping (members.map fun member => (.text member.1, member.2))

def texts (items : List String) : Datum := .list (items.map .text)

mutual

def printed : Datum → String
  | .null => "None"
  | .truth true => "True"
  | .truth false => "False"
  | .integer n => toString n
  | .real x => x.text
  | .text s => Text.quoted s
  | .binary octets =>
    Text.quoted (String.ofList (octets.flatMap fun octet => Text.hexDigits 2 octet.toNat))
  | .timestamp t => t.text
  | .list items => "[" ++ ", ".intercalate (printedItems items) ++ "]"
  | .mapping entries => "\x7b" ++ ", ".intercalate (printedEntries entries) ++ "\x7d"
  | .pairs entries => "[" ++ ", ".intercalate (printedPairs entries) ++ "]"
  | .set members => "\x7b" ++ ", ".intercalate (printedItems members) ++ "\x7d"

def printedItems : List Datum → List String
  | [] => []
  | item :: rest => item.printed :: printedItems rest

def printedEntries : List (Datum × Datum) → List String
  | [] => []
  | (key, value) :: rest => (key.printed ++ ": " ++ value.printed) :: printedEntries rest

def printedPairs : List (Datum × Datum) → List String
  | [] => []
  | (first, second) :: rest =>
    ("(" ++ first.printed ++ ", " ++ second.printed ++ ")") :: printedPairs rest

end

mutual

/-- Whether the written form exists: it does unless an integer has too many digits. -/
def isWritable : Datum → Bool
  | .integer n => Text.isWritable n
  | .list items => areWritable items
  | .mapping entries => areWritableEntries entries
  | .pairs entries => areWritableEntries entries
  | .set members => areWritable members
  | _ => true

def areWritable : List Datum → Bool
  | [] => true
  | item :: rest => item.isWritable && areWritable rest

def areWritableEntries : List (Datum × Datum) → Bool
  | [] => true
  | (key, value) :: rest => key.isWritable && value.isWritable && areWritableEntries rest

end

/-- The number of units that a datum counts as when keys are compared; truth values count as 1 and
0. -/
def keyUnits? : Datum → Option Int
  | .truth b => some (if b then Binary64.unitsPerOne else 0)
  | .integer n => some (n * Binary64.unitsPerOne)
  | .real x => if x.isFinite then some x.scaled else none
  | _ => none

/-- Whether two scalar keys of a mapping are one key. Numbers are compared exactly, of whatever kind
they are, and NaN is one key. -/
def sameKey : Datum → Datum → Bool
  | .null, .null => true
  | .text a, .text b => a == b
  | .binary a, .binary b => a == b
  | .timestamp a, .timestamp b => a == b
  | .real .nan, .real .nan => true
  | .real (.infinite s), .real (.infinite t) => s == t
  | a, b =>
    match a.keyUnits?, b.keyUnits? with
    | some x, some y => x == y
    | _, _ => false

/-- Whether the datum counts as nothing: null, false, zero, or empty. -/
def isVacant : Datum → Bool
  | .null => true
  | .truth b => !b
  | .integer n => n == 0
  | .real x => x.rank == 0
  | .text s => s.isEmpty
  | .binary octets => octets.isEmpty
  | .timestamp _ => false
  | .list items => items.isEmpty
  | .mapping entries => entries.isEmpty
  | .pairs entries => entries.isEmpty
  | .set members => members.isEmpty

end Datum

end DesignMetrics
