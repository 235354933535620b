/-!
# Binary data as text

Every four characters stand for three octets. Characters outside the alphabet are passed over, and
the data end where padding completes a group.
-/

namespace DesignMetrics.Text.Base64

def sextet? (c : Char) : Option Nat :=
  if 'A' ≤ c ∧ c ≤ 'Z' then some (c.toNat - 65)
  else if 'a' ≤ c ∧ c ≤ 'z' then some (c.toNat - 71)
  else if c.isDigit then some (c.toNat + 4)
  else if c = '+' then some 62
  else if c = '/' then some 63
  else none

/-- The sextets of a text, when so many stand in the group that was begun, with so many marks of
padding behind them. A group must not be left open at the end. -/
def sextets? (begun padding : Nat) : List Char → Option (List Nat)
  | [] => if begun = 0 then some [] else none
  | c :: rest =>
    if c = '=' then
      if begun < 2 then sextets? begun padding rest
      else if 4 ≤ begun + padding + 1 then some []
      else sextets? begun (padding + 1) rest
    else
      match sextet? c with
      | some bits => (sextets? ((begun + 1) % 4) 0 rest).map (bits :: ·)
      | none => sextets? begun padding rest

/-- The octets that sextets make up; bits that fill none are dropped. -/
def octets : List Nat → List UInt8
  | a :: b :: c :: d :: rest =>
    UInt8.ofNat (a * 4 + b / 16) :: UInt8.ofNat (b % 16 * 16 + c / 4)
      :: UInt8.ofNat (c % 4 * 64 + d) :: octets rest
  | [a, b, c] => [UInt8.ofNat (a * 4 + b / 16), UInt8.ofNat (b % 16 * 16 + c / 4)]
  | [a, b] => [UInt8.ofNat (a * 4 + b / 16)]
  | _ => []

def decode? (s : List Char) : Option (List UInt8) := (sextets? 0 0 s).map octets

end DesignMetrics.Text.Base64
