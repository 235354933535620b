/-!
# Flaws of a document

A document is flawed when its text does not have the form of one, and also when a part of it has the
right form but no value.
-/

namespace DesignMetrics.Yaml

/-- Why a part of a document has no value. -/
inductive Defect where
  | noNumber
  | emptyNumber
  /-- A number has more decimal digits than can be read. -/
  | longNumber
  /-- A number of base 60 has more digits than there are powers of 60 in range. -/
  | outOfRange
  | noTruthValue
  | noTimestamp
  /-- A timestamp names a day or a time that does not exist. -/
  | impossibleTimestamp
  | timestampMapping
  /-- An escape gives a code beyond the last character. -/
  | noCharacter
  /-- An escape gives a code of more than 31 bits. -/
  | longCode
  /-- Collections are nested too deeply, or the parts of a value have no end. -/
  | tooDeep
deriving DecidableEq, Repr

inductive Flaw where
  | malformed
  | defective (defect : Defect)
deriving DecidableEq, Repr

end DesignMetrics.Yaml
