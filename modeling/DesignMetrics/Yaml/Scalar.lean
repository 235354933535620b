import DesignMetrics.Datum
import DesignMetrics.Text.Base64
import DesignMetrics.Yaml.Number

/-!
# What scalars stand for

The kind of a scalar says how its text is read. Only numbers, truth values, timestamps and binary
data have texts that stand for nothing; those are flaws of the document.
-/

namespace DesignMetrics.Yaml

namespace Kind

def trueTexts : List String := ["yes", "true", "on"]

def falseTexts : List String := ["no", "false", "off"]

def truthOf (s : List Char) : Except Defect Bool :=
  let text := String.ofList (s.map Char.toLower)
  if trueTexts.contains text then .ok true
  else if falseTexts.contains text then .ok false
  else .error .noTruthValue

def timestampOf (s : List Char) : Except Defect Timestamp :=
  match TimestampText.read? (withoutFinalBreak s) with
  | some t => if t.isPossible then .ok t else .error .impossibleTimestamp
  | none => .error .noTimestamp

/-- What the text of a scalar stands for. Only null, truth values, numbers, texts, binary data and
timestamps are scalars. -/
def datum (kind : Kind) (s : List Char) : Except Flaw Datum :=
  match kind with
  | .null => .ok .null
  | .truth => ((truthOf s).map Datum.truth).mapError .defective
  | .integer => ((Number.integer s).map Datum.integer).mapError .defective
  | .real => ((Number.real s).map Datum.real).mapError .defective
  | .timestamp => ((timestampOf s).map Datum.timestamp).mapError .defective
  | .text => .ok (.text (String.ofList s))
  | .binary =>
    if s.all fun c => c.toNat < 128 then
      orMalformed ((Text.Base64.decode? s).map Datum.binary)
    else .error .malformed
  | _ => .error .malformed

end Kind

end DesignMetrics.Yaml
