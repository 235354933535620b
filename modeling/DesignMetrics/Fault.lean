import DesignMetrics.Datum
import DesignMetrics.Stage
import DesignMetrics.Yaml.Flaw

/-!
# Faults

Everything that can go wrong, as causes. The wording of a cause is `Fault.message?`, and the data it
carries for a reader is `Fault.context`.
-/

namespace DesignMetrics

/-- The four kinds of report of this library. -/
inductive Category where
  | general
  | argument
  | configuration
  | model
deriving DecidableEq, Repr

/-- The families a report is caught under. -/
inductive Family where
  | general
  | argument
  | configuration
  | model
  | invalidValue
deriving DecidableEq, Repr

/-- Every report is general; a report on an argument is also one on an invalid value. -/
def Category.families : Category → List Family
  | general => [.general]
  | argument => [.general, .argument, .invalidValue]
  | configuration => [.general, .configuration]
  | model => [.general, .model]

inductive Fault where
  /-- A report with the caller's own text and data. -/
  | reported (category : Category) (message : String) (context : List (String × Datum))
  | absent (argument : String)
  /-- One text stands where a list of names belongs. -/
  | bareText (owner listing text : String)
  /-- One text stands where the targets of an edge source belong. -/
  | bareTargets (source text : String)
  /-- Two of the merged declarations have one full name. -/
  | duplicateType (fullName : String)
  | unknownSettings (names : List String)
  /-- A setting that is not known has a key that is not a text. -/
  | unnamedSetting
  /-- A value is given for something that is no setting. -/
  | strayValue
  | invalidWorkers (value : Datum)
  | invalidThreshold (value : Datum)
  | unreadableSettings (path : String)
  | settingsNotMapping (path : String)
  | defectiveSettings (defect : Yaml.Defect)
  | unwritableNumber
  | stageFailed (stage : Stage)
  /-- A search through a graph came to a name that is no node. -/
  | unknownNode
  | unknownName (name : String)
  /-- The sum holds both infinities. -/
  | oppositeInfinities
  | outOfRange
  | missingNumber
  | nonFiniteSpread

namespace Fault

def category? : Fault → Option Category
  | reported category _ _ => some category
  | absent _ => some .argument
  | bareText _ _ _ => some .argument
  | bareTargets _ _ => some .argument
  | duplicateType _ => some .model
  | unknownSettings _ => some .configuration
  | invalidWorkers _ => some .configuration
  | invalidThreshold _ => some .configuration
  | unreadableSettings _ => some .configuration
  | settingsNotMapping _ => some .configuration
  | _ => none

/-- The text of a fault, for the causes that have a fixed one. -/
def message? : Fault → Option String
  | reported _ message _ => some message
  | absent argument => some (argument ++ " must not be None")
  | bareText owner listing text =>
    some (owner ++ "." ++ listing ++ " must be a sequence of names, not a string: "
      ++ Text.quoted text)
  | bareTargets source text =>
    some ("Edge targets of " ++ Text.quoted source
      ++ " must be a collection of names, not a string: " ++ Text.quoted text)
  | duplicateType fullName => some ("Duplicate type full name across models: " ++ fullName)
  | unknownSettings names => some ("Unknown settings: " ++ ", ".intercalate names)
  | invalidWorkers value => some ("max_workers must be a positive integer, got " ++ value.printed)
  | invalidThreshold value =>
    some ("parallel_threshold must be a non-negative integer, got " ++ value.printed)
  | settingsNotMapping path => some ("Settings file " ++ path ++ " must contain a mapping")
  | stageFailed stage => some ("stage " ++ stage.name ++ " failed")
  | _ => none

def context : Fault → List (String × Datum)
  | reported _ _ context => context
  | absent argument => [("argument", .text argument)]
  | bareText _ listing _ => [("argument", .text listing)]
  | bareTargets source _ => [("source", .text source)]
  | duplicateType fullName => [("type", .text fullName)]
  | unknownSettings names => [("unknown", .texts names)]
  | invalidWorkers value => [("max_workers", value)]
  | invalidThreshold value => [("parallel_threshold", value)]
  | unreadableSettings path => [("path", .text path)]
  | settingsNotMapping path => [("path", .text path)]
  | _ => []

end Fault

def require {α : Type} (value : Option α) (argument : String) : Except Fault α :=
  match value with
  | some a => .ok a
  | none => .error (.absent argument)

end DesignMetrics
