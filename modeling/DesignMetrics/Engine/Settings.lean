import DesignMetrics.Fault
import DesignMetrics.Names.Set

/-!
# Engine settings

How many workers a pool has and from how many types on it is used. Settings come from plain data;
unknown members are refused before values are looked at, and the workers are looked at first.
-/

namespace DesignMetrics

structure EngineSettings where
  maxWorkers : Int := 1
  parallelThreshold : Int := 500
  one_le_maxWorkers : 1 ≤ maxWorkers := by decide
  parallelThreshold_nonneg : 0 ≤ parallelThreshold := by decide
deriving DecidableEq

namespace EngineSettings

def workersKey : String := "max_workers"
def thresholdKey : String := "parallel_threshold"

instance : Inhabited EngineSettings := ⟨{}⟩

/-- What is wrong with a value that was refused. The report shows the value, so that it has to have
a written form. -/
def refusal (report : Datum → Fault) (value : Datum) : Fault :=
  if value.isWritable then report value else .unwritableNumber

/-- The settings with the given values, if both are integers in range. -/
def ofValues (workers threshold : Datum) : Except Fault EngineSettings :=
  match workers with
  | .integer w =>
    if hw : 1 ≤ w then
      match threshold with
      | .integer t =>
        if ht : 0 ≤ t then .ok ⟨w, t, hw, ht⟩
        else .error (refusal .invalidThreshold threshold)
      | _ => .error (refusal .invalidThreshold threshold)
    else .error (refusal .invalidWorkers workers)
  | _ => .error (refusal .invalidWorkers workers)

/-- The value under a text key; of several, the last. -/
def value? (entries : List (Datum × Datum)) (key : String) : Option Datum :=
  (entries.reverse.find? fun entry => entry.1.sameKey (.text key)).map (·.2)

/-- Settings from members of a mapping, with defaults for those that are missing. -/
def ofMembers (entries : List (Datum × Datum)) : Except Fault EngineSettings :=
  ofValues ((value? entries workersKey).getD (.integer ({} : EngineSettings).maxWorkers))
    ((value? entries thresholdKey).getD (.integer ({} : EngineSettings).parallelThreshold))

def isKnownKey (key : Datum) : Bool :=
  key.sameKey (.text workersKey) || key.sameKey (.text thresholdKey)

/-- Settings from values by name, each of which has to be that of a setting. -/
def ofNamed (entries : List (Datum × Datum)) : Except Fault EngineSettings :=
  if entries.all (isKnownKey ·.1) then ofMembers entries else .error .strayValue

/-- The texts among unknown keys, or nothing if some key is no text. -/
def keyTexts? : List Datum → Option (List String)
  | [] => some []
  | .text name :: rest => (keyTexts? rest).map (name :: ·)
  | _ :: _ => none

/-- Settings from a mapping that must not hold anything else. -/
def ofMapping (entries : List (Datum × Datum)) : Except Fault EngineSettings :=
  match (entries.map (·.1)).filter (!isKnownKey ·) with
  | [] => ofMembers entries
  | unknown =>
    match keyTexts? unknown with
    | some names => .error (.unknownSettings (NameSet.ofList names).names)
    | none => .error .unnamedSetting

/-- Settings from a document that is a mapping or stands for nothing. -/
def ofDocument (path : String) (document : Datum) : Except Fault EngineSettings :=
  if document.isVacant then ofMapping []
  else
    match document with
    | .mapping entries => ofMapping entries
    | _ => .error (.settingsNotMapping path)

def toEntries (s : EngineSettings) : List (Datum × Datum) :=
  [(.text workersKey, .integer s.maxWorkers), (.text thresholdKey, .integer s.parallelThreshold)]

def toDatum (s : EngineSettings) : Datum := .mapping s.toEntries

/-- Whether a model with so many types is worth a pool. -/
def usePool (s : EngineSettings) (typeCount : Int) : Bool :=
  decide (1 < s.maxWorkers) && decide (s.parallelThreshold ≤ typeCount)

end EngineSettings

end DesignMetrics
