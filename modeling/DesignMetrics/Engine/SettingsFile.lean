import DesignMetrics.Engine.Settings
import DesignMetrics.Yaml.Document

/-!
# Settings files

A settings file is a document with a mapping, or one that stands for nothing. A missing file stands
for the defaults.
-/

namespace DesignMetrics.SettingsFile

/-- The written form of settings. -/
def render (s : EngineSettings) : String :=
  EngineSettings.workersKey ++ ": " ++ toString s.maxWorkers ++ "\n"
    ++ EngineSettings.thresholdKey ++ ": " ++ toString s.parallelThreshold ++ "\n"

/-- The text of a file with settings; their numbers have to have a written form. -/
def save (s : EngineSettings) : Except Fault String :=
  if Text.isWritable s.maxWorkers && Text.isWritable s.parallelThreshold then .ok (render s)
  else .error .unwritableNumber

/-- What a flaw of a document is for the file that holds it. -/
def faultOf (path : String) : Yaml.Flaw → Fault
  | .malformed => .unreadableSettings path
  | .defective defect => .defectiveSettings defect

/-- Settings from the text of a file, or the defaults when there is no file. -/
def load (path : String) (text : Option String) : Except Fault EngineSettings :=
  match text with
  | none => .ok default
  | some text =>
    match Yaml.read text with
    | .ok document => EngineSettings.ofDocument path document
    | .error flaw => .error (faultOf path flaw)

end DesignMetrics.SettingsFile
