import DesignMetrics.Recorded
import DesignMetrics.Model.Basic

/-!
# Merging models

Several models of parts of a code base become one: the modules follow each other, and the edge maps
are united source by source. No type may be declared twice. One model alone is its own merge, and
nothing is checked.
-/

namespace DesignMetrics

/-- The first name of a list that stands in it before or is one of the names seen already. -/
def firstRepeat? (seen : List String) : List String → Option String
  | [] => none
  | name :: rest => if name ∈ seen then some name else firstRepeat? (name :: seen) rest

namespace CodeModel

def typeFullNames (m : CodeModel) : List String := m.codebase.types.map (·.fullName)

def concat (models : List CodeModel) : CodeModel where
  codebase := { modules := models.flatMap (·.codebase.modules) }
  graph :=
    { typeEdges := models.foldl (fun edges m => edges.union m.graph.typeEdges) ∅
      namespaceEdges := models.foldl (fun edges m => edges.union m.graph.namespaceEdges) ∅ }

def mergeAll : List CodeModel → Recorded CodeModel
  | [] => pure .empty
  | [model] => pure model
  | models => do
    if let some name := firstRepeat? [] (models.flatMap typeFullNames) then
      Recorded.ofExcept (.error (.duplicateType name))
    let merged := concat models
    Recorded.report (.merged models.length merged.codebase.modules.length
      merged.codebase.types.length)
    return merged

/-- Require the models of a list, numbered from `index`. -/
def requireEach (index : Nat) : List (Option CodeModel) → Except Fault (List CodeModel)
  | [] => .ok []
  | model :: rest => do
    let model ← require model ("models[" ++ toString index ++ "]")
    return model :: (← requireEach (index + 1) rest)

def merge (models : Option (List (Option CodeModel))) : Recorded CodeModel := do
  let models ← require models "models"
  let models ← requireEach 0 models
  mergeAll models

/-- Whether the merge of a list is its first model itself and not a new one. -/
def isOwnMerge (models : List (Option CodeModel)) : Bool := models.length == 1

end CodeModel

end DesignMetrics
