/-!
# Stages

The stages of a run. Six of them read the model alone and may share a pool of workers; the summary
needs the records of others and comes last.
-/

namespace DesignMetrics

/-- A stage that reads the model alone. -/
inductive PooledStage where
  | methods
  | types
  | namespaces
  | namespaceCoupling
  | typeCoupling
  | dependencies
deriving DecidableEq, Repr

inductive Stage where
  | pooled (stage : PooledStage)
  | summary
deriving DecidableEq, Repr

namespace PooledStage

def name : PooledStage → String
  | methods => "methods"
  | types => "types"
  | namespaces => "namespaces"
  | namespaceCoupling => "namespace_coupling"
  | typeCoupling => "type_coupling"
  | dependencies => "dependencies"

/-- The stages that read single entities. They do not depend on each other. -/
def entityGroup : List PooledStage := [methods, types, namespaces]

/-- The stages that build graphs. They do not depend on each other. -/
def graphGroup : List PooledStage := [namespaceCoupling, typeCoupling, dependencies]

end PooledStage

namespace Stage

def name : Stage → String
  | pooled stage => stage.name
  | summary => "summary"

/-- All stages in the order in which their faults count. -/
def pipeline : List Stage :=
  (PooledStage.entityGroup ++ PooledStage.graphGroup).map pooled ++ [summary]

def named? (text : String) : Option Stage := pipeline.find? (·.name == text)

end Stage

end DesignMetrics
