import DesignMetrics.Engine.Pool
import DesignMetrics.Engine.Settings

/-!
# Runs of the engine

A run computes all records of a model, on a pool when the settings say so.
-/

namespace DesignMetrics

/-- Compute the report of a model. The schedule says what the workers of a pool do; without one they
do what is waited for. -/
def Calculators.run (c : Calculators) (settings : EngineSettings) (model : Option CodeModel)
    (schedule : List PoolAction) : Recorded MetricsReport := do
  let model ← require model "model"
  let typeCount := model.codebase.types.length
  if settings.usePool typeCount then
    Recorded.report (.poolUsed typeCount settings.maxWorkers)
    c.runPooled model settings.maxWorkers.toNat schedule
  else c.runSequential model

end DesignMetrics
