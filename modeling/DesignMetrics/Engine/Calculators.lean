import DesignMetrics.Metrics.Request

/-!
# Calculators

What each stage of a run computes. The standard calculators are the figures of this library; any
stage may be replaced by one that fails.
-/

namespace DesignMetrics

structure Calculators where
  methods : CodeModel → Recorded (List MethodMetrics)
  types : CodeModel → Recorded (List TypeMetrics)
  namespaces : CodeModel → Recorded (List NamespaceMetrics)
  namespaceCoupling : CodeModel → Recorded (List NamespaceCoupling)
  typeCoupling : CodeModel → Recorded (List TypeCoupling)
  dependencies : CodeModel → Recorded DependencyMetrics
  summary : CodeModel → List TypeMetrics → List MethodMetrics → Recorded Summary

structure Outputs where
  methods : List MethodMetrics := []
  types : List TypeMetrics := []
  namespaces : List NamespaceMetrics := []
  namespaceCoupling : List NamespaceCoupling := []
  typeCoupling : List TypeCoupling := []
  dependencies : DependencyMetrics := {}

inductive Delivery where
  | methods (records : List MethodMetrics)
  | types (records : List TypeMetrics)
  | namespaces (records : List NamespaceMetrics)
  | namespaceCoupling (records : List NamespaceCoupling)
  | typeCoupling (records : List TypeCoupling)
  | dependencies (record : DependencyMetrics)

def Outputs.store (o : Outputs) : Delivery → Outputs
  | .methods records => { o with methods := records }
  | .types records => { o with types := records }
  | .namespaces records => { o with namespaces := records }
  | .namespaceCoupling records => { o with namespaceCoupling := records }
  | .typeCoupling records => { o with typeCoupling := records }
  | .dependencies record => { o with dependencies := record }

namespace Calculators

def standard : Calculators where
  methods m := pure m.methodMetrics
  types m := m.typeMetrics
  namespaces m := pure m.namespaceMetrics
  namespaceCoupling m := m.namespaceCoupling
  typeCoupling m := pure m.typeCoupling
  dependencies m := m.dependencyMetrics
  summary m types methods := Recorded.ofExcept (m.summary types methods)

/-- A stage that fails, if it is among the failing ones, and otherwise what it was. -/
def orFail {α : Type} (failing : List Stage) (stage : Stage) (result : Recorded α) : Recorded α :=
  if stage ∈ failing then Recorded.ofExcept (.error (.stageFailed stage)) else result

/-- The calculators with some stages made to fail. -/
def withFailing (c : Calculators) (failing : List Stage) : Calculators where
  methods m := orFail failing (.pooled .methods) (c.methods m)
  types m := orFail failing (.pooled .types) (c.types m)
  namespaces m := orFail failing (.pooled .namespaces) (c.namespaces m)
  namespaceCoupling m := orFail failing (.pooled .namespaceCoupling) (c.namespaceCoupling m)
  typeCoupling m := orFail failing (.pooled .typeCoupling) (c.typeCoupling m)
  dependencies m := orFail failing (.pooled .dependencies) (c.dependencies m)
  summary m types methods := orFail failing .summary (c.summary m types methods)

def deliver (c : Calculators) (m : CodeModel) : PooledStage → Recorded Delivery
  | .methods => .methods <$> c.methods m
  | .types => .types <$> c.types m
  | .namespaces => .namespaces <$> c.namespaces m
  | .namespaceCoupling => .namespaceCoupling <$> c.namespaceCoupling m
  | .typeCoupling => .typeCoupling <$> c.typeCoupling m
  | .dependencies => .dependencies <$> c.dependencies m

/-- The end of a run: the summary, and the report made of all records. -/
def conclude (c : Calculators) (m : CodeModel) (o : Outputs) : Recorded MetricsReport := do
  let summary ← c.summary m o.types o.methods
  Recorded.report (.computed summary.totalTypes summary.methods.total o.dependencies.cycles.length)
  return {
    summary
    namespaces := o.namespaces
    types := o.types
    methods := o.methods
    namespaceCoupling := o.namespaceCoupling
    typeCoupling := o.typeCoupling
    dependencies := o.dependencies }

/-! ## One stage after the other -/

def runStages (c : Calculators) (m : CodeModel) (stages : List PooledStage) (o : Outputs) :
    Recorded Outputs :=
  stages.foldlM (fun o stage => do
    let delivery ← c.deliver m stage
    Recorded.report (.stageDone stage)
    return o.store delivery) o

def runSequential (c : Calculators) (m : CodeModel) : Recorded MetricsReport := do
  let o ← c.runStages m PooledStage.entityGroup {}
  let o ← c.runStages m PooledStage.graphGroup o
  c.conclude m o

end Calculators

end DesignMetrics
