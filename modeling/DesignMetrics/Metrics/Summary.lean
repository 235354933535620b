import DesignMetrics.Metrics.Record
import DesignMetrics.Model.Basic
import DesignMetrics.Statistics

/-!
# Summary

Totals over a whole model and the distribution of lines, methods and complexity over its types. The
summary is made from finished records; of the model it reads the namespace names alone.
-/

namespace DesignMetrics

def Distribution.ofCounts (counts : List Int) : Except Fault Distribution := do
  let numbers ← Statistics.sample (some (counts.map .integer))
  return {
    total := counts.foldr (· + ·) 0
    average := ← Statistics.mean numbers
    median := Statistics.median numbers
    deviation := ← Statistics.populationDeviation numbers }

/-- The mean number of types to a namespace; zero without namespaces. -/
def meanTypesPerNamespace (types namespaces : Nat) : Except Fault Binary64 :=
  if h : 0 < namespaces then
    Statistics.inRange (.ofRatio types namespaces (Int.natCast_pos.2 h))
  else .ok .zero

/-- The summary of a model with the given records. The number of method records is the number of
methods; when there are none, the sum over the types stands in for it. -/
def CodeModel.summary (m : CodeModel) (types : List TypeMetrics) (methods : List MethodMetrics) :
    Except Fault Summary := do
  let meanTypes ← meanTypesPerNamespace types.length m.codebase.namespaceNames.length
  let sloc ← Distribution.ofCounts (types.map (·.sloc))
  let perType ← Distribution.ofCounts (types.map (·.nom))
  let complexity ← Distribution.ofCounts (types.map (·.wmc))
  return {
    totalNamespaces := m.codebase.namespaceNames.length
    totalTypes := types.length
    meanTypesPerNamespace := meanTypes
    sloc
    methods := { perType with total := if methods.isEmpty then perType.total else methods.length }
    complexity }

end DesignMetrics
