import DesignMetrics.Metrics.Dependencies
import DesignMetrics.Metrics.Summary

/-!
# Requests

The figures for callers whose arguments may be missing. A missing argument is a fault that names
it, and arguments are looked at from left to right.
-/

namespace DesignMetrics.Request

def ofModel {α : Type} (figures : CodeModel → Recorded α) (model : Option CodeModel) :
    Recorded α := do
  let model ← require model "model"
  figures model

def ofMethod (method : Option Method) : Except Fault MethodMetrics := do
  let method ← require method "method"
  return method.metrics

/-- Figures of one type, with its coupling inside a model it need not belong to. -/
def ofType (type : Option TypeDecl) (model : Option CodeModel) : Recorded TypeMetrics := do
  let type ← require type "type_"
  let model ← require model "model"
  return type.metrics (← model.reportedTypeGraph)

def ofNamespace (ns : Option Namespace) : Except Fault NamespaceMetrics := do
  let ns ← require ns "namespace"
  return ns.metrics

def summaryOf (model : Option CodeModel) (types : Option (List TypeMetrics))
    (methods : Option (List MethodMetrics)) : Except Fault Summary := do
  let model ← require model "model"
  let types ← require types "types"
  let methods ← require methods "methods"
  model.summary types methods

end DesignMetrics.Request
