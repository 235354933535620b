import DesignMetrics.Yaml.Content

/-!
# Documents as plain data

`read` gives the datum that the one document of a text stands for. Keys of a mapping are scalars,
and a repeated key takes the last value.
-/

namespace DesignMetrics.Yaml

/-- What a graph of nodes stands for. -/
def Graph.datum (graph : Graph) : Except Flaw Datum :=
  (Survey.ofGraph graph).map (·.rootDatum graph.root)

/-- The datum of the one document of a text; a text without a document stands for null. -/
def read (text : String) : Except Flaw Datum := do
  match ← Assembly.document (tokensOf (withPlainBreaks text.toList)) with
  | some graph => graph.datum
  | none => return .null

end DesignMetrics.Yaml
