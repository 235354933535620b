import DesignMetrics.Metrics.Coupling

/-!
# Dependencies of a whole model

How many dependencies there are, and the cycles among the declared types and namespaces. Only the
search for cycles looks at which names are declared.
-/

namespace DesignMetrics.CodeModel

/-- The distinct pairs of a type name and a dependency that names something. -/
def dependencyPairs (m : CodeModel) : List (String × String) :=
  firstOccurrences (m.codebase.types.flatMap fun t => t.distinctTargets.names.map (t.fullName, ·))

def totalDependencies (m : CodeModel) : Nat := m.dependencyPairs.length

/-- The number of type edges to another name that is not blank, declared or not. -/
def internalDependencies (m : CodeModel) : Nat :=
  (m.graph.typeEdges.entries.map fun entry =>
    entry.2.names.countP fun target => !Text.isBlank target && target != entry.1).foldr (· + ·) 0

/-- The graph in which type cycles are looked for. -/
def declaredTypeGraph (m : CodeModel) : Digraph :=
  .ofAdjacency m.codebase.typeNames m.graph.typeEdges.adjacency

/-- The graph in which namespace cycles are looked for. -/
def declaredNamespaceGraph (m : CodeModel) : Digraph :=
  .ofAdjacency m.codebase.namespaceNames m.graph.namespaceEdges.adjacency

/-- The cycles of the types, then those of the namespaces. -/
def cycles? (m : CodeModel) : Option (List DependencyCycle) := do
  let types ← m.declaredTypeGraph.cycles?
  let namespaces ← m.declaredNamespaceGraph.cycles?
  return types.map (⟨·, .type⟩) ++ namespaces.map (⟨·, .namespace⟩)

def dependencyMetrics (m : CodeModel) : Recorded DependencyMetrics := do
  let some cycles := m.cycles? | Recorded.ofExcept (.error .unknownNode)
  if !cycles.isEmpty then
    let largest := (cycles.map (·.nodes.length)).foldl max 0
    Recorded.report (.cyclesFound cycles.length largest)
  return {
    totalDependencies := m.totalDependencies
    internalDependencies := m.internalDependencies
    cycles }

end DesignMetrics.CodeModel
