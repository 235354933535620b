import DesignMetrics.Metrics.Dependencies
import DesignMetrics.Proofs.Digraph.KeptEdge

/-!
# The dependency cycles of a model

The reported cycles are the declared names that reach another one and are reached by it along edges
between different declared names. Nothing else in the edge maps has a part in them.
-/

namespace DesignMetrics.CodeModel

def TypeEdge (m : CodeModel) : String → String → Prop :=
  m.graph.typeEdges.Keeps m.codebase.typeNames

def NamespaceEdge (m : CodeModel) : String → String → Prop :=
  m.graph.namespaceEdges.Keeps m.codebase.namespaceNames

theorem nodes_declaredTypeGraph (m : CodeModel) :
    m.declaredTypeGraph.nodes = m.codebase.typeNames := by
  rw [declaredTypeGraph, Digraph.nodes_ofAdjacency, Codebase.typeNames,
    firstOccurrences_of_nodup (nodup_firstOccurrences _)]

theorem nodes_declaredNamespaceGraph (m : CodeModel) :
    m.declaredNamespaceGraph.nodes = m.codebase.namespaceNames := by
  rw [declaredNamespaceGraph, Digraph.nodes_ofAdjacency, Codebase.namespaceNames,
    firstOccurrences_of_nodup (nodup_firstOccurrences _)]

theorem areCycles_types (m : CodeModel) :
    AreCycles m.codebase.typeNames m.TypeEdge m.declaredTypeGraph.cycles := by
  have h := m.declaredTypeGraph.areCycles_cycles
  rwa [nodes_declaredTypeGraph, declaredTypeGraph, Digraph.edge_ofAdjacency] at h

theorem areCycles_namespaces (m : CodeModel) :
    AreCycles m.codebase.namespaceNames m.NamespaceEdge m.declaredNamespaceGraph.cycles := by
  have h := m.declaredNamespaceGraph.areCycles_cycles
  rwa [nodes_declaredNamespaceGraph, declaredNamespaceGraph, Digraph.edge_ofAdjacency] at h

def cycles (m : CodeModel) : List DependencyCycle :=
  m.declaredTypeGraph.cycles.map (⟨·, .type⟩) ++
    m.declaredNamespaceGraph.cycles.map (⟨·, .namespace⟩)

theorem cycles?_eq_some (m : CodeModel) : m.cycles? = some m.cycles := by
  simp [cycles?, cycles, Digraph.cycles?_eq_some]

theorem outcome_dependencyMetrics (m : CodeModel) :
    m.dependencyMetrics.outcome = .ok {
      totalDependencies := m.totalDependencies
      internalDependencies := m.internalDependencies
      cycles := m.cycles } := by
  simp only [dependencyMetrics, cycles?_eq_some]
  split <;> rfl

theorem cycles_congr {m m' : CodeModel} (htypes : m.codebase.typeNames = m'.codebase.typeNames)
    (hnamespaces : m.codebase.namespaceNames = m'.codebase.namespaceNames)
    (htypeEdge : m.TypeEdge = m'.TypeEdge) (hnamespaceEdge : m.NamespaceEdge = m'.NamespaceEdge) :
    m.cycles = m'.cycles := by
  simp only [TypeEdge, NamespaceEdge, ← htypes, ← hnamespaces] at htypeEdge hnamespaceEdge
  simp only [cycles, declaredTypeGraph, declaredNamespaceGraph, ← htypes, ← hnamespaces,
    Digraph.cycles_ofAdjacency_congr htypeEdge, Digraph.cycles_ofAdjacency_congr hnamespaceEdge]

/-- The cycles of a model are reported, and they are its names that reach each other along edges
between different declared names, the types before the namespaces. Other edges have no part in
them. -/
theorem dependencyMetrics_cycles (m : CodeModel) :
    ∃ (d : DependencyMetrics) (types namespaces : List (List String)),
      m.dependencyMetrics.outcome = .ok d ∧
      d.cycles = types.map (⟨·, .type⟩) ++ namespaces.map (⟨·, .namespace⟩) ∧
      AreCycles m.codebase.typeNames m.TypeEdge types ∧
      AreCycles m.codebase.namespaceNames m.NamespaceEdge namespaces ∧
      (d.cycles = [] ↔ Acyclic m.TypeEdge ∧ Acyclic m.NamespaceEdge) ∧
      ∀ m' : CodeModel, m'.codebase = m.codebase → m'.TypeEdge = m.TypeEdge →
        m'.NamespaceEdge = m.NamespaceEdge →
        m'.dependencyMetrics.outcome.map (·.cycles) = .ok d.cycles := by
  refine ⟨_, m.declaredTypeGraph.cycles, m.declaredNamespaceGraph.cycles,
    m.outcome_dependencyMetrics, rfl, m.areCycles_types, m.areCycles_namespaces, ?_, ?_⟩
  · rw [← m.areCycles_types.eq_nil_iff (EdgeMap.not_keeps_self _ _),
      ← m.areCycles_namespaces.eq_nil_iff (EdgeMap.not_keeps_self _ _)]
    simp [cycles]
  · intro m' hcodebase htypeEdge hnamespaceEdge
    rw [m'.outcome_dependencyMetrics]
    show Except.ok m'.cycles = Except.ok m.cycles
    rw [cycles_congr (by rw [hcodebase]) (by rw [hcodebase]) htypeEdge hnamespaceEdge]

end DesignMetrics.CodeModel
