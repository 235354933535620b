import DesignMetrics.Metrics.Coupling
import DesignMetrics.Proofs.Digraph.Arcs

/-!
# The graph of the reported dependencies

The type graph is built from the dependency lists of the types. It has an edge where some type of
one declared name lists another declared name, whatever else the lists hold.
-/

namespace DesignMetrics

theorem TypeDecl.mem_targets {t : TypeDecl} {name : String} :
    name ∈ t.targets ↔ some name ∈ t.dependsOn := by
  simp [TypeDecl.targets]

namespace CodeModel

/-- What the types of a name list, as attempts to add edges. -/
def attempts (m : CodeModel) : List (String × String) :=
  m.codebase.types.flatMap fun t => t.targets.map (t.fullName, ·)

theorem typeGraph_eq (m : CodeModel) :
    m.typeGraph = (Digraph.ofNodes (m.codebase.types.map (·.fullName))).addAll m.attempts :=
  Digraph.foldl_addEdges TypeDecl.fullName TypeDecl.targets _ m.codebase.types

theorem nodes_typeGraph (m : CodeModel) : m.typeGraph.nodes = m.codebase.typeNames := by
  rw [typeGraph_eq, Digraph.nodes_addAll, Digraph.nodes_ofNodes]
  rfl

theorem mem_attempts {m : CodeModel} {source target : String} :
    (source, target) ∈ m.attempts ↔
      ∃ t ∈ m.codebase.types, t.fullName = source ∧ some target ∈ t.dependsOn := by
  simp only [attempts, List.mem_flatMap, List.mem_map, TypeDecl.mem_targets, Prod.mk.injEq]
  constructor
  · rintro ⟨t, ht, name, hname, hsource, rfl⟩
    exact ⟨t, ht, hsource, hname⟩
  · rintro ⟨t, ht, hsource, htarget⟩
    exact ⟨t, ht, target, htarget, hsource, rfl⟩

/-- The edges of the type graph are the listed pairs of two different declared names. -/
theorem mem_arcs_typeGraph {m : CodeModel} {source target : String} :
    (source, target) ∈ m.typeGraph.arcs ↔
      (source ≠ target ∧ source ∈ m.codebase.typeNames ∧ target ∈ m.codebase.typeNames) ∧
        ∃ t ∈ m.codebase.types, t.fullName = source ∧ some target ∈ t.dependsOn := by
  rw [typeGraph_eq, Digraph.mem_arcs_addAll, mem_attempts, Codebase.typeNames,
    mem_firstOccurrences, mem_firstOccurrences]

end CodeModel

end DesignMetrics
