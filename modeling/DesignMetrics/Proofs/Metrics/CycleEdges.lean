import Mathlib.Algebra.GroupWithZero.Nat
import Mathlib.Data.Finset.Card
import DesignMetrics.Proofs.Digraph.History
import DesignMetrics.Proofs.Metrics.Sections

/-!
# Edges behind the cycles

Cycles are looked for among the declared types, and internal dependencies are counted in the edge
map as it stands. Every node of a cycle has an edge that stays in the cycle, and no node is in two
cycles, so that there are at least as many edges between declared types as there are nodes in all
cycles. As long as no declared name is blank the counter takes in every one of these edges.
-/

namespace DesignMetrics

/-- The number of nodes in all cycles of types. -/
def DependencyMetrics.typeCycleNodes (d : DependencyMetrics) : Nat :=
  ((d.cycles.filter (·.scope = .type)).map (·.nodes.length)).sum

namespace CodeModel

/-- The pairs of two different declared types in the edge map. -/
def typeEdgeLinks (m : CodeModel) : Finset (String × String) :=
  m.graph.typeEdges.pairs.toFinset.filter (Joins (m.codebase.types.map (·.fullName)))

/-- How the cycles of types are borne out by the edges that are counted. -/
structure BacksCycles (m : CodeModel) (d : DependencyMetrics) : Prop where
  inward : ∀ cycle ∈ d.cycles, cycle.scope = .type → ∀ name ∈ cycle.nodes,
    ∃ next ∈ cycle.nodes, (name, next) ∈ m.typeEdgeLinks
  nodes_le_links : d.typeCycleNodes ≤ m.typeEdgeLinks.card
  links_le : m.typeEdgeLinks.card ≤ d.internalDependencies
  nodes_le : d.typeCycleNodes ≤ d.internalDependencies

variable {m : CodeModel}

theorem mem_typeEdgeLinks {source target : String} :
    (source, target) ∈ m.typeEdgeLinks ↔ m.TypeEdge source target := by
  rw [typeEdgeLinks, Finset.mem_filter, List.mem_toFinset, EdgeMap.mem_pairs, and_comm, TypeEdge,
    EdgeMap.Keeps, Codebase.typeNames, mem_firstOccurrences, mem_firstOccurrences]
  rfl

theorem mem_cycles_type {cycle : DependencyCycle} (h : cycle ∈ m.cycles)
    (hscope : cycle.scope = .type) : cycle.nodes ∈ m.declaredTypeGraph.cycles := by
  rw [cycles, List.mem_append, List.mem_map, List.mem_map] at h
  rcases h with ⟨nodes, hnodes, rfl⟩ | ⟨nodes, -, rfl⟩
  · exact hnodes
  · cases hscope

theorem typeCycleNodes_eq (total internal : Int) (m : CodeModel) :
    (DependencyMetrics.mk total internal m.cycles).typeCycleNodes =
      m.declaredTypeGraph.cycles.flatten.length := by
  have htypes : ∀ cycle ∈ m.declaredTypeGraph.cycles.map (DependencyCycle.mk · .type),
      decide (cycle.scope = .type) := by
    intro cycle hcycle
    obtain ⟨_, -, rfl⟩ := List.mem_map.1 hcycle
    rfl
  have hnamespaces :
      ∀ cycle ∈ m.declaredNamespaceGraph.cycles.map (DependencyCycle.mk · .namespace),
        ¬ decide (cycle.scope = .type) := by
    intro cycle hcycle
    obtain ⟨_, -, rfl⟩ := List.mem_map.1 hcycle
    exact Bool.false_ne_true
  rw [DependencyMetrics.typeCycleNodes, cycles, List.filter_append, List.filter_eq_self.2 htypes,
    List.filter_eq_nil_iff.2 hnamespaces, List.append_nil, List.map_map, List.length_flatten]
  rfl

/-- Different nodes of cycles have different edges, since an edge leaves one node only. -/
theorem length_cycles_le (m : CodeModel) :
    m.declaredTypeGraph.cycles.flatten.length ≤ m.typeEdgeLinks.card := by
  have hcycles := m.areCycles_types
  calc m.declaredTypeGraph.cycles.flatten.length
      = m.declaredTypeGraph.cycles.flatten.toFinset.card :=
        (List.toFinset_card_of_nodup hcycles.nodup).symm
    _ ≤ (m.typeEdgeLinks.image Prod.fst).card := by
        apply Finset.card_le_card
        intro name hname
        obtain ⟨cycle, hcycle, hname⟩ := List.mem_flatten.1 (List.mem_toFinset.1 hname)
        obtain ⟨next, -, hedge⟩ := hcycles.exists_edge_from hcycle hname
        exact Finset.mem_image.2 ⟨(name, next), mem_typeEdgeLinks.2 hedge, rfl⟩
    _ ≤ m.typeEdgeLinks.card := Finset.card_image_le

theorem card_typeEdgeLinks_le (h : ∀ t ∈ m.codebase.types, Text.isBlank t.fullName = false) :
    m.typeEdgeLinks.card ≤ m.internalDependencies := by
  rw [length_internalPairs, ← List.toFinset_card_of_nodup m.nodup_internalPairs]
  apply Finset.card_le_card
  rintro ⟨source, target⟩ hlink
  obtain ⟨hpair, hne, -, htarget⟩ := Finset.mem_filter.1 hlink
  obtain ⟨t, ht, rfl⟩ := List.mem_map.1 htarget
  rw [List.mem_toFinset, internalPairs, List.mem_filter]
  refine ⟨List.mem_toFinset.1 hpair, ?_⟩
  simp [h t ht, Ne.symm hne]

/-- The cycles of types are backed by edges that are counted as internal dependencies. Every node of
a cycle has an edge to a declared type of its own cycle, and all edges between declared types are
counted, so that there are at least as many internal dependencies as nodes in the cycles. -/
theorem backsCycles_of_not_blank (h : ∀ t ∈ m.codebase.types, Text.isBlank t.fullName = false) :
    ∃ d, m.dependencyMetrics.outcome = .ok d ∧ m.BacksCycles d := by
  have hnodes := length_cycles_le m
  have hlinks := card_typeEdgeLinks_le h
  refine ⟨_, m.outcome_dependencyMetrics, ?_⟩
  refine
    { inward := ?_
      nodes_le_links := ?_
      links_le := Int.ofNat_le.2 hlinks
      nodes_le := ?_ }
  · intro cycle hcycle hscope name hname
    obtain ⟨next, hnext, hedge⟩ :=
      m.areCycles_types.exists_edge_from (mem_cycles_type hcycle hscope) hname
    exact ⟨next, hnext, mem_typeEdgeLinks.2 hedge⟩
  · rw [typeCycleNodes_eq]
    exact hnodes
  · rw [typeCycleNodes_eq]
    exact Int.ofNat_le.2 (Nat.le_trans hnodes hlinks)

/-- Two types in a cycle, an edge out of it, an edge of a type to itself, and edges from and to a
name that nobody declares. -/
def looped : CodeModel where
  codebase := ⟨[⟨"M", [⟨"N", [{ fullName := "A" }, { fullName := "B" }, { fullName := "C" }]⟩]⟩]⟩
  graph := { typeEdges := .ofList [("B", .ofList ["A", "B", "C"]), ("log", .ofList ["A"]),
    ("A", .ofList ["B"]), ("C", .ofList ["log", " "])] }

theorem backsCycles_looped :
    (∀ t ∈ looped.codebase.types, Text.isBlank t.fullName = false) ∧
      ∃ d, looped.dependencyMetrics.outcome = .ok d ∧ looped.BacksCycles d := by
  have hnames : ∀ t ∈ looped.codebase.types, Text.isBlank t.fullName = false := by decide
  exact ⟨hnames, backsCycles_of_not_blank hnames⟩

end CodeModel

end DesignMetrics
