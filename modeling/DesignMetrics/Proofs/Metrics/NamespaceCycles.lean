import DesignMetrics.Proofs.Digraph.Extremes
import DesignMetrics.Proofs.Metrics.Ratios

/-!
# Coupling and cycles of namespaces

The coupling of the namespaces and their cycles are counted and searched in two graphs that are made
separately, and the two are the same. So a namespace of a cycle is coupled both ways, and where
nothing depends on others, or nothing is depended on, is found at the ends of the graph unless a
cycle takes its place there.
-/

namespace DesignMetrics.CodeModel

/-- A cycle of namespaces that no kept edge leaves. -/
def IsClosedCycle (m : CodeModel) (cycle : DependencyCycle) : Prop :=
  cycle.scope = .namespace ∧ ∀ a ∈ cycle.nodes, ∀ b ∉ cycle.nodes, ¬ m.NamespaceEdge a b

/-- A cycle of namespaces that no kept edge enters. -/
def IsUnenteredCycle (m : CodeModel) (cycle : DependencyCycle) : Prop :=
  cycle.scope = .namespace ∧ ∀ a ∉ cycle.nodes, ∀ b ∈ cycle.nodes, ¬ m.NamespaceEdge a b

/-- What the coupling and the cycles of the namespaces of a model say about each other. -/
structure OneStory (m : CodeModel) (couplings : List NamespaceCoupling)
    (cycles : List DependencyCycle) : Prop where
  coupled : ∀ cycle ∈ cycles, cycle.scope = .namespace → ∀ name ∈ cycle.nodes,
    (∃ c ∈ couplings, c.name = name) ∧ ∀ c ∈ couplings, c.name = name → 1 ≤ c.ca ∧ 1 ≤ c.ce
  acyclic : m.codebase.namespaces ≠ [] → (∀ cycle ∈ cycles, cycle.scope ≠ .namespace) →
    (∃ c ∈ couplings, c.ce = 0) ∧ ∃ c ∈ couplings, c.ca = 0
  efferent : m.codebase.namespaces ≠ [] →
    (∃ c ∈ couplings, c.ce = 0) ∨ ∃ cycle ∈ cycles, m.IsClosedCycle cycle
  afferent : m.codebase.namespaces ≠ [] →
    (∃ c ∈ couplings, c.ca = 0) ∨ ∃ cycle ∈ cycles, m.IsUnenteredCycle cycle

variable {m : CodeModel}

theorem mem_cycles_namespace {cycle : DependencyCycle} (h : cycle ∈ m.cycles)
    (hscope : cycle.scope = .namespace) : cycle.nodes ∈ m.namespaceGraph.cycles := by
  rw [cycles, List.mem_append, List.mem_map, List.mem_map] at h
  rcases h with ⟨nodes, -, rfl⟩ | ⟨nodes, hnodes, rfl⟩
  · cases hscope
  · exact hnodes

theorem namespace_mem_cycles {nodes : List String} (h : nodes ∈ m.namespaceGraph.cycles) :
    ⟨nodes, .namespace⟩ ∈ m.cycles :=
  List.mem_append_right _ (List.mem_map_of_mem h)

theorem nodes_namespaceGraph_ne_nil (hne : m.codebase.namespaces ≠ []) :
    m.namespaceGraph.nodes ≠ [] := by
  obtain ⟨ns, hns⟩ := List.exists_mem_of_ne_nil _ hne
  have hname : ns.name ∈ m.codebase.namespaceNames :=
    mem_firstOccurrences.2 (List.mem_map_of_mem hns)
  rw [nodes_namespaceGraph]
  exact List.ne_nil_of_mem hname

/-- Some namespace depends on no other, or some cycle keeps its dependencies to itself. -/
theorem exists_ce_eq_zero {couplings : List NamespaceCoupling}
    (hnames : couplings.map (·.name) = m.codebase.namespaceNames)
    (hread : ∀ c ∈ couplings, c.IsRead m.namespaceGraph) (hne : m.codebase.namespaces ≠ []) :
    (∃ c ∈ couplings, c.ce = 0) ∨ ∃ cycle ∈ m.cycles, m.IsClosedCycle cycle := by
  rcases Digraph.exists_sink (nodes_namespaceGraph_ne_nil hne) with
    ⟨a, ha, hzero⟩ | ⟨cycle, hcycle, hclosed⟩
  · rw [nodes_namespaceGraph, ← hnames, List.mem_map] at ha
    obtain ⟨c, hc, rfl⟩ := ha
    refine .inl ⟨c, hc, ?_⟩
    rw [(hread c hc).ce, hzero]
    rfl
  · refine .inr ⟨_, namespace_mem_cycles hcycle, rfl, fun a ha b hb hab => hb ?_⟩
    rw [← edge_namespaceGraph] at hab
    exact hclosed a ha b hab

/-- On some namespace no other depends, or some cycle has its dependents to itself. -/
theorem exists_ca_eq_zero {couplings : List NamespaceCoupling}
    (hnames : couplings.map (·.name) = m.codebase.namespaceNames)
    (hread : ∀ c ∈ couplings, c.IsRead m.namespaceGraph) (hne : m.codebase.namespaces ≠ []) :
    (∃ c ∈ couplings, c.ca = 0) ∨ ∃ cycle ∈ m.cycles, m.IsUnenteredCycle cycle := by
  rcases Digraph.exists_source (nodes_namespaceGraph_ne_nil hne) with
    ⟨b, hb, hzero⟩ | ⟨cycle, hcycle, hentered⟩
  · rw [nodes_namespaceGraph, ← hnames, List.mem_map] at hb
    obtain ⟨c, hc, rfl⟩ := hb
    refine .inl ⟨c, hc, ?_⟩
    rw [(hread c hc).ca, hzero]
    rfl
  · refine .inr ⟨_, namespace_mem_cycles hcycle, rfl, fun a ha b hb hab => ha ?_⟩
    rw [← edge_namespaceGraph] at hab
    exact hentered b hb a hab

/-- The coupling and the cycles of the namespaces tell one story, in every model. -/
theorem oneStory_namespaces (m : CodeModel) :
    ∃ couplings d, m.namespaceCoupling.outcome = .ok couplings ∧
      m.dependencyMetrics.outcome = .ok d ∧ m.OneStory couplings d.cycles := by
  obtain ⟨couplings, hcouplings, hnames, hread⟩ := m.exists_outcome_namespaceCoupling
  have hefferent := exists_ce_eq_zero hnames hread
  have hafferent := exists_ca_eq_zero hnames hread
  refine ⟨couplings, _, hcouplings, m.outcome_dependencyMetrics, ?_, ?_, hefferent, hafferent⟩
  · intro cycle hcycle hscope name hname
    have hmem := mem_cycles_namespace hcycle hscope
    refine ⟨?_, fun c hc heq => ?_⟩
    · have hnode : name ∈ m.codebase.namespaceNames :=
        (m.areCycles_namespaces.sublist _ hmem).mem hname
      rwa [← hnames, List.mem_map] at hnode
    · subst heq
      have hdegrees := Digraph.one_le_degrees_of_mem_cycle hmem hname
      rw [(hread c hc).ca, (hread c hc).ce]
      omega
  · intro hne hnone
    constructor
    · rcases hefferent hne with hzero | ⟨cycle, hcycle, hclosed⟩
      · exact hzero
      · exact absurd hclosed.1 (hnone cycle hcycle)
    · rcases hafferent hne with hzero | ⟨cycle, hcycle, hunentered⟩
      · exact hzero
      · exact absurd hunentered.1 (hnone cycle hcycle)

end DesignMetrics.CodeModel
