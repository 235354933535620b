import DesignMetrics.Proofs.Binary64.Quotient
import DesignMetrics.Proofs.Digraph.Degrees
import DesignMetrics.Proofs.Metrics.Ratios

/-!
# What the coupling of a namespace means

A namespace is a name, in whatever modules its parts stand. Its efferent coupling counts the other
declared names among its targets in the edge map, its afferent coupling the other declared names
that have it as a target. Abstractness and the counts of types are taken over all parts of the
namespace, so that the two sections on namespaces speak of the same types.
-/

namespace DesignMetrics

/-- The abstract types and the interfaces of a list. -/
def abstractions (types : List TypeDecl) : List TypeDecl :=
  types.filter fun t => t.isAbstract || t.kind == .interface

theorem abstractClassCount_le (types : List TypeDecl) :
    abstractClassCount types ≤ (abstractions types).length := by
  rw [abstractClassCount, abstractions, ← List.countP_eq_length_filter]
  apply List.countP_mono_left
  intro t _ habstract
  rw [TypeDecl.isAbstractClass, Bool.and_eq_true] at habstract
  rw [habstract.1, Bool.true_or]

theorem abstractness_nil : abstractness [] = .zero := by
  rw [abstractness, dif_pos rfl]

/-- Abstractness is the correctly rounded share of the abstractions. -/
theorem isQuotient_abstractness {types : List TypeDecl} (hne : types ≠ []) :
    (abstractness types).IsQuotient (abstractions types).length types.length := by
  have hcount : (abstractions types).length = types.countP (·.isAbstraction) :=
    List.countP_eq_length_filter.symm
  have hfinite := (within_abstractness types).isFinite
  rw [abstractness, dif_neg hne] at hfinite ⊢
  rw [hcount]
  exact Binary64.isQuotient_ofRatio hfinite

namespace CodeModel

def declaredNamespaces (m : CodeModel) : Finset String :=
  (m.codebase.namespaces.map (·.name)).toFinset

/-- The other declared namespaces on which a namespace depends. -/
def efferents (m : CodeModel) (name : String) : Finset String :=
  m.declaredNamespaces.filter fun other =>
    other ≠ name ∧ other ∈ m.graph.namespaceEdges.targets name

/-- The other declared namespaces that depend on a namespace. -/
def afferents (m : CodeModel) (name : String) : Finset String :=
  m.declaredNamespaces.filter fun other =>
    other ≠ name ∧ name ∈ m.graph.namespaceEdges.targets other

variable {m : CodeModel} {name : String}

theorem mem_namespaceNames : name ∈ m.codebase.namespaceNames ↔ name ∈ m.declaredNamespaces := by
  rw [Codebase.namespaceNames, mem_firstOccurrences, declaredNamespaces, List.mem_toFinset]

theorem mem_nodes_namespaceGraph : name ∈ m.namespaceGraph.nodes ↔ name ∈ m.declaredNamespaces := by
  rw [nodes_namespaceGraph, mem_namespaceNames]

theorem outDegree_namespaceGraph (hname : name ∈ m.declaredNamespaces) :
    m.namespaceGraph.outDegree name = (m.efferents name).card :=
  m.draws_namespaceGraph.outDegree_eq_card (fun _ => mem_nodes_namespaceGraph) hname

theorem inDegree_namespaceGraph (hname : name ∈ m.declaredNamespaces) :
    m.namespaceGraph.inDegree name = (m.afferents name).card :=
  m.draws_namespaceGraph.inDegree_eq_card (fun _ => mem_nodes_namespaceGraph) hname

/-- The coupling and the figures of one namespace count what they stand for, over all of its
types. -/
structure NamespaceCounts (m : CodeModel) (coupling : NamespaceCoupling)
    (figures : NamespaceMetrics) : Prop where
  name : figures.name = coupling.name
  ce : coupling.ce = (m.efferents coupling.name).card
  ca : coupling.ca = (m.afferents coupling.name).card
  abstractness_of_nil : m.codebase.typesOf coupling.name = [] → coupling.abstractness = .zero
  abstractness : m.codebase.typesOf coupling.name ≠ [] → coupling.abstractness.IsQuotient
    (abstractions (m.codebase.typesOf coupling.name)).length
    (m.codebase.typesOf coupling.name).length
  noc : figures.noc = (m.codebase.typesOf coupling.name).length
  nac_le : figures.nac ≤ (abstractions (m.codebase.typesOf coupling.name)).length

theorem namespaceCounts_of_eq_ok (hname : name ∈ m.declaredNamespaces) {c : NamespaceCoupling}
    (hc : DesignMetrics.namespaceCoupling m.namespaceGraph name (m.codebase.typesOf name) = .ok c) :
    m.NamespaceCounts c (Namespace.mk name (m.codebase.typesOf name)).metrics := by
  obtain ⟨_, -, hc⟩ := bind_eq_ok.1 hc
  cases hc
  refine
    { name := rfl
      ce := congrArg Int.ofNat (outDegree_namespaceGraph hname)
      ca := congrArg Int.ofNat (inDegree_namespaceGraph hname)
      abstractness_of_nil := ?_
      abstractness := isQuotient_abstractness
      noc := rfl
      nac_le := Int.ofNat_le.2 (abstractClassCount_le _) }
  intro hnil
  exact (congrArg DesignMetrics.abstractness hnil).trans abstractness_nil

/-- The coupling of the namespaces follows its definition. There is one record for every declared
name, in the order in which the names first appear, and beside the figures of the same name it
counts the names and the types that it stands for. -/
theorem namespaceCoupling_counts (m : CodeModel) :
    ∃ couplings, m.namespaceCoupling.outcome = .ok couplings ∧
      couplings.map (·.name) = firstOccurrences (m.codebase.namespaces.map (·.name)) ∧
      List.Forall₂ m.NamespaceCounts couplings m.namespaceMetrics := by
  obtain ⟨couplings, hcouplings, hnames, -⟩ := m.exists_outcome_namespaceCoupling
  refine ⟨couplings, hcouplings, hnames, ?_⟩
  rw [outcome_namespaceCoupling, Codebase.typesByNamespace_eq_typesOf] at hcouplings
  have hmade := List.forall₂_map_left_iff.1 (forall₂_of_mapM hcouplings)
  have hdeclared : ∀ name ∈ m.codebase.namespaceNames, name ∈ m.declaredNamespaces :=
    fun _ => mem_namespaceNames.1
  rw [namespaceMetrics, Codebase.typesByNamespace_eq_typesOf, List.map_map,
    List.forall₂_map_right_iff]
  refine (((List.forall₂_and_left _ _).2 ⟨hdeclared, hmade⟩).imp ?_).flip
  intro name c h
  exact namespaceCounts_of_eq_ok h.1 h.2

end CodeModel

end DesignMetrics
