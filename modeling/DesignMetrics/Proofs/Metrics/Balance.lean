import Mathlib.Algebra.BigOperators.Ring.Finset
import DesignMetrics.Proofs.Metrics.NamespaceCoupling
import DesignMetrics.Proofs.Metrics.TypeCoupling

/-!
# Incoming and outgoing coupling balance

What one name depends on is what another one is depended on for, so that over all names the two
directions of coupling add up to the same number, the number of edges. Types of one name share one
node: their records repeat its degrees, and the balance is over one record of every name.
-/

namespace DesignMetrics

/-- One record of every name of a section on types, whichever of the records of that name. -/
structure OncePerName (records chosen : List TypeCoupling) : Prop where
  subset : chosen ⊆ records
  names : (chosen.map (·.typeFullName)).Perm (firstOccurrences (records.map (·.typeFullName)))

theorem exists_oncePerName (records : List TypeCoupling) :
    ∃ chosen, OncePerName records chosen := by
  obtain ⟨chosen, hsublist, hnames⟩ := List.sublist_map_iff.1
    (firstOccurrences_sublist (records.map (·.typeFullName)))
  exact ⟨chosen, hsublist.subset, .of_eq hnames.symm⟩

theorem oncePerName_self {records : List TypeCoupling}
    (h : (records.map (·.typeFullName)).Nodup) : OncePerName records records :=
  ⟨List.Subset.refl _, .of_eq (firstOccurrences_of_nodup h).symm⟩

/-- A figure that is the degree of a name adds up to the degrees of the names. -/
theorem sum_map_degree {α : Type} {degree : String → Nat} {figure : α → Int} {name : α → String}
    {records : List α} {names : List String}
    (hfigure : ∀ r ∈ records, figure r = degree (name r))
    (hnames : (records.map name).Perm names) :
    (records.map figure).sum = (names.map degree).sum := by
  have hdegrees : records.map figure = (records.map name).map fun n => (degree n : Int) := by
    rw [List.map_map]
    exact List.map_congr_left hfigure
  rw [hdegrees, (hnames.map _).sum_eq, Nat.cast_list_sum, List.map_map]
  rfl

namespace CodeModel

/-- The pairs of two different declared namespaces in the edge map. -/
def namespaceLinks (m : CodeModel) : Finset (String × String) :=
  m.graph.namespaceEdges.pairs.toFinset.filter (Joins (m.codebase.namespaces.map (·.name)))

/-- The pairs of two different declared names of which a type of the first lists the second. -/
def typeLinks (m : CodeModel) : Finset (String × String) :=
  m.attempts.toFinset.filter (Joins (m.codebase.types.map (·.fullName)))

theorem edgeCount_namespaceGraph (m : CodeModel) :
    m.namespaceGraph.edgeCount = m.namespaceLinks.card := by
  rw [namespaceGraph, Digraph.ofAdjacency_eq, Digraph.edgeCount_addAll, namespaceLinks]
  congr 1
  refine Finset.filter_congr fun pair _ => ?_
  rw [Joins, Joins, Codebase.namespaceNames, mem_firstOccurrences, mem_firstOccurrences]

theorem edgeCount_typeGraph (m : CodeModel) : m.typeGraph.edgeCount = m.typeLinks.card := by
  rw [typeGraph_eq, Digraph.edgeCount_addAll, typeLinks]

theorem names_typeCoupling (m : CodeModel) :
    m.typeCoupling.map (·.typeFullName) = m.codebase.types.map (·.fullName) := by
  rw [typeCoupling, List.map_map]
  rfl

/-- The sums of coupling over the namespaces, and over the types with each name taken once. -/
structure Balances (m : CodeModel) (couplings : List NamespaceCoupling) : Prop where
  ca : (couplings.map (·.ca)).sum = m.namespaceLinks.card
  ce : (couplings.map (·.ce)).sum = m.namespaceLinks.card
  names : m.typeCoupling.map (·.typeFullName) = m.codebase.types.map (·.fullName)
  exists_chosen : ∃ chosen, OncePerName m.typeCoupling chosen
  fanIn : ∀ chosen, OncePerName m.typeCoupling chosen →
    (chosen.map (·.fanIn)).sum = m.typeGraph.edgeCount
  fanOut : ∀ chosen, OncePerName m.typeCoupling chosen →
    (chosen.map (·.fanOut)).sum = m.typeGraph.edgeCount
  edgeCount : m.typeGraph.edgeCount = m.typeLinks.card
  fanIn_eq_fanOut : (m.codebase.types.map (·.fullName)).Nodup →
    (m.typeCoupling.map (·.fanIn)).sum = (m.typeCoupling.map (·.fanOut)).sum

variable {m : CodeModel} {chosen : List TypeCoupling}

theorem names_chosen (h : OncePerName m.typeCoupling chosen) :
    (chosen.map (·.typeFullName)).Perm m.typeGraph.nodes := by
  rw [nodes_typeGraph, Codebase.typeNames, ← names_typeCoupling]
  exact h.names

/-- A figure of every type that is a degree in the type graph adds up to the degrees of the nodes.
-/
theorem sum_chosen (h : OncePerName m.typeCoupling chosen) (figure : TypeCoupling → Int)
    (degree : String → Nat)
    (hfigure : ∀ t : TypeDecl, figure (t.coupling m.typeGraph) = degree t.fullName) :
    (chosen.map figure).sum = (m.typeGraph.nodes.map degree).sum := by
  apply sum_map_degree _ (names_chosen h)
  intro r hr
  obtain ⟨t, -, rfl⟩ := List.mem_map.1 (h.subset hr)
  exact hfigure t

theorem sum_fanIn (h : OncePerName m.typeCoupling chosen) :
    (chosen.map (·.fanIn)).sum = m.typeGraph.edgeCount := by
  rw [sum_chosen h (·.fanIn) m.typeGraph.inDegree fun _ => rfl, Digraph.sum_inDegree]

theorem sum_fanOut (h : OncePerName m.typeCoupling chosen) :
    (chosen.map (·.fanOut)).sum = m.typeGraph.edgeCount := by
  rw [sum_chosen h (·.fanOut) m.typeGraph.outDegree fun _ => rfl, Digraph.sum_outDegree]

/-- Coupling balances in every model. All afferent and all efferent couplings are as many as the
pairs of two different declared namespaces in the edge map, and all fan-in and all fan-out, each
name taken once, as many as the edges of the type graph. -/
theorem coupling_balances (m : CodeModel) :
    ∃ couplings, m.namespaceCoupling.outcome = .ok couplings ∧ m.Balances couplings := by
  obtain ⟨couplings, hcouplings, hnames, hread⟩ := m.exists_outcome_namespaceCoupling
  rw [← nodes_namespaceGraph] at hnames
  refine
    ⟨couplings, hcouplings,
      { ca := ?_
        ce := ?_
        names := m.names_typeCoupling
        exists_chosen := exists_oncePerName _
        fanIn := fun _ => sum_fanIn
        fanOut := fun _ => sum_fanOut
        edgeCount := m.edgeCount_typeGraph
        fanIn_eq_fanOut := ?_ }⟩
  · rw [sum_map_degree (fun c hc => (hread c hc).ca) (.of_eq hnames), Digraph.sum_inDegree,
      edgeCount_namespaceGraph]
  · rw [sum_map_degree (fun c hc => (hread c hc).ce) (.of_eq hnames), Digraph.sum_outDegree,
      edgeCount_namespaceGraph]
  · intro hnodup
    rw [← names_typeCoupling] at hnodup
    have hall := oncePerName_self hnodup
    rw [sum_fanIn hall, sum_fanOut hall]

end CodeModel

end DesignMetrics
