import Mathlib.Algebra.BigOperators.Group.Finset.Basic
import Mathlib.Algebra.Ring.Nat
import DesignMetrics.Proofs.Digraph.Parts

/-!
# Degrees count edges

In a graph that is drawn from a relation, a degree is the number of related nodes. Every edge leaves
one node and enters one, so that the degrees of all nodes add up to the number of edges, whichever
of the two ends is looked at.
-/

namespace DesignMetrics.Digraph

section Drawn

variable {g : Digraph} {related : String → String → Prop} [∀ a b, Decidable (related a b)]
  {names : Finset String} {node : String}

/-- The out-degree of a node counts the other nodes that it is related to. -/
theorem Draws.outDegree_eq_card (h : g.Draws related) (hnames : ∀ a, a ∈ g.nodes ↔ a ∈ names)
    (hnode : node ∈ names) :
    g.outDegree node = (names.filter fun other => other ≠ node ∧ related node other).card := by
  rw [outDegree, ← List.toFinset_card_of_nodup (g.nodup_successors node)]
  congr 1
  ext other
  rw [List.mem_toFinset, mem_successors, Finset.mem_filter]
  apply (h node other).trans
  rw [hnames, hnames]
  constructor
  · rintro ⟨⟨hne, -, hother⟩, hrelated⟩
    exact ⟨hother, hne.symm, hrelated⟩
  · rintro ⟨hother, hne, hrelated⟩
    exact ⟨⟨hne.symm, hnode, hother⟩, hrelated⟩

/-- The in-degree of a node counts the other nodes that are related to it. -/
theorem Draws.inDegree_eq_card (h : g.Draws related) (hnames : ∀ a, a ∈ g.nodes ↔ a ∈ names)
    (hnode : node ∈ names) :
    g.inDegree node = (names.filter fun other => other ≠ node ∧ related other node).card := by
  rw [inDegree, ← List.toFinset_card_of_nodup (g.nodup_predecessors node)]
  congr 1
  ext other
  rw [List.mem_toFinset, mem_predecessors, Finset.mem_filter]
  apply (h other node).trans
  rw [hnames, hnames]
  constructor
  · rintro ⟨⟨hne, hother, -⟩, hrelated⟩
    exact ⟨hother, hne, hrelated⟩
  · rintro ⟨hother, hne, hrelated⟩
    exact ⟨⟨hne, hother, hnode⟩, hrelated⟩

end Drawn

/-- The edges with one end at a node, counted node by node, are all edges. -/
theorem sum_countP_end (g : Digraph) {endOf : String × String → String}
    (hnode : ∀ arc ∈ g.arcs, endOf arc ∈ g.nodes) :
    (g.nodes.map fun node => g.arcs.countP (endOf · = node)).sum = g.edgeCount := by
  have hmaps : Set.MapsTo endOf g.arcs.toFinset g.nodes.toFinset := by
    intro arc harc
    rw [Finset.mem_coe, List.mem_toFinset] at harc ⊢
    exact hnode arc harc
  have hcount : ∀ node, g.arcs.countP (endOf · = node) =
      (g.arcs.toFinset.filter (endOf · = node)).card := by
    intro node
    rw [List.countP_eq_length_filter, ← List.toFinset_card_of_nodup (g.nodup_arcs.filter _),
      List.toFinset_filter]
    simp
  simp only [hcount]
  rw [← List.sum_toFinset _ g.nodup_nodes, ← Finset.card_eq_sum_card_fiberwise hmaps,
    List.toFinset_card_of_nodup g.nodup_arcs]
  rfl

theorem sum_outDegree (g : Digraph) : (g.nodes.map g.outDegree).sum = g.edgeCount := by
  rw [← g.sum_countP_end fun arc harc => (g.ends arc harc).2.1]
  congr 1
  exact List.map_congr_left fun node _ => g.outDegree_eq_countP node

theorem sum_inDegree (g : Digraph) : (g.nodes.map g.inDegree).sum = g.edgeCount := by
  rw [← g.sum_countP_end fun arc harc => (g.ends arc harc).2.2]
  congr 1
  exact List.map_congr_left fun node _ => g.inDegree_eq_countP node

/-- The edges of a graph are the distinct attempts that join two different nodes. -/
theorem edgeCount_addAll (names : List String) (attempts : List (String × String)) :
    ((ofNodes names).addAll attempts).edgeCount =
      (attempts.toFinset.filter (Joins names)).card := by
  rw [edgeCount, ← List.toFinset_card_of_nodup (nodup_arcs _)]
  congr 1
  ext ⟨source, target⟩
  rw [List.mem_toFinset, mem_arcs_addAll, Finset.mem_filter, List.mem_toFinset, and_comm]
  rfl

end DesignMetrics.Digraph
