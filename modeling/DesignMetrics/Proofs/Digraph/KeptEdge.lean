import DesignMetrics.Proofs.Digraph.Components

/-!
# The edges kept of an edge map

Of an edge map the graph on some names keeps the pairs of two different ones of these names. All
that is read off the graph depends on the kept pairs alone: as targets are tried in ascending order,
even the order of the components does.
-/

namespace DesignMetrics

/-- A pair of the map between two different ones of some names. -/
def EdgeMap.Keeps (edges : EdgeMap) (names : List String) (source target : String) : Prop :=
  (source ≠ target ∧ source ∈ names ∧ target ∈ names) ∧ target ∈ edges.targets source

theorem EdgeMap.not_keeps_self (edges : EdgeMap) (names : List String) (a : String) :
    ¬ edges.Keeps names a a :=
  fun h => h.1.1 rfl

theorem EdgeMap.Keeps.mono {edges edges' : EdgeMap} {names names' : List String}
    {source target : String} (h : edges.Keeps names source target) (hnames : names ⊆ names')
    (htargets : target ∈ edges.targets source → target ∈ edges'.targets source) :
    edges'.Keeps names' source target := by
  obtain ⟨⟨hne, hsource, htarget⟩, hedge⟩ := h
  exact ⟨⟨hne, hnames hsource, hnames htarget⟩, htargets hedge⟩

theorem EdgeMap.keeps_congr {edges edges' : EdgeMap} {names names' : List String}
    (hnames : ∀ name, name ∈ names ↔ name ∈ names')
    (hpairs : ∀ pair, pair ∈ edges.pairs ↔ pair ∈ edges'.pairs) :
    edges.Keeps names = edges'.Keeps names' := by
  funext source target
  rw [Keeps, Keeps, ← mem_pairs, ← mem_pairs, hpairs, hnames, hnames]

namespace Digraph

variable {names : List String} {edges edges' : EdgeMap}

theorem nodes_ofAdjacency (names : List String) (edges : EdgeMap) :
    (ofAdjacency names edges.adjacency).nodes = firstOccurrences names := by
  rw [ofAdjacency_eq, nodes_addAll, nodes_ofNodes]

theorem edge_ofAdjacency (names : List String) (edges : EdgeMap) :
    (ofAdjacency names edges.adjacency).Edge = edges.Keeps names := by
  funext source target
  rw [Edge, ofAdjacency_eq, mem_arcs_addAll, EdgeMap.mem_pairs, EdgeMap.Keeps]

theorem ascending_successors_ofAdjacency (names : List String) (edges : EdgeMap) (node : String) :
    ((ofAdjacency names edges.adjacency).successors node).Pairwise (· < ·) := by
  rw [successors_ofAdjacency]
  exact (edges.targets node).ascending.filter _

theorem successors_ofAdjacency_congr (h : edges.Keeps names = edges'.Keeps names) (node : String) :
    (ofAdjacency names edges.adjacency).successors node =
      (ofAdjacency names edges'.adjacency).successors node := by
  apply ascending_ext (ascending_successors_ofAdjacency _ _ _)
    (ascending_successors_ofAdjacency _ _ _)
  intro target
  rw [mem_successors, mem_successors, ← Edge, ← Edge, edge_ofAdjacency, edge_ofAdjacency, h]

theorem cycles_ofAdjacency_congr (h : edges.Keeps names = edges'.Keeps names) :
    (ofAdjacency names edges.adjacency).cycles = (ofAdjacency names edges'.adjacency).cycles :=
  cycles_congr (by rw [nodes_ofAdjacency, nodes_ofAdjacency]) fun node _ =>
    successors_ofAdjacency_congr h node

theorem sameDegrees_ofAdjacency {names' : List String}
    (h : edges.Keeps names = edges'.Keeps names') :
    (ofAdjacency names edges.adjacency).SameDegrees (ofAdjacency names' edges'.adjacency) :=
  sameDegrees_of_arcs fun arc => by
    show Edge _ arc.1 arc.2 ↔ Edge _ arc.1 arc.2
    rw [edge_ofAdjacency, edge_ofAdjacency, h]

end Digraph

end DesignMetrics
