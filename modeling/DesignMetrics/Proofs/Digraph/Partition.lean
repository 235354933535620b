import DesignMetrics.Proofs.Digraph.Components
import DesignMetrics.Proofs.Digraph.History

/-!
# The components of a graph and the calls that made it

Whatever calls have made a graph, the search of it ends with all its components: they divide the
nodes, and what is in one of them is told by the attempts that the graph has kept. The cycles are
the components of two or more nodes.
-/

namespace DesignMetrics.Digraph

/-- The edges that some calls leave in a graph on some names. -/
def Stored (names : List String) (calls : List Addition) (source target : String) : Prop :=
  (source, target) ∈ joining names (calls.flatMap Addition.attempts)

theorem edge_performAll (names : List String) (calls : List Addition) :
    ((ofNodes names).performAll calls).Edge = Stored names calls := by
  funext source target
  have hrecords := (records_performAll names calls).1
  rw [eq_iff_iff, Edge, ← mem_edges]
  exact hrecords.mem_edges_iff (source, target)

theorem nodes_performAll (names : List String) (calls : List Addition) :
    ((ofNodes names).performAll calls).nodes = firstOccurrences names :=
  (records_performAll names calls).1.nodes

/-- Lists that divide some nodes by who reaches whom. -/
structure Divides (nodes : List String) (edge : String → String → Prop)
    (components : List (List String)) : Prop where
  /-- Every node is in one list, and once. -/
  perm : components.flatten.Perm nodes
  ne_nil : ∀ component ∈ components, component ≠ []
  together_iff : ∀ a ∈ nodes, ∀ b ∈ nodes,
    (∃ component ∈ components, a ∈ component ∧ b ∈ component) ↔ Together edge a b
  sublist : ∀ component ∈ components, component.Sublist nodes

theorem nodup_flatten_components (g : Digraph) : g.components.flatten.Nodup :=
  g.components.reverse_perm.flatten.nodup_iff.1
    g.areComponents_components.completed.nodup_flatten

theorem divides_components (g : Digraph) : Divides g.nodes g.Edge g.components where
  perm := (List.perm_ext_iff_of_nodup g.nodup_flatten_components g.nodup_nodes).2
    g.areComponents_components.mem_flatten_iff
  ne_nil component hmem :=
    (g.areComponents_components.completed.isComponent component (List.mem_reverse.2 hmem)).ne_nil
  together_iff _ ha b _ := g.exists_component_iff ha b
  sublist := g.areComponents_components.sublist

/-- The search of a graph that was made by any calls ends, and what it finds divides the nodes by
who reaches whom along the stored edges. The cycles are what is found with two or more nodes. -/
theorem divides_performAll (names : List String) (calls : List Addition) :
    ∃ components, ((ofNodes names).performAll calls).components? = some components ∧
      Divides (firstOccurrences names) (Stored names calls) components ∧
      ((ofNodes names).performAll calls).cycles? =
        some (components.filter fun component => 2 ≤ component.length) := by
  have hdivides := divides_components ((ofNodes names).performAll calls)
  rw [edge_performAll, nodes_performAll] at hdivides
  exact ⟨_, components?_eq_some _, hdivides, cycles?_eq_some _⟩

end DesignMetrics.Digraph
