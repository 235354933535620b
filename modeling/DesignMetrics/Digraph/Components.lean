import DesignMetrics.Digraph.Basic
import DesignMetrics.Digraph.Search

/-!
# Components and cycles of a graph

The strongly connected components come in the order in which the search completes them, and the
nodes of each in node order. A cycle is a component of two or more nodes. No lookup of a search over
a graph fails, so that there are always components.
-/

namespace DesignMetrics.Digraph

/-- The nodes with their successors. -/
def adjacency (g : Digraph) : List (String × List String) :=
  g.nodes.map fun node => (node, g.successors node)

/-- The names of a list in node order, unless one of them is no node. -/
def inNodeOrder? (g : Digraph) (names : List String) : Option (List String) :=
  if ∀ name ∈ names, name ∈ g.nodes then some (g.nodes.filter (· ∈ names)) else none

def components? (g : Digraph) : Option (List (List String)) := do
  let found ← Search.components? g.adjacency
  found.mapM g.inNodeOrder?

def components (g : Digraph) : List (List String) := g.components?.getD []

def cyclesAmong (components : List (List String)) : List (List String) :=
  components.filter fun component => 1 < component.length

def cycles? (g : Digraph) : Option (List (List String)) := cyclesAmong <$> g.components?

def cycles (g : Digraph) : List (List String) := cyclesAmong g.components

end DesignMetrics.Digraph
