import DesignMetrics.Names.Distinct
import DesignMetrics.Digraph.Targets

/-!
# Directed graphs over known names

The nodes are fixed when a graph is made. An edge is kept when both of its ends are nodes and
differ; any other edge is only counted. Nodes and edges keep the order in which they first came.
-/

namespace DesignMetrics

structure Digraph where
  nodes : List String
  /-- The kept edges in the order in which they were first added. -/
  arcs : List (String × String)
  dropped : Nat
  nodup_nodes : nodes.Nodup
  nodup_arcs : arcs.Nodup
  ends : ∀ arc ∈ arcs, arc.1 ≠ arc.2 ∧ arc.1 ∈ nodes ∧ arc.2 ∈ nodes

namespace Digraph

/-- The graph without edges on the distinct names of a list. -/
def ofNodes (names : List String) : Digraph where
  nodes := firstOccurrences names
  arcs := []
  dropped := 0
  nodup_nodes := nodup_firstOccurrences names
  nodup_arcs := List.nodup_nil
  ends := by simp

instance : Inhabited Digraph := ⟨ofNodes []⟩
instance : Membership String Digraph := ⟨fun g name => name ∈ g.nodes⟩

instance (name : String) (g : Digraph) : Decidable (name ∈ g) :=
  inferInstanceAs (Decidable (name ∈ g.nodes))

/-- Whether the graph takes an edge: two different nodes. -/
def Admits (g : Digraph) (source target : String) : Prop :=
  source ≠ target ∧ source ∈ g.nodes ∧ target ∈ g.nodes

instance (g : Digraph) (source target : String) : Decidable (g.Admits source target) :=
  inferInstanceAs (Decidable (_ ∧ _ ∧ _))

/-- Keep an admitted edge, once; count any other one. -/
def addEdge (g : Digraph) (source target : String) : Digraph :=
  if h : g.Admits source target then
    if hmem : (source, target) ∈ g.arcs then g
    else
      { g with
        arcs := g.arcs ++ [(source, target)]
        nodup_arcs := by
          rw [List.nodup_append]
          refine ⟨g.nodup_arcs, by simp, fun a ha b hb => ?_⟩
          rw [List.mem_singleton] at hb
          exact fun heq => hmem (hb ▸ heq ▸ ha)
        ends := by
          intro arc harc
          rcases List.mem_append.1 harc with harc | harc
          · exact g.ends arc harc
          · rw [List.mem_singleton] at harc
            exact harc ▸ h }
  else { g with dropped := g.dropped + 1 }

def addEdges (g : Digraph) (source : String) (targets : List String) : Digraph :=
  targets.foldl (fun g target => g.addEdge source target) g

/-- How many of the targets the graph takes. -/
def admittedCount (g : Digraph) (source : String) (targets : List String) : Nat :=
  targets.countP fun target => decide (g.Admits source target)

/-- The graph on the given names with the edges of a list of sources and targets. -/
def ofAdjacency (names : List String) (adjacency : List (String × List String)) : Digraph :=
  adjacency.foldl (fun g entry => g.addEdges entry.1 entry.2) (ofNodes names)

def successors (g : Digraph) (node : String) : List String :=
  (g.arcs.filter (·.1 = node)).map (·.2)

def predecessors (g : Digraph) (node : String) : List String :=
  (g.arcs.filter (·.2 = node)).map (·.1)

def outDegree (g : Digraph) (node : String) : Nat := (g.successors node).length

def inDegree (g : Digraph) (node : String) : Nat := (g.predecessors node).length

def edgeCount (g : Digraph) : Nat := g.arcs.length

/-- The edges, grouped by source in node order. -/
def edges (g : Digraph) : List (String × String) :=
  g.nodes.flatMap fun node => (g.successors node).map (node, ·)

end Digraph

end DesignMetrics
