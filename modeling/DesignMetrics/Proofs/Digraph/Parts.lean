import DesignMetrics.Proofs.Digraph.DisjointUnion
import DesignMetrics.Proofs.Digraph.History
import DesignMetrics.Proofs.Digraph.KeptEdge

/-!
# Parts of a graph

A graph is drawn from its nodes and from a relation that may know other names as well. When a larger
graph is drawn from more nodes and more related pairs, and neither the added nodes are related by
the old pairs nor the old nodes by the added ones, the smaller graph is a part of it: no edge is
added to or between its nodes. The nodes of a part keep their degrees.
-/

namespace DesignMetrics.Digraph

variable {part whole : Digraph} {own others : String → String → Prop} {a : String}

/-- The edges of a graph are the related pairs of two different nodes. -/
def Draws (g : Digraph) (related : String → String → Prop) : Prop :=
  ∀ a b, g.Edge a b ↔ (a ≠ b ∧ a ∈ g.nodes ∧ b ∈ g.nodes) ∧ related a b

theorem draws_ofAdjacency (names : List String) (edges : EdgeMap) :
    (ofAdjacency names edges.adjacency).Draws fun a b => b ∈ edges.targets a := by
  intro a b
  rw [edge_ofAdjacency, nodes_ofAdjacency, EdgeMap.Keeps, mem_firstOccurrences,
    mem_firstOccurrences]

theorem Draws.congr {g : Digraph} {related related' : String → String → Prop} (h : g.Draws related)
    (hrelated : ∀ a b, related a b ↔ related' a b) : g.Draws related' := by
  intro a b
  rw [h, hrelated]

/-- The edges of the whole that touch a node of the part are those of the part. -/
def IsPart (part whole : Digraph) : Prop :=
  ∀ a b, a ∈ part.nodes ∨ b ∈ part.nodes → (whole.Edge a b ↔ part.Edge a b)

/-- Drawing more makes a graph a part when what is added does not touch what is there. -/
theorem Draws.isPart (hpart : part.Draws own) (hwhole : whole.Draws fun a b => own a b ∨ others a b)
    {names : List String} (hnodes : ∀ a, a ∈ whole.nodes ↔ a ∈ part.nodes ∨ a ∈ names)
    (hown : ∀ a b, own a b → a ∉ names ∧ b ∉ names)
    (hothers : ∀ a b, others a b → a ∉ part.nodes ∧ b ∉ part.nodes) : part.IsPart whole := by
  intro a b htouch
  rw [hpart, hwhole]
  constructor
  · rintro ⟨⟨hne, ha, hb⟩, hrelated | hrelated⟩
    · obtain ⟨hnotA, hnotB⟩ := hown a b hrelated
      exact ⟨⟨hne, ((hnodes a).1 ha).resolve_right hnotA, ((hnodes b).1 hb).resolve_right hnotB⟩,
        hrelated⟩
    · obtain ⟨hnotA, hnotB⟩ := hothers a b hrelated
      exact absurd htouch (not_or.2 ⟨hnotA, hnotB⟩)
  · rintro ⟨⟨hne, ha, hb⟩, hrelated⟩
    exact ⟨⟨hne, (hnodes a).2 (.inl ha), (hnodes b).2 (.inl hb)⟩, .inl hrelated⟩

namespace IsPart

theorem mem_successors (h : part.IsPart whole) (ha : a ∈ part.nodes) (b : String) :
    b ∈ whole.successors a ↔ b ∈ part.successors a := by
  rw [Digraph.mem_successors, Digraph.mem_successors]
  exact h a b (.inl ha)

theorem mem_predecessors (h : part.IsPart whole) (ha : a ∈ part.nodes) (b : String) :
    b ∈ whole.predecessors a ↔ b ∈ part.predecessors a := by
  rw [Digraph.mem_predecessors, Digraph.mem_predecessors]
  exact h b a (.inr ha)

theorem sameDegreesAt (h : part.IsPart whole) (ha : a ∈ part.nodes) :
    whole.SameDegreesAt part a := by
  have hout := (List.perm_ext_iff_of_nodup (whole.nodup_successors a) (part.nodup_successors a)).2
    (h.mem_successors ha)
  have hin := (List.perm_ext_iff_of_nodup (whole.nodup_predecessors a)
    (part.nodup_predecessors a)).2 (h.mem_predecessors ha)
  exact ⟨hout.length_eq, hin.length_eq⟩

end IsPart

/-- Two graphs of edge maps that are parts of a third one and have all its nodes make it up. -/
theorem isUnion_ofAdjacency {names names' namesOfBoth : List String}
    {edges edges' edgesOfBoth : EdgeMap}
    (hnodes : (ofAdjacency namesOfBoth edgesOfBoth.adjacency).nodes =
      (ofAdjacency names edges.adjacency).nodes ++ (ofAdjacency names' edges'.adjacency).nodes)
    (hpart : (ofAdjacency names edges.adjacency).IsPart
      (ofAdjacency namesOfBoth edgesOfBoth.adjacency))
    (hother : (ofAdjacency names' edges'.adjacency).IsPart
      (ofAdjacency namesOfBoth edgesOfBoth.adjacency)) :
    (ofAdjacency namesOfBoth edgesOfBoth.adjacency).IsUnion (ofAdjacency names edges.adjacency)
      (ofAdjacency names' edges'.adjacency) where
  nodes := hnodes
  successors_first node hnode :=
    ascending_ext (ascending_successors_ofAdjacency _ _ node)
      (ascending_successors_ofAdjacency _ _ node) (hpart.mem_successors hnode)
  successors_second node hnode :=
    ascending_ext (ascending_successors_ofAdjacency _ _ node)
      (ascending_successors_ofAdjacency _ _ node) (hother.mem_successors hnode)

end DesignMetrics.Digraph
