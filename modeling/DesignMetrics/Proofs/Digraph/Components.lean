import DesignMetrics.Digraph.Components
import DesignMetrics.Proofs.Digraph.Arcs
import DesignMetrics.Proofs.Digraph.SearchSteps

/-!
# Components and cycles of a graph

The search of a graph never fails. Its components are the nodes that reach each other, every node is
in one of them, and an edge between two of them leads to the one that came earlier.
-/

namespace DesignMetrics

open Relation

namespace Search

variable {α : Type} [DecidableEq α] {graph : List (α × List α)}

/-- At the end of a search every node is in a component. -/
theorem Valid.isFound_of_isOver {s : Search α} (h : Valid graph s) (hover : s.isOver) {a : α}
    (ha : IsNode graph a) : s.IsFound a := by
  simp only [isOver, Bool.and_eq_true, List.isEmpty_iff] at hover
  have hnumbered : s.isNumbered a := (h.covered a ha).resolve_left (by simp [hover.2])
  exact h.isFound_of_path_nil hover.1 hnumbered

/-- The search of a graph whose successors are nodes finds all components, and each before those
with an edge into it. -/
theorem exists_components?_eq (hclosed : IsClosed graph) :
    ∃ components, components? graph = some components ∧
      Completed (Edge graph) components.reverse ∧
      ∀ a, a ∈ components.flatten ↔ IsNode graph a := by
  obtain ⟨s, hrun, hvalid, hover⟩ := (valid_start graph).run hclosed (by simp [Scanned])
  refine ⟨s.found.reverse, by simp [components?, hrun], by simpa using hvalid.completed,
    fun a => ?_⟩
  have hmem : a ∈ s.found.reverse.flatten ↔ s.IsFound a := by simp [IsFound, List.mem_flatten]
  rw [hmem]
  exact ⟨fun ha => hvalid.isNode_numbered a ((hvalid.isNumbered_iff a).2 (Or.inr ha)),
    hvalid.isFound_of_isOver hover⟩

end Search

namespace Digraph

def Edge (g : Digraph) (source target : String) : Prop := (source, target) ∈ g.arcs

theorem lookup_adjacency (g : Digraph) (node : String) :
    g.adjacency.lookup node = if node ∈ g.nodes then some (g.successors node) else none := by
  unfold adjacency
  generalize g.nodes = nodes
  induction nodes with
  | nil => rfl
  | cons first rest ih =>
    by_cases h : node = first
    · simp [h]
    · have hne : (node == first) = false := by simpa using h
      simp [List.lookup_cons, hne, h, ih]

theorem mapM_eq_some_map {α β : Type} {f : α → Option β} {f' : α → β} {l : List α}
    (h : ∀ a ∈ l, f a = some (f' a)) : l.mapM f = some (l.map f') := by
  induction l with
  | nil => rfl
  | cons a rest ih =>
    rw [List.mapM_cons, h a List.mem_cons_self, ih fun b hb => h b (List.mem_cons_of_mem a hb)]
    rfl

theorem isNode_adjacency {g : Digraph} {a : String} :
    Search.IsNode g.adjacency a ↔ a ∈ g.nodes := by
  simp [Search.IsNode, lookup_adjacency]

theorem edge_adjacency {g : Digraph} : Search.Edge g.adjacency = g.Edge := by
  funext a b
  rw [eq_iff_iff]
  constructor
  · rintro ⟨successors, hlookup, hb⟩
    rw [lookup_adjacency] at hlookup
    split at hlookup
    · cases hlookup
      exact mem_successors.1 hb
    · cases hlookup
  · intro hab
    have ha : a ∈ g.nodes := (g.ends _ hab).2.1
    exact ⟨_, by simp [lookup_adjacency, ha], mem_successors.2 hab⟩

theorem isClosed_adjacency (g : Digraph) : Search.IsClosed g.adjacency := by
  intro a b hab
  rw [edge_adjacency] at hab
  exact isNode_adjacency.2 (g.ends _ hab).2.2

theorem mapM_inNodeOrder? {g : Digraph} {found : List (List String)}
    (h : ∀ names ∈ found, ∀ name ∈ names, name ∈ g.nodes) :
    found.mapM g.inNodeOrder? = some (found.map fun names => g.nodes.filter (· ∈ names)) :=
  mapM_eq_some_map fun names hnames => if_pos (h names hnames)

/-- What is known of the components of a graph. -/
structure AreComponents (g : Digraph) (components : List (List String)) : Prop where
  completed : Completed g.Edge components.reverse
  mem_flatten_iff : ∀ a, a ∈ components.flatten ↔ a ∈ g.nodes
  sublist : ∀ component ∈ components, component.Sublist g.nodes

theorem exists_components?_eq (g : Digraph) :
    ∃ components, g.components? = some components ∧ g.AreComponents components := by
  obtain ⟨found, hfound, hcompleted, hmem⟩ := Search.exists_components?_eq g.isClosed_adjacency
  rw [edge_adjacency] at hcompleted
  have hnodes : ∀ component ∈ found, ∀ a ∈ component, a ∈ g.nodes := fun component hc a ha =>
    isNode_adjacency.1 ((hmem a).1 (List.mem_flatten.2 ⟨component, hc, ha⟩))
  set order : List String → List String := fun names => g.nodes.filter (· ∈ names) with horder
  have hmapM : found.mapM g.inNodeOrder? = some (found.map order) := mapM_inNodeOrder? hnodes
  have hsame : ∀ component ∈ found, ∀ a, a ∈ order component ↔ a ∈ component :=
    fun component hc a => by simpa [horder] using hnodes component hc a
  refine ⟨found.map order, by simp [components?, hfound, hmapM], ?_, fun a => ?_, ?_⟩
  · rw [← List.map_reverse]
    exact hcompleted.map (fun component _ => g.nodup_nodes.filter _)
      fun component hc => hsame component (List.mem_reverse.1 hc)
  · rw [mem_flatten_map_congr hsame, hmem, isNode_adjacency]
  · intro component hc
    obtain ⟨names, -, rfl⟩ := List.mem_map.1 hc
    exact List.filter_sublist

theorem components?_eq_some (g : Digraph) : g.components? = some g.components := by
  obtain ⟨found, hfound, -⟩ := g.exists_components?_eq
  simp [components, hfound]

theorem areComponents_components (g : Digraph) : g.AreComponents g.components := by
  obtain ⟨components, hcomponents, h⟩ := g.exists_components?_eq
  rw [components?_eq_some] at hcomponents
  exact Option.some.inj hcomponents ▸ h

theorem cycles?_eq_some (g : Digraph) : g.cycles? = some g.cycles := by
  simp [cycles?, cycles, components?_eq_some]

theorem exists_component_iff (g : Digraph) {a : String} (ha : a ∈ g.nodes) (b : String) :
    (∃ component ∈ g.components, a ∈ component ∧ b ∈ component) ↔ Together g.Edge a b := by
  have h := g.areComponents_components
  have hmem : a ∈ g.components.reverse.flatten := by
    simpa [List.mem_flatten] using (h.mem_flatten_iff a).2 ha
  simpa using h.completed.together_iff hmem b

theorem mem_nodes_of_reach {g : Digraph} {a b : String} (hne : a ≠ b)
    (hab : ReflTransGen g.Edge a b) : a ∈ g.nodes := by
  rcases ReflTransGen.cases_head hab with heq | ⟨c, hac, -⟩
  · exact absurd heq hne
  · exact (g.ends _ hac).2.1

theorem mem_cycles {g : Digraph} {cycle : List String} :
    cycle ∈ g.cycles ↔ cycle ∈ g.components ∧ 1 < cycle.length := by
  simp [cycles, cyclesAmong]

/-- The cycles of a graph are its nodes that are together with another one. -/
theorem areCycles_cycles (g : Digraph) : AreCycles g.nodes g.Edge g.cycles where
  together_iff a b hne := by
    constructor
    · rintro ⟨cycle, hcycle, ha, hb⟩
      have hcomponent := (mem_cycles.1 hcycle).1
      have hnode := (g.areComponents_components.sublist cycle hcomponent).mem ha
      exact (g.exists_component_iff hnode b).1 ⟨cycle, hcomponent, ha, hb⟩
    · intro htogether
      have hnode := mem_nodes_of_reach hne htogether.1
      obtain ⟨component, hcomponent, ha, hb⟩ := (g.exists_component_iff hnode b).2 htogether
      refine ⟨component, mem_cycles.2 ⟨hcomponent, ?_⟩, ha, hb⟩
      by_contra hle
      match component, hle with
      | [], _ => simp at ha
      | [c], _ => exact hne ((List.mem_singleton.1 ha).trans (List.mem_singleton.1 hb).symm)
      | _ :: _ :: _, hle => simp at hle
  nodup := by
    have hnodup := g.areComponents_components.completed.nodup_flatten
    rw [List.nodup_flatten, List.pairwise_reverse] at hnodup
    rw [List.nodup_flatten]
    refine ⟨fun cycle hcycle => hnodup.1 cycle (by simp [(mem_cycles.1 hcycle).1]), ?_⟩
    exact (hnodup.2.imp List.disjoint_symm).filter _
  two_le_length cycle hcycle := (mem_cycles.1 hcycle).2
  sublist cycle hcycle := g.areComponents_components.sublist cycle (mem_cycles.1 hcycle).1

/-- The search looks at the nodes and the successors of each, and at nothing else. -/
theorem cycles_congr {g g' : Digraph} (hnodes : g.nodes = g'.nodes)
    (hsuccessors : ∀ node ∈ g.nodes, g.successors node = g'.successors node) :
    g.cycles = g'.cycles := by
  have hadjacency : g.adjacency = g'.adjacency := by
    rw [adjacency, adjacency, ← hnodes]
    exact List.map_congr_left fun node hnode => by rw [hsuccessors node hnode]
  have horder : g.inNodeOrder? = g'.inNodeOrder? := by
    funext names
    rw [inNodeOrder?, inNodeOrder?, hnodes]
  simp only [cycles, components, components?, hadjacency, horder]

end Digraph

end DesignMetrics
