import DesignMetrics.Proofs.Digraph.Components

/-!
# Where a graph ends and where it begins

Among the components of a graph the first that is completed has no edge out of it, and the last has
none into it. Such a component is a single node without successors, or without predecessors, or it
is a cycle that is left, or entered, by no edge.
-/

namespace DesignMetrics

open Relation

namespace Completed

variable {α : Type} {edge : α → α → Prop} {component : List α} {components : List (List α)}

/-- The last component of a complete list is left by no edge. -/
theorem exists_closed (h : Completed edge components) (hne : components ≠ []) :
    ∃ component ∈ components, ∀ a ∈ component, ∀ b, edge a b → b ∈ component := by
  induction components with
  | nil => exact absurd rfl hne
  | cons first rest ih =>
    by_cases hrest : rest = []
    · subst hrest
      refine ⟨first, List.mem_cons_self, fun a ha b hab => ?_⟩
      simpa using h.2.2.1 a ha b hab
    · obtain ⟨component, hmem, hclosed⟩ := ih h.2.2.2 hrest
      exact ⟨component, List.mem_cons_of_mem first hmem, hclosed⟩

/-- The first component of a complete list is entered by no edge from the list. -/
theorem mem_first (h : Completed edge (component :: components)) {a b : α}
    (ha : a ∈ (component :: components).flatten) (hb : b ∈ component) (hab : edge a b) :
    a ∈ component := by
  rw [List.flatten_cons, List.mem_append] at ha
  rcases ha with ha | ha
  · exact ha
  · exact absurd (h.2.2.2.closed ha hab) (h.2.1 b hb)

end Completed

namespace Digraph

variable {g : Digraph} {a : String} {cycle : List String}

theorem outDegree_eq_zero_iff : g.outDegree a = 0 ↔ ∀ b, ¬ g.Edge a b := by
  rw [outDegree, List.length_eq_zero_iff, List.eq_nil_iff_forall_not_mem]
  simp only [mem_successors, Edge]

theorem inDegree_eq_zero_iff : g.inDegree a = 0 ↔ ∀ b, ¬ g.Edge b a := by
  rw [inDegree, List.length_eq_zero_iff, List.eq_nil_iff_forall_not_mem]
  simp only [mem_predecessors, Edge]

/-- A component is a cycle unless it is a single node. -/
theorem eq_singleton_or_mem_cycles {component : List String} (h : component ∈ g.components) :
    (∃ a ∈ g.nodes, component = [a]) ∨ component ∈ g.cycles := by
  have hcomponents := g.areComponents_components
  have hne := (hcomponents.completed.isComponent component (List.mem_reverse.2 h)).ne_nil
  match component with
  | [] => exact absurd rfl hne
  | [a] => exact .inl ⟨a, (hcomponents.sublist [a] h).mem List.mem_cons_self, rfl⟩
  | _ :: _ :: _ => exact .inr (mem_cycles.2 ⟨h, by simp⟩)

theorem components_ne_nil (hne : g.nodes ≠ []) : g.components.reverse ≠ [] := by
  intro hnil
  obtain ⟨a, ha⟩ := List.exists_mem_of_ne_nil _ hne
  have hmem := (g.areComponents_components.mem_flatten_iff a).2 ha
  rw [List.reverse_eq_nil_iff.1 hnil] at hmem
  cases hmem

/-- A graph with nodes has one without successors, or a cycle that no edge leaves. -/
theorem exists_sink (hne : g.nodes ≠ []) :
    (∃ a ∈ g.nodes, g.outDegree a = 0) ∨
      ∃ cycle ∈ g.cycles, ∀ a ∈ cycle, ∀ b, g.Edge a b → b ∈ cycle := by
  obtain ⟨component, hmem, hclosed⟩ :=
    g.areComponents_components.completed.exists_closed (components_ne_nil hne)
  rcases eq_singleton_or_mem_cycles (List.mem_reverse.1 hmem) with ⟨a, ha, rfl⟩ | hcycle
  · refine .inl ⟨a, ha, outDegree_eq_zero_iff.2 fun b hab => ?_⟩
    have heq := List.mem_singleton.1 (hclosed a List.mem_cons_self b hab)
    exact (g.ends _ hab).1 heq.symm
  · exact .inr ⟨component, hcycle, hclosed⟩

/-- A graph with nodes has one without predecessors, or a cycle that no edge enters. -/
theorem exists_source (hne : g.nodes ≠ []) :
    (∃ a ∈ g.nodes, g.inDegree a = 0) ∨
      ∃ cycle ∈ g.cycles, ∀ b ∈ cycle, ∀ a, g.Edge a b → a ∈ cycle := by
  have hcomponents := g.areComponents_components
  obtain ⟨first, rest, hreverse⟩ := List.exists_cons_of_ne_nil (components_ne_nil hne)
  have hmem : first ∈ g.components := by
    rw [← List.mem_reverse, hreverse]
    exact List.mem_cons_self
  have hcompleted := hcomponents.completed
  rw [hreverse] at hcompleted
  have hentered : ∀ b ∈ first, ∀ a, g.Edge a b → a ∈ first := by
    intro b hb a hab
    apply hcompleted.mem_first _ hb hab
    have ha := (hcomponents.mem_flatten_iff a).2 (g.ends _ hab).2.1
    rw [← hreverse]
    simpa [List.mem_flatten] using ha
  rcases eq_singleton_or_mem_cycles hmem with ⟨b, hb, rfl⟩ | hcycle
  · refine .inl ⟨b, hb, inDegree_eq_zero_iff.2 fun a hab => ?_⟩
    have heq := List.mem_singleton.1 (hentered b List.mem_cons_self a hab)
    exact (g.ends _ hab).1 heq
  · exact .inr ⟨first, hcycle, hentered⟩

/-- A node of a cycle has successors and predecessors. -/
theorem one_le_degrees_of_mem_cycle (hcycle : cycle ∈ g.cycles) (ha : a ∈ cycle) :
    1 ≤ g.inDegree a ∧ 1 ≤ g.outDegree a := by
  obtain ⟨b, -, hba⟩ := g.areCycles_cycles.exists_edge_to hcycle ha
  obtain ⟨c, -, hac⟩ := g.areCycles_cycles.exists_edge_from hcycle ha
  constructor
  · apply Nat.one_le_iff_ne_zero.2
    intro hzero
    exact inDegree_eq_zero_iff.1 hzero b hba
  · apply Nat.one_le_iff_ne_zero.2
    intro hzero
    exact outDegree_eq_zero_iff.1 hzero c hac

end Digraph

end DesignMetrics
