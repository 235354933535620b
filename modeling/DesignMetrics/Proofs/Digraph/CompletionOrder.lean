import DesignMetrics.Proofs.Digraph.Partition

/-!
# The order of components

The search completes a component only when all that it leads to is complete. So among the components
of a graph, and among its cycles, nothing leads from an earlier one to a later one: what others
depend on comes first. When there are no cycles, the components put together are an order of the
nodes in which the target of every edge precedes its source.
-/

namespace DesignMetrics

open Relation

variable {α : Type} {edge : α → α → Prop}

/-- Some node of the second list is reached from the first one. -/
def LeadsTo (edge : α → α → Prop) (source target : List α) : Prop :=
  ∃ a ∈ source, ∃ b ∈ target, ReflTransGen edge a b

/-- In a complete list the components that stand behind another one do not lead to it. -/
theorem Completed.pairwise {components : List (List α)} (h : Completed edge components) :
    components.Pairwise fun component behind => ¬ LeadsTo edge behind component := by
  induction components with
  | nil => exact .nil
  | cons first rest ih =>
    refine List.pairwise_cons.2 ⟨fun behind hbehind hleads => ?_, ih h.2.2.2⟩
    obtain ⟨a, ha, b, hb, hreach⟩ := hleads
    -- the rest is closed under edges, so that it would share a node with the first component
    have hflat : a ∈ rest.flatten := List.mem_flatten.2 ⟨behind, hbehind, ha⟩
    exact h.2.1 b hb (h.2.2.2.closed_of_reach hflat hreach)

/-- Two different entries of a list stand in it one before the other. -/
theorem sublist_or_sublist_of_mem {l : List α} {a b : α} (ha : a ∈ l) (hb : b ∈ l) (hne : a ≠ b) :
    [a, b].Sublist l ∨ [b, a].Sublist l := by
  obtain ⟨before, after, rfl⟩ := List.append_of_mem ha
  rw [List.mem_append, List.mem_cons] at hb
  rcases hb with hb | rfl | hb
  · right
    have hfirst : [b].Sublist before := List.singleton_sublist.2 hb
    have hsecond : [a].Sublist (a :: after) := List.singleton_sublist.2 List.mem_cons_self
    exact hfirst.append hsecond
  · exact absurd rfl hne
  · left
    have hpair : [a, b].Sublist (a :: after) := (List.singleton_sublist.2 hb).cons_cons a
    exact hpair.trans (List.sublist_append_right before _)

namespace Digraph

variable {g : Digraph}

/-- What others depend on comes first. -/
def DependenciesFirst (edge : String → String → Prop) (components : List (List String)) : Prop :=
  components.Pairwise fun earlier later => ¬ LeadsTo edge earlier later

theorem dependenciesFirst_components (g : Digraph) : DependenciesFirst g.Edge g.components := by
  have hpairwise := g.areComponents_components.completed.pairwise
  rwa [List.pairwise_reverse] at hpairwise

theorem dependenciesFirst_cycles (g : Digraph) : DependenciesFirst g.Edge g.cycles :=
  g.dependenciesFirst_components.filter _

/-- A list does not stand behind one that leads to it. -/
theorem DependenciesFirst.le {edge : String → String → Prop} {components : List (List String)}
    (h : DependenciesFirst edge components) {i j : Nat} {hi : i < components.length}
    {hj : j < components.length} (hleads : LeadsTo edge components[i] components[j]) : j ≤ i := by
  by_contra hlt
  exact List.pairwise_iff_getElem.1 h i j hi hj (by omega) hleads

/-- Without cycles every component is a single node. -/
theorem length_component_of_cycles_eq_nil (hcycles : g.cycles = []) {component : List String}
    (hmem : component ∈ g.components) : component.length ≤ 1 := by
  by_contra hlength
  have hcycle : component ∈ g.cycles := mem_cycles.2 ⟨hmem, by omega⟩
  rw [hcycles] at hcycle
  cases hcycle

/-- Without cycles no node leads to one behind it. -/
theorem pairwise_flatten_of_cycles_eq_nil (hcycles : g.cycles = []) :
    g.components.flatten.Pairwise fun earlier later => ¬ ReflTransGen g.Edge earlier later := by
  refine List.pairwise_flatten.2 ⟨fun component hmem => ?_, ?_⟩
  · have hlength := length_component_of_cycles_eq_nil hcycles hmem
    match component, hlength with
    | [], _ => exact .nil
    | [a], _ => exact List.pairwise_singleton _ a
  · refine g.dependenciesFirst_components.imp fun hnot a ha b hb hreach => ?_
    exact hnot ⟨a, ha, b, hb, hreach⟩

theorem target_before_source (hcycles : g.cycles = []) {source target : String}
    (hedge : g.Edge source target) : [target, source].Sublist g.components.flatten := by
  obtain ⟨hne, hsource, htarget⟩ := g.ends _ hedge
  have hmem := g.areComponents_components.mem_flatten_iff
  refine (sublist_or_sublist_of_mem ((hmem source).2 hsource) ((hmem target).2 htarget)
    hne).resolve_left fun hsublist => ?_
  exact List.pairwise_iff_forall_sublist.1 (pairwise_flatten_of_cycles_eq_nil hcycles) hsublist
    (.single hedge)

/-- Components and cycles in the order in which nodes depend on each other. -/
structure InDependencyOrder (nodes : List String) (edge : String → String → Prop)
    (components cycles : List (List String)) : Prop where
  exists_component : ∀ a ∈ nodes, ∃ component ∈ components, a ∈ component
  component_le : ∀ source target, edge source target →
    ∀ (i j : Nat) (hi : i < components.length) (hj : j < components.length),
      source ∈ components[i] → target ∈ components[j] → j ≤ i
  cycle_lt : ∀ (i j : Nat) (hi : i < cycles.length) (hj : j < cycles.length), i ≠ j →
    LeadsTo edge cycles[i] cycles[j] → j < i
  /-- Without cycles the components put together are an order of the nodes. -/
  order : cycles = [] → components.flatten.Perm nodes ∧
    ∀ source target, edge source target → [target, source].Sublist components.flatten

theorem inDependencyOrder_components (g : Digraph) :
    InDependencyOrder g.nodes g.Edge g.components g.cycles where
  exists_component a ha :=
    List.mem_flatten.1 ((g.areComponents_components.mem_flatten_iff a).2 ha)
  component_le source target hedge _ _ _ _ hsource htarget :=
    g.dependenciesFirst_components.le ⟨source, hsource, target, htarget, .single hedge⟩
  cycle_lt _ _ _ _ hne hleads :=
    lt_of_le_of_ne (g.dependenciesFirst_cycles.le hleads) hne.symm
  order hcycles :=
    ⟨g.divides_components.perm, fun _ _ hedge => target_before_source hcycles hedge⟩

/-- In a graph that was made by any calls the component of a target stands no later than that of the
source, so that the cycles that others depend on come first, and without cycles the nodes come in an
order in which targets precede their sources. -/
theorem inDependencyOrder_performAll (names : List String) (calls : List Addition) :
    ∃ components cycles, ((ofNodes names).performAll calls).components? = some components ∧
      ((ofNodes names).performAll calls).cycles? = some cycles ∧
      InDependencyOrder (firstOccurrences names) (Stored names calls) components cycles := by
  have horder := inDependencyOrder_components ((ofNodes names).performAll calls)
  rw [edge_performAll, nodes_performAll] at horder
  exact ⟨_, _, components?_eq_some _, cycles?_eq_some _, horder⟩

end Digraph

end DesignMetrics
