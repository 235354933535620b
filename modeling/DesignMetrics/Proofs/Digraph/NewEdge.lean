import DesignMetrics.Proofs.Digraph.Partition
import Mathlib.Data.Set.Lattice

/-!
# One more edge

A path that takes a new edge comes to its source by old edges and goes on from its target by old
ones. So a new edge brings nodes together only where its target led back to its source: everything
on the paths between the two becomes one component, and the other components stay as they are.
-/

namespace DesignMetrics

open Relation

section Reachability

variable {α : Type} {edge : α → α → Prop} {source target a b c : α}

/-- A relation with one more edge. -/
def WithEdge (edge : α → α → Prop) (source target a b : α) : Prop :=
  edge a b ∨ a = source ∧ b = target

/-- On a path from the first node to the last. -/
def Between (edge : α → α → Prop) (first last a : α) : Prop :=
  ReflTransGen edge first a ∧ ReflTransGen edge a last

theorem Between.of_together {first last : α} (ha : Between edge first last a)
    (hab : Together edge a b) : Between edge first last b :=
  ⟨ha.1.trans hab.1, hab.2.trans ha.2⟩

theorem reach_withEdge : ReflTransGen (WithEdge edge source target) a b ↔
    ReflTransGen edge a b ∨ ReflTransGen edge a source ∧ ReflTransGen edge target b := by
  have hold : ∀ {a b}, ReflTransGen edge a b → ReflTransGen (WithEdge edge source target) a b :=
    fun h => ReflTransGen.mono (fun _ _ => .inl) _ _ h
  constructor
  · intro h
    -- the last use of the new edge is what counts: behind it the path is an old one
    induction h with
    | refl => exact .inl .refl
    | tail _ hstep ih =>
      rcases hstep with hedge | ⟨rfl, rfl⟩
      · exact ih.imp (·.tail hedge) fun h => ⟨h.1, h.2.tail hedge⟩
      · exact .inr ⟨ih.elim id (·.1), .refl⟩
  · rintro (h | ⟨hsource, htarget⟩)
    · exact hold h
    · have hnew : WithEdge edge source target source target := .inr ⟨rfl, rfl⟩
      exact ((hold hsource).tail hnew).trans (hold htarget)

/-- A new edge brings the nodes together that are on a path from its target to its source. -/
theorem together_withEdge : Together (WithEdge edge source target) a b ↔
    Together edge a b ∨ Between edge target source a ∧ Between edge target source b := by
  rw [Together, reach_withEdge, reach_withEdge]
  constructor
  · rintro ⟨hab | ⟨has, htb⟩, hba | ⟨hbs, hta⟩⟩
    · exact .inl ⟨hab, hba⟩
    · exact .inr ⟨⟨hta, hab.trans hbs⟩, hta.trans hab, hbs⟩
    · exact .inr ⟨⟨htb.trans hba, has⟩, htb, hba.trans has⟩
    · exact .inr ⟨⟨hta, has⟩, htb, hbs⟩
  · rintro (h | ⟨ha, hb⟩)
    · exact ⟨.inl h.1, .inl h.2⟩
    · exact ⟨.inr ⟨ha.2, hb.1⟩, .inr ⟨hb.2, ha.1⟩⟩

theorem together_withEdge_of_between (ha : Between edge target source a) :
    Together (WithEdge edge source target) a b ↔ Between edge target source b := by
  rw [together_withEdge]
  exact ⟨fun h => h.elim (fun hab => ha.of_together hab) (·.2), fun hb => .inr ⟨ha, hb⟩⟩

theorem together_withEdge_of_not_between (ha : ¬ Between edge target source a) :
    Together (WithEdge edge source target) a b ↔ Together edge a b := by
  rw [together_withEdge]
  exact ⟨fun h => h.resolve_right fun hboth => ha hboth.1, .inl⟩

end Reachability

namespace Digraph

variable {g : Digraph} {source target : String}

/-- The sets of nodes of some lists. -/
def nodeSets (components : List (List String)) : Set (Set String) :=
  {set | ∃ component ∈ components, set = {a | a ∈ component}}

theorem mem_nodeSets_components {set : Set String} :
    set ∈ nodeSets g.components ↔ ∃ a ∈ g.nodes, set = {b | Together g.Edge a b} := by
  have hcomponents := g.areComponents_components
  have hclass : ∀ component ∈ g.components, ∀ a ∈ component,
      {b | b ∈ component} = {b | Together g.Edge a b} := by
    intro component hmem a ha
    have hcomponent := hcomponents.completed.isComponent component (List.mem_reverse.2 hmem)
    exact Set.ext (hcomponent.mem_iff a ha)
  constructor
  · rintro ⟨component, hmem, rfl⟩
    obtain ⟨a, ha⟩ := List.exists_mem_of_ne_nil _ (g.divides_components.ne_nil component hmem)
    exact ⟨a, (hcomponents.sublist component hmem).mem ha, hclass component hmem a ha⟩
  · rintro ⟨a, ha, rfl⟩
    obtain ⟨component, hmem, hac⟩ := List.mem_flatten.1 ((hcomponents.mem_flatten_iff a).2 ha)
    exact ⟨component, hmem, (hclass component hmem a hac).symm⟩

theorem edge_addEdge (hadmits : g.Admits source target) :
    (g.addEdge source target).Edge = WithEdge g.Edge source target := by
  funext a b
  rw [eq_iff_iff, Edge, arcs_addEdge, WithEdge, ← Prod.mk.injEq]
  by_cases hmem : (source, target) ∈ g.arcs
  · rw [if_neg fun h => h.2 hmem]
    refine ⟨.inl, fun h => h.elim id fun heq => ?_⟩
    rwa [heq]
  · rw [if_pos ⟨hadmits, hmem⟩, List.mem_append, List.mem_singleton]
    rfl

theorem addEdge_of_not_admits (hadmits : ¬ g.Admits source target) :
    (g.addEdge source target).Edge = g.Edge := by
  funext a b
  rw [Edge, arcs_addEdge, if_neg fun h => hadmits h.1]
  rfl

/-- Some node of the set is on a path from the first node to the last. -/
def LiesBetween (g : Digraph) (first last : String) (set : Set String) : Prop :=
  ∃ a ∈ set, Between g.Edge first last a

theorem liesBetween_together {a : String} :
    g.LiesBetween target source {b | Together g.Edge a b} ↔ Between g.Edge target source a := by
  constructor
  · rintro ⟨b, hab, hb⟩
    exact hb.of_together hab.symm
  · exact fun ha => ⟨a, ⟨.refl, .refl⟩, ha⟩

theorem nodeSets_congr {g' : Digraph} (hnodes : g.nodes = g'.nodes)
    (htogether : ∀ a b, Together g.Edge a b ↔ Together g'.Edge a b) :
    nodeSets g.components = nodeSets g'.components := by
  ext set
  rw [mem_nodeSets_components, mem_nodeSets_components, hnodes]
  simp only [htogether]

/-- Where the target did not lead back to the source, no path uses the new edge to come back. -/
theorem nodeSets_addEdge_of_not_reach
    (h : ¬ g.Admits source target ∨ ¬ ReflTransGen g.Edge target source) :
    nodeSets (g.addEdge source target).components = nodeSets g.components := by
  refine nodeSets_congr (nodes_addEdge g source target) fun a b => ?_
  by_cases hadmits : g.Admits source target
  · have hreach := h.resolve_left (not_not.2 hadmits)
    rw [edge_addEdge hadmits]
    exact together_withEdge_of_not_between fun ha => hreach (ha.1.trans ha.2)
  · rw [addEdge_of_not_admits hadmits]

theorem sUnion_liesBetween (htarget : target ∈ g.nodes) :
    ⋃₀ {set ∈ nodeSets g.components | g.LiesBetween target source set} =
      {b | Between g.Edge target source b} := by
  ext b
  constructor
  · rintro ⟨set, ⟨hset, hlies⟩, hb⟩
    obtain ⟨a, -, rfl⟩ := mem_nodeSets_components.1 hset
    exact (liesBetween_together.1 hlies).of_together hb
  · intro hb
    have hnode : b ∈ g.nodes := by
      rcases ReflTransGen.cases_tail hb.1 with rfl | ⟨c, -, hedge⟩
      · exact htarget
      · exact (g.ends _ hedge).2.2
    exact ⟨{c | Together g.Edge b c},
      ⟨mem_nodeSets_components.2 ⟨b, hnode, rfl⟩, liesBetween_together.2 hb⟩, ⟨.refl, .refl⟩⟩

theorem nodeSets_addEdge (hadmits : g.Admits source target)
    (hreach : ReflTransGen g.Edge target source) :
    nodeSets (g.addEdge source target).components =
      insert {b | Between g.Edge target source b}
        {set ∈ nodeSets g.components | ¬ g.LiesBetween target source set} := by
  ext set
  rw [mem_nodeSets_components, nodes_addEdge, edge_addEdge hadmits, Set.mem_insert_iff]
  constructor
  · rintro ⟨a, ha, rfl⟩
    by_cases hbetween : Between g.Edge target source a
    · left
      ext b
      exact together_withEdge_of_between hbetween
    · right
      have hclass : {b | Together (WithEdge g.Edge source target) a b} =
          {b | Together g.Edge a b} :=
        Set.ext fun b => together_withEdge_of_not_between hbetween
      rw [hclass]
      exact ⟨mem_nodeSets_components.2 ⟨a, ha, rfl⟩, fun h => hbetween (liesBetween_together.1 h)⟩
  · rintro (rfl | ⟨hset, hlies⟩)
    · refine ⟨source, hadmits.2.1, Set.ext fun b => ?_⟩
      exact (together_withEdge_of_between ⟨hreach, .refl⟩).symm
    · obtain ⟨a, ha, rfl⟩ := mem_nodeSets_components.1 hset
      refine ⟨a, ha, Set.ext fun b => (together_withEdge_of_not_between fun hbetween => ?_).symm⟩
      exact hlies (liesBetween_together.2 hbetween)

/-- A cycle that one edge closes in a graph without cycles has both ends of the edge. -/
theorem ends_mem_of_mem_cycles_addEdge (hcycles : g.cycles = []) {cycle : List String}
    (hcycle : cycle ∈ (g.addEdge source target).cycles) : source ∈ cycle ∧ target ∈ cycle := by
  have hareCycles := (g.addEdge source target).areCycles_cycles
  obtain ⟨a, ha, b, hb, hne⟩ := hareCycles.exists_ne_mem hcycle
  have hapart : ¬ Together g.Edge a b := by
    rw [← g.areCycles_cycles.together_iff a b hne, hcycles]
    simp
  have htogether := (hareCycles.mem_iff hcycle ha b).1 hb
  by_cases hadmits : g.Admits source target
  · rw [edge_addEdge hadmits] at hareCycles htogether
    have hbetween := ((together_withEdge.1 htogether).resolve_left hapart).1
    have hmem := fun c => (hareCycles.mem_iff hcycle ha c).trans
      (together_withEdge_of_between hbetween)
    have hreach := hbetween.1.trans hbetween.2
    exact ⟨(hmem source).2 ⟨hreach, .refl⟩, (hmem target).2 ⟨.refl, hreach⟩⟩
  · rw [addEdge_of_not_admits hadmits] at htogether
    exact absurd htogether hapart

theorem length_cycles_addEdge_le_one (hcycles : g.cycles = []) :
    (g.addEdge source target).cycles.length ≤ 1 := by
  have hends : ∀ cycle ∈ (g.addEdge source target).cycles, source ∈ cycle ∧ target ∈ cycle :=
    fun _ => ends_mem_of_mem_cycles_addEdge hcycles
  have hnodup := (List.nodup_flatten.1 (g.addEdge source target).areCycles_cycles.nodup).2
  match (g.addEdge source target).cycles, hends, hnodup with
  | [], _, _ => simp
  | [_], _, _ => simp
  | first :: second :: _, hends, hnodup =>
    have hdisjoint := (List.pairwise_cons.1 hnodup).1 second List.mem_cons_self
    have hfirst := (hends first List.mem_cons_self).1
    have hsecond := (hends second (List.mem_cons_of_mem first List.mem_cons_self)).1
    exact absurd hsecond (hdisjoint hfirst)

/-- One new edge changes the components only where it has to. If it is not taken, or its target did
not lead back to its source, they stay as they are. Otherwise those between its target and its
source become one, in which both of its ends are, and the others stay. So a first cycle is the only
one, and it has both ends of the edge that closed it. -/
theorem components_addEdge (g : Digraph) (source target : String) :
    ∃ before after, g.components? = some before ∧
      (g.addEdge source target).components? = some after ∧
      (¬ g.Admits source target ∨ ¬ ReflTransGen g.Edge target source →
        nodeSets after = nodeSets before) ∧
      (g.Admits source target → ReflTransGen g.Edge target source →
        ∃ merged, source ∈ merged ∧ target ∈ merged ∧
          merged = ⋃₀ {set ∈ nodeSets before | g.LiesBetween target source set} ∧
          nodeSets after =
            insert merged {set ∈ nodeSets before | ¬ g.LiesBetween target source set}) ∧
      (g.cycles? = some [] → ∃ cycles, (g.addEdge source target).cycles? = some cycles ∧
        cycles.length ≤ 1 ∧ ∀ cycle ∈ cycles, source ∈ cycle ∧ target ∈ cycle) := by
  refine ⟨g.components, (g.addEdge source target).components, components?_eq_some _,
    components?_eq_some _, nodeSets_addEdge_of_not_reach, fun hadmits hreach => ?_,
    fun hcycles => ?_⟩
  · rw [sUnion_liesBetween hadmits.2.2]
    exact ⟨{b | Between g.Edge target source b}, ⟨hreach, .refl⟩, ⟨.refl, hreach⟩, rfl,
      nodeSets_addEdge hadmits hreach⟩
  · rw [cycles?_eq_some, Option.some.injEq] at hcycles
    exact ⟨_, cycles?_eq_some _, length_cycles_addEdge_le_one hcycles,
      fun _ => ends_mem_of_mem_cycles_addEdge hcycles⟩

end Digraph

end DesignMetrics
