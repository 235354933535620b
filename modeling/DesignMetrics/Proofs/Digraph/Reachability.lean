import Mathlib.Data.List.Nodup
import Mathlib.Data.List.Pairwise
import Mathlib.Logic.Relation

/-!
# Reachability and components

What a strongly connected component of a relation is, and what it means for a list of components to
be complete: no edge leads from one of them to a node outside it and the ones before it. A search
that finds components one after the other keeps its list complete, so that it can never come back to
a component.
-/

namespace DesignMetrics

open Relation

variable {α : Type} {edge : α → α → Prop}

/-- Each of two nodes reaches the other. -/
def Together (edge : α → α → Prop) (a b : α) : Prop := ReflTransGen edge a b ∧ ReflTransGen edge b a

theorem Together.symm {a b : α} (h : Together edge a b) : Together edge b a := ⟨h.2, h.1⟩

theorem Together.trans {a b c : α} (hab : Together edge a b) (hbc : Together edge b c) :
    Together edge a c :=
  ⟨hab.1.trans hbc.1, hbc.2.trans hab.2⟩

theorem Together.mono {edge' : α → α → Prop} {a b : α} (h : Together edge a b)
    (hmono : ∀ a b, edge a b → edge' a b) : Together edge' a b :=
  ⟨ReflTransGen.mono hmono _ _ h.1, ReflTransGen.mono hmono _ _ h.2⟩

/-- A list of the nodes that are together with any one of it, without repeats. -/
structure IsComponent (edge : α → α → Prop) (component : List α) : Prop where
  ne_nil : component ≠ []
  nodup : component.Nodup
  mem_iff : ∀ a ∈ component, ∀ b, b ∈ component ↔ Together edge a b

/-- Components of which each is left by edges into later ones of the list alone. -/
def Completed (edge : α → α → Prop) : List (List α) → Prop
  | [] => True
  | component :: rest =>
    IsComponent edge component ∧ (∀ a ∈ component, a ∉ rest.flatten) ∧
      (∀ a ∈ component, ∀ b, edge a b → b ∈ component ∨ b ∈ rest.flatten) ∧ Completed edge rest

namespace Completed

theorem isComponent {components : List (List α)} (h : Completed edge components) :
    ∀ component ∈ components, IsComponent edge component := by
  induction components with
  | nil => simp
  | cons first rest ih =>
    intro component hmem
    rcases List.mem_cons.1 hmem with rfl | hmem
    · exact h.1
    · exact ih h.2.2.2 component hmem

theorem closed {components : List (List α)} (h : Completed edge components) {a b : α}
    (ha : a ∈ components.flatten) (hab : edge a b) : b ∈ components.flatten := by
  induction components with
  | nil => simp at ha
  | cons first rest ih =>
    rw [List.flatten_cons, List.mem_append] at ha ⊢
    rcases ha with ha | ha
    · exact h.2.2.1 a ha b hab
    · exact Or.inr (ih h.2.2.2 ha)

theorem closed_of_reach {components : List (List α)} (h : Completed edge components) {a b : α}
    (ha : a ∈ components.flatten) (hab : ReflTransGen edge a b) : b ∈ components.flatten := by
  induction hab with
  | refl => exact ha
  | tail _ hedge ih => exact h.closed ih hedge

theorem nodup_flatten {components : List (List α)} (h : Completed edge components) :
    components.flatten.Nodup := by
  induction components with
  | nil => simp
  | cons first rest ih =>
    rw [List.flatten_cons, List.nodup_append]
    exact ⟨h.1.nodup, ih h.2.2.2, fun a ha b hb heq => h.2.1 a ha (heq ▸ hb)⟩

/-- A node of a complete list is in one component with the nodes together with it, and no others. -/
theorem together_iff {components : List (List α)} (h : Completed edge components) {a : α}
    (ha : a ∈ components.flatten) (b : α) :
    (∃ component ∈ components, a ∈ component ∧ b ∈ component) ↔ Together edge a b := by
  constructor
  · rintro ⟨component, hmem, hca, hcb⟩
    exact ((h.isComponent component hmem).mem_iff a hca b).1 hcb
  · intro hab
    obtain ⟨component, hmem, hca⟩ := List.mem_flatten.1 ha
    exact ⟨component, hmem, hca, ((h.isComponent component hmem).mem_iff a hca b).2 hab⟩

end Completed

/-- A component stays one when its nodes are listed in another order. -/
theorem IsComponent.congr {component other : List α} (h : IsComponent edge component)
    (hnodup : other.Nodup) (hmem : ∀ a, a ∈ other ↔ a ∈ component) : IsComponent edge other where
  ne_nil := by
    obtain ⟨a, ha⟩ := List.exists_mem_of_ne_nil component h.ne_nil
    exact List.ne_nil_of_mem ((hmem a).2 ha)
  nodup := hnodup
  mem_iff a ha b := by rw [hmem]; exact h.mem_iff a ((hmem a).1 ha) b

theorem mem_flatten_map_congr {f : List α → List α} {components : List (List α)}
    (hmem : ∀ component ∈ components, ∀ a, a ∈ f component ↔ a ∈ component) (a : α) :
    a ∈ (components.map f).flatten ↔ a ∈ components.flatten := by
  simp only [List.mem_flatten, List.mem_map, exists_exists_and_eq_and]
  exact exists_congr fun component => and_congr_right fun h => hmem component h a

theorem Completed.map {f : List α → List α} {components : List (List α)}
    (h : Completed edge components)
    (hnodup : ∀ component ∈ components, (f component).Nodup)
    (hmem : ∀ component ∈ components, ∀ a, a ∈ f component ↔ a ∈ component) :
    Completed edge (components.map f) := by
  induction components with
  | nil => trivial
  | cons first rest ih =>
    have hfirst := hmem first List.mem_cons_self
    have hrest : ∀ component ∈ rest, ∀ a, a ∈ f component ↔ a ∈ component := fun component hc =>
      hmem component (List.mem_cons_of_mem first hc)
    have hflatten := mem_flatten_map_congr hrest
    refine ⟨h.1.congr (hnodup first List.mem_cons_self) hfirst, fun a ha => ?_,
      fun a ha b hab => ?_,
      ih h.2.2.2 (fun component hc => hnodup component (List.mem_cons_of_mem first hc)) hrest⟩
    · rw [hflatten]
      exact h.2.1 a ((hfirst a).1 ha)
    · rw [hfirst, hflatten]
      exact h.2.2.1 a ((hfirst a).1 ha) b hab

/-! ## Cycles -/

/-- No node reaches itself along one or more edges. -/
def Acyclic (edge : α → α → Prop) : Prop := ∀ a, ¬ TransGen edge a a

/-- Lists of the nodes that are together with another one. Every node is in one of them at most, and
is there once. -/
structure AreCycles (nodes : List α) (edge : α → α → Prop) (cycles : List (List α)) : Prop where
  together_iff : ∀ a b, a ≠ b →
    ((∃ cycle ∈ cycles, a ∈ cycle ∧ b ∈ cycle) ↔ Together edge a b)
  nodup : cycles.flatten.Nodup
  two_le_length : ∀ cycle ∈ cycles, 2 ≤ cycle.length
  sublist : ∀ cycle ∈ cycles, cycle.Sublist nodes

namespace AreCycles

variable {nodes : List α} {cycles : List (List α)}

theorem exists_ne_mem (h : AreCycles nodes edge cycles) {cycle : List α} (hcycle : cycle ∈ cycles) :
    ∃ a ∈ cycle, ∃ b ∈ cycle, a ≠ b := by
  have hnodup : cycle.Nodup := (List.nodup_flatten.1 h.nodup).1 cycle hcycle
  match cycle, h.two_le_length cycle hcycle with
  | a :: b :: rest, _ =>
    refine ⟨a, by simp, b, by simp, fun heq => ?_⟩
    simp [heq] at hnodup

/-- A cycle holds the nodes that are together with any one of it. -/
theorem mem_iff (h : AreCycles nodes edge cycles) {cycle : List α} (hcycle : cycle ∈ cycles) {a : α}
    (ha : a ∈ cycle) (b : α) : b ∈ cycle ↔ Together edge a b := by
  by_cases hne : a = b
  · subst hne
    exact ⟨fun _ => ⟨.refl, .refl⟩, fun _ => ha⟩
  · rw [← h.together_iff a b hne]
    refine ⟨fun hb => ⟨cycle, hcycle, ha, hb⟩, fun ⟨other, hother, ha', hb⟩ => ?_⟩
    have : Std.Symm (List.Disjoint (α := α)) := ⟨fun _ _ => List.disjoint_symm⟩
    by_contra hb'
    have hother_ne : cycle ≠ other := fun heq => hb' (heq ▸ hb)
    exact (List.nodup_flatten.1 h.nodup).2.forall hcycle hother hother_ne ha ha'

theorem exists_together (h : AreCycles nodes edge cycles) {cycle : List α} (hcycle : cycle ∈ cycles)
    {a : α} (ha : a ∈ cycle) : ∃ b ∈ cycle, a ≠ b ∧ Together edge a b := by
  obtain ⟨x, hx, y, hy, hxy⟩ := h.exists_ne_mem hcycle
  by_cases hax : a = x
  · exact ⟨y, hy, hax ▸ hxy, (h.mem_iff hcycle ha y).1 hy⟩
  · exact ⟨x, hx, hax, (h.mem_iff hcycle ha x).1 hx⟩

/-- The way from a node to another one of its cycle begins with an edge that stays in the cycle. -/
theorem exists_edge_from (h : AreCycles nodes edge cycles) {cycle : List α}
    (hcycle : cycle ∈ cycles) {a : α} (ha : a ∈ cycle) : ∃ b ∈ cycle, edge a b := by
  obtain ⟨b, -, hne, hab, hba⟩ := h.exists_together hcycle ha
  rcases ReflTransGen.cases_head hab with heq | ⟨c, hac, hcb⟩
  · exact absurd heq hne
  · exact ⟨c, (h.mem_iff hcycle ha c).2 ⟨.single hac, hcb.trans hba⟩, hac⟩

/-- The way back ends with an edge that comes from the cycle. -/
theorem exists_edge_to (h : AreCycles nodes edge cycles) {cycle : List α}
    (hcycle : cycle ∈ cycles) {a : α} (ha : a ∈ cycle) : ∃ b ∈ cycle, edge b a := by
  obtain ⟨b, -, hne, hab, hba⟩ := h.exists_together hcycle ha
  rcases ReflTransGen.cases_tail hba with heq | ⟨c, hbc, hca⟩
  · exact absurd heq hne
  · exact ⟨c, (h.mem_iff hcycle ha c).2 ⟨hab.trans hbc, .single hca⟩, hca⟩

/-- The same edges make the same cycles, in whatever order the nodes stand. -/
theorem exists_same (h : AreCycles nodes edge cycles) {nodes' : List α} {cycles' : List (List α)}
    (h' : AreCycles nodes' edge cycles') {cycle : List α} (hcycle : cycle ∈ cycles) :
    ∃ cycle' ∈ cycles', ∀ a, a ∈ cycle' ↔ a ∈ cycle := by
  obtain ⟨a, ha, b, hb, hne⟩ := h.exists_ne_mem hcycle
  have htogether := (h.mem_iff hcycle ha b).1 hb
  obtain ⟨cycle', hcycle', ha', -⟩ := (h'.together_iff a b hne).2 htogether
  exact ⟨cycle', hcycle', fun c => by rw [h'.mem_iff hcycle' ha' c, h.mem_iff hcycle ha c]⟩

/-- More edges make larger cycles: what is together stays together. -/
theorem exists_superset (h : AreCycles nodes edge cycles) {nodes' : List α} {edge' : α → α → Prop}
    {cycles' : List (List α)} (h' : AreCycles nodes' edge' cycles')
    (hmono : ∀ a b, edge a b → edge' a b) {cycle : List α} (hcycle : cycle ∈ cycles) :
    ∃ cycle' ∈ cycles', cycle ⊆ cycle' := by
  obtain ⟨a, ha, b, hb, hne⟩ := h.exists_ne_mem hcycle
  have htogether : ∀ c ∈ cycle, Together edge' a c := fun c hc =>
    ((h.mem_iff hcycle ha c).1 hc).mono hmono
  obtain ⟨cycle', hcycle', ha', -⟩ := (h'.together_iff a b hne).2 (htogether b hb)
  exact ⟨cycle', hcycle', fun c hc => (h'.mem_iff hcycle' ha' c).2 (htogether c hc)⟩

/-- Without edges from a node to itself, no cycles is the same as acyclic. -/
theorem eq_nil_iff (h : AreCycles nodes edge cycles) (hirrefl : ∀ a, ¬ edge a a) :
    cycles = [] ↔ Acyclic edge := by
  constructor
  · rintro rfl a hcycle
    obtain ⟨b, hab, hba⟩ := TransGen.head'_iff.1 hcycle
    have hne : a ≠ b := fun heq => hirrefl a (heq ▸ hab)
    obtain ⟨cycle, hmem, -⟩ := (h.together_iff a b hne).2 ⟨.single hab, hba⟩
    simp at hmem
  · intro hacyclic
    refine List.eq_nil_iff_forall_not_mem.2 fun cycle hcycle => ?_
    obtain ⟨a, ha, b, hb, hne⟩ := h.exists_ne_mem hcycle
    obtain ⟨hab, hba⟩ := (h.together_iff a b hne).1 ⟨cycle, hcycle, ha, hb⟩
    rcases ReflTransGen.cases_head hab with heq | ⟨c, hac, hcb⟩
    · exact hne heq
    · exact hacyclic a (TransGen.head' hac (hcb.trans hba))

end AreCycles

end DesignMetrics
