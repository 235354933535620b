import DesignMetrics.Model.EdgeMap
import DesignMetrics.Proofs.Names.Distinct
import Mathlib.Data.List.Nodup

/-!
# The pairs of an edge map

An edge map is its pairs of a source and a target, up to their order and to sources without targets.
Every pair stands in the map once.
-/

namespace DesignMetrics.EdgeMap

/-- The pairs of a source and one of its targets. -/
def pairs (m : EdgeMap) : List (String × String) :=
  m.adjacency.flatMap fun entry => entry.2.map (entry.1, ·)

theorem lookup_eq_some_iff {entries : List (String × NameSet)}
    (h : (entries.map (·.1)).Nodup) {source : String} {targets : NameSet} :
    entries.lookup source = some targets ↔ (source, targets) ∈ entries := by
  induction entries with
  | nil => simp
  | cons entry rest ih =>
    obtain ⟨first, old⟩ := entry
    rw [List.map_cons, List.nodup_cons] at h
    by_cases heq : source = first
    · subst heq
      have hnot : (source, targets) ∉ rest := fun hmem => h.1 (List.mem_map.2 ⟨_, hmem, rfl⟩)
      simp [hnot, eq_comm]
    · have hne : (source == first) = false := by simpa using heq
      simp [List.lookup_cons, hne, heq, ih h.2]

theorem mem_pairs {m : EdgeMap} {source target : String} :
    (source, target) ∈ m.pairs ↔ target ∈ m.targets source := by
  have hlookup :
      ∀ targets, m.entries.lookup source = some targets ↔ (source, targets) ∈ m.entries :=
    fun targets => lookup_eq_some_iff m.nodup_sources
  simp only [pairs, adjacency, List.mem_flatMap, List.mem_map]
  constructor
  · rintro ⟨_, ⟨entry, hentry, rfl⟩, target', htarget, heq⟩
    cases heq
    rw [targets, (hlookup entry.2).2 hentry]
    exact htarget
  · intro htarget
    unfold targets at htarget
    cases h : m.entries.lookup source with
    | none => simp [h, EmptyCollection.emptyCollection] at htarget
    | some targets =>
      rw [h] at htarget
      exact ⟨_, ⟨_, (hlookup targets).1 h, rfl⟩, target, htarget, rfl⟩

theorem pairs_filter_source (m : EdgeMap) (source : String) :
    m.pairs.filter (·.1 = source) = (m.targets source).names.map (source, ·) := by
  have hentry : ∀ entry : String × NameSet,
      (entry.2.names.map (entry.1, ·)).filter (·.1 = source) =
        if entry.1 = source then entry.2.names.map (source, ·) else [] := by
    intro entry
    split
    · rename_i h
      rw [h]
      exact List.filter_eq_self.2 fun pair hpair => by
        obtain ⟨_, _, rfl⟩ := List.mem_map.1 hpair
        simp
    · rename_i h
      exact List.filter_eq_nil_iff.2 fun pair hpair => by
        obtain ⟨_, _, rfl⟩ := List.mem_map.1 hpair
        simpa using h
  obtain ⟨entries, hnodup⟩ := m
  simp only [pairs, adjacency, targets, List.flatMap_map, List.filter_flatMap, hentry]
  clear hentry
  induction entries with
  | nil => rfl
  | cons entry rest ih =>
    obtain ⟨first, old⟩ := entry
    rw [List.map_cons, List.nodup_cons] at hnodup
    rw [List.flatMap_cons, ih hnodup.2]
    by_cases heq : first = source
    · subst heq
      have hnone : rest.lookup first = none := by
        rw [List.lookup_eq_none_iff]
        intro entry hentry
        simpa using fun heq => hnodup.1 (List.mem_map.2 ⟨entry, hentry, heq.symm⟩)
      simp [hnone, EmptyCollection.emptyCollection, NameSet.empty]
    · have hne : (source == first) = false := by simpa using fun h : source = first => heq h.symm
      simp [heq, List.lookup_cons, hne]

theorem nodup_pairs (m : EdgeMap) : m.pairs.Nodup := by
  rw [List.nodup_iff_count_le_one]
  rintro ⟨source, target⟩
  have hfilter : (m.pairs.filter (·.1 = source)).count (source, target) =
      m.pairs.count (source, target) := List.count_filter (by simp)
  rw [← hfilter, pairs_filter_source]
  have hinj : Function.Injective fun name : String => (source, name) := fun a b h => by
    simpa using h
  exact List.nodup_iff_count_le_one.1 ((m.targets source).nodup_names.map hinj) _

end DesignMetrics.EdgeMap
