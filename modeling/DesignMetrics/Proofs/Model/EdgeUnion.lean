import Mathlib.Data.List.Induction
import DesignMetrics.Proofs.Model.EdgeMap

/-!
# Unions of edge maps

The union of edge maps has the sources of all of them, each at the place where it first comes, and
a source has the targets that any of the maps gives it. These two facts leave one map only, because
an edge map is its sources in order with the targets of each. So whatever has both of them is the
union, and maps may be united in groups first.
-/

namespace DesignMetrics.EdgeMap

/-! ## A map is its sources and their targets -/

theorem entries_eq (m : EdgeMap) :
    m.entries = m.sources.map fun name => (name, m.targets name) := by
  rw [sources, List.map_map]
  refine (List.map_id m.entries).symm.trans (List.map_congr_left ?_)
  intro entry hentry
  have hlookup := (lookup_eq_some_iff m.nodup_sources).2 hentry
  simp [targets, hlookup]

theorem eq_of_sources_of_targets {a b : EdgeMap} (hsources : a.sources = b.sources)
    (htargets : ∀ source target, target ∈ a.targets source ↔ target ∈ b.targets source) :
    a = b := by
  have hsame : ∀ name, a.targets name = b.targets name := by
    intro name
    have hnames := ascending_ext (a.targets name).ascending (b.targets name).ascending
      (htargets name)
    cases ha : a.targets name
    cases hb : b.targets name
    simpa [ha, hb] using hnames
  have hentries : a.entries = b.entries := by
    rw [entries_eq a, entries_eq b, hsources]
    simp only [hsame]
  cases a
  cases b
  cases hentries
  rfl

@[simp] theorem not_mem_targets_empty (source target : String) :
    target ∉ (∅ : EdgeMap).targets source :=
  NameSet.not_mem_empty target

/-! ## One source -/

theorem lookup_alterEntries (source : String) (change : NameSet → NameSet)
    (entries : List (String × NameSet)) (name : String) :
    ((alterEntries source change entries).lookup name).getD ∅ =
      if name = source then change ((entries.lookup source).getD ∅)
      else (entries.lookup name).getD ∅ := by
  have hbeq : ∀ a b : String, a ≠ b → (a == b) = false := by simp
  induction entries with
  | nil =>
    by_cases h : name = source
    · simp [alterEntries, h]
    · simp [alterEntries, List.lookup_cons, h, hbeq name source h]
  | cons entry rest ih =>
    obtain ⟨first, old⟩ := entry
    by_cases hfirst : first = source
    · subst hfirst
      by_cases h : name = first
      · simp [alterEntries, h]
      · simp [alterEntries, List.lookup_cons, h, hbeq name first h]
    · rw [alterEntries, if_neg hfirst]
      by_cases h : name = first
      · simp [h, hfirst]
      · simpa [List.lookup_cons, hbeq name first h, hbeq source first (Ne.symm hfirst)] using ih

theorem mem_targets_unite {m : EdgeMap} {source : String} {targets : NameSet}
    {name target : String} :
    target ∈ (m.unite source targets).targets name ↔
      target ∈ m.targets name ∨ (name = source ∧ target ∈ targets) := by
  have hlookup := lookup_alterEntries source (fun old => old.union targets) m.entries name
  show target ∈ ((alterEntries source _ m.entries).lookup name).getD ∅ ↔ _
  rw [hlookup]
  by_cases h : name = source
  · subst h
    rw [if_pos rfl, NameSet.mem_union]
    simp [EdgeMap.targets]
  · rw [if_neg h]
    simp [EdgeMap.targets, h]

theorem sources_unite (m : EdgeMap) (source : String) (targets : NameSet) :
    (m.unite source targets).sources = firstOccurrences (m.sources ++ [source]) := by
  have haltered := sources_alterEntries source (fun old => old.union targets) m.entries
  have hsources : firstOccurrences m.sources = m.sources :=
    firstOccurrences_of_nodup m.nodup_sources
  rw [firstOccurrences_append, hsources]
  by_cases h : source ∈ m.sources
  · have hnew : (firstOccurrences [source]).filter (· ∉ m.sources) = [] := by
      simpa [firstOccurrences] using h
    rw [hnew, List.append_nil]
    exact haltered.trans (if_pos h)
  · have hnew : (firstOccurrences [source]).filter (· ∉ m.sources) = [source] := by
      simpa [firstOccurrences] using h
    rw [hnew]
    exact haltered.trans (if_neg h)

/-! ## Two maps -/

theorem sources_union (a b : EdgeMap) :
    (a.union b).sources = firstOccurrences (a.sources ++ b.sources) := by
  show (b.entries.foldl _ a).sources = firstOccurrences (a.sources ++ b.entries.map (·.1))
  generalize b.entries = entries
  induction entries generalizing a with
  | nil =>
    rw [List.map_nil, List.append_nil]
    exact (firstOccurrences_of_nodup a.nodup_sources).symm
  | cons entry rest ih =>
    rw [List.foldl_cons, ih, sources_unite, firstOccurrences_append_of_firstOccurrences,
      List.append_assoc]
    rfl

/-- A target belongs to a source when some entry of the source has it. -/
theorem exists_mem_entries_iff {m : EdgeMap} {source target : String} :
    (∃ entry ∈ m.entries, source = entry.1 ∧ target ∈ entry.2) ↔ target ∈ m.targets source := by
  rw [← mem_pairs, pairs, adjacency, List.flatMap_map]
  simp only [List.mem_flatMap, List.mem_map, Prod.mk.injEq]
  constructor
  · rintro ⟨entry, hentry, rfl, htarget⟩
    exact ⟨entry, hentry, target, htarget, rfl, rfl⟩
  · rintro ⟨entry, hentry, _, htarget, rfl, rfl⟩
    exact ⟨entry, hentry, rfl, htarget⟩

theorem mem_targets_foldl_unite {entries : List (String × NameSet)} {m : EdgeMap}
    {source target : String} :
    target ∈ (entries.foldl (fun m entry => m.unite entry.1 entry.2) m).targets source ↔
      target ∈ m.targets source ∨ ∃ entry ∈ entries, source = entry.1 ∧ target ∈ entry.2 := by
  induction entries generalizing m with
  | nil => simp
  | cons entry rest ih =>
    rw [List.foldl_cons, ih, mem_targets_unite]
    simp [or_assoc]

theorem mem_targets_union {a b : EdgeMap} {source target : String} :
    target ∈ (a.union b).targets source ↔
      target ∈ a.targets source ∨ target ∈ b.targets source := by
  rw [union, mem_targets_foldl_unite, exists_mem_entries_iff]

/-! ## Any number of maps -/

/-- A map with the sources of some maps, in the order in which they first come, and with the targets
that any of the maps gives to a source. -/
structure IsUnion (parts : List EdgeMap) (whole : EdgeMap) : Prop where
  sources : whole.sources = firstOccurrences (parts.flatMap (·.sources))
  mem_targets : ∀ source target,
    target ∈ whole.targets source ↔ ∃ part ∈ parts, target ∈ part.targets source

namespace IsUnion

variable {parts others : List EdgeMap} {a b whole : EdgeMap}

theorem unique (ha : IsUnion parts a) (hb : IsUnion parts b) : a = b := by
  apply eq_of_sources_of_targets
  · rw [ha.sources, hb.sources]
  · intro source target
    rw [ha.mem_targets, hb.mem_targets]

theorem single (a : EdgeMap) : IsUnion [a] a where
  sources := by
    rw [List.flatMap_singleton]
    exact (firstOccurrences_of_nodup a.nodup_sources).symm
  mem_targets := by simp

theorem pair (a b : EdgeMap) : IsUnion [a, b] (a.union b) where
  sources := by
    rw [sources_union]
    simp
  mem_targets := by simp [mem_targets_union]

/-- What unites the unions of two groups unites all of both. -/
theorem append (ha : IsUnion parts a) (hb : IsUnion others b) (h : IsUnion [a, b] whole) :
    IsUnion (parts ++ others) whole where
  sources := by
    rw [h.sources, List.flatMap_cons, List.flatMap_singleton, ha.sources, hb.sources,
      firstOccurrences_append_of_firstOccurrences, List.flatMap_append, firstOccurrences_append,
      firstOccurrences_append, firstOccurrences_of_nodup (nodup_firstOccurrences _)]
  mem_targets source target := by
    rw [h.mem_targets]
    simp [ha.mem_targets, hb.mem_targets, or_and_right, exists_or]

end IsUnion

/-- Uniting maps one after the other gives their union. -/
theorem isUnion_foldl (parts : List EdgeMap) : IsUnion parts (parts.foldl union ∅) := by
  induction parts using List.reverseRecOn with
  | nil => exact ⟨rfl, by simp⟩
  | append_singleton front last ih =>
    rw [List.foldl_append]
    exact ih.append (.single last) (.pair _ last)

end DesignMetrics.EdgeMap
