import DesignMetrics.Names.Set

/-!
# Edge maps

A map from source names to sets of target names that keeps its sources in the order in which they
first came. A source may have no targets.
-/

namespace DesignMetrics

structure EdgeMap where
  entries : List (String × NameSet)
  nodup_sources : (entries.map (·.1)).Nodup
deriving DecidableEq

namespace EdgeMap

def empty : EdgeMap := ⟨[], by simp⟩

instance : EmptyCollection EdgeMap := ⟨empty⟩
instance : Inhabited EdgeMap := ⟨empty⟩

def sources (m : EdgeMap) : List String := m.entries.map (·.1)

/-- Change the targets of a source, in place if it is there, else at the end. -/
def alterEntries (source : String) (change : NameSet → NameSet) :
    List (String × NameSet) → List (String × NameSet)
  | [] => [(source, change ∅)]
  | (first, targets) :: rest =>
    if first = source then (first, change targets) :: rest
    else (first, targets) :: alterEntries source change rest

theorem sources_alterEntries (source : String) (change : NameSet → NameSet)
    (entries : List (String × NameSet)) :
    (alterEntries source change entries).map (·.1) =
      if source ∈ entries.map (·.1) then entries.map (·.1)
      else entries.map (·.1) ++ [source] := by
  induction entries with
  | nil => simp [alterEntries]
  | cons entry rest ih =>
    obtain ⟨first, targets⟩ := entry
    by_cases h : first = source
    · simp [alterEntries, h]
    · have h' : source ≠ first := fun heq => h heq.symm
      simp only [alterEntries, h, if_false, List.map_cons, ih, List.mem_cons, h', false_or]
      split <;> simp

def alter (m : EdgeMap) (source : String) (change : NameSet → NameSet) : EdgeMap where
  entries := alterEntries source change m.entries
  nodup_sources := by
    rw [sources_alterEntries]
    split
    · exact m.nodup_sources
    · rename_i h
      rw [List.nodup_append]
      refine ⟨m.nodup_sources, by simp, fun a ha b hb heq => h ?_⟩
      rw [List.mem_singleton] at hb
      exact hb ▸ heq ▸ ha

def assign (m : EdgeMap) (source : String) (targets : NameSet) : EdgeMap :=
  m.alter source fun _ => targets

def unite (m : EdgeMap) (source : String) (targets : NameSet) : EdgeMap :=
  m.alter source fun old => old.union targets

/-- The map with the given targets; the last entry of a source counts. -/
def ofList (entries : List (String × NameSet)) : EdgeMap :=
  entries.foldl (fun m entry => m.assign entry.1 entry.2) ∅

def union (a b : EdgeMap) : EdgeMap :=
  b.entries.foldl (fun m entry => m.unite entry.1 entry.2) a

/-- The targets of a source; none for a source that is not in the map. -/
def targets (m : EdgeMap) (source : String) : NameSet := (m.entries.lookup source).getD ∅

def adjacency (m : EdgeMap) : List (String × List String) :=
  m.entries.map fun entry => (entry.1, entry.2.names)

/-- Whether two maps have the same sources with the same targets, in any order. -/
def same (a b : EdgeMap) : Bool :=
  a.entries.length == b.entries.length
    && a.entries.all fun entry => b.entries.lookup entry.1 == some entry.2

end EdgeMap

end DesignMetrics
