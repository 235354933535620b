/-!
# First occurrences

The order in which names first appear fixes the order of nodes, namespaces and edge sources.
-/

namespace DesignMetrics

variable {α : Type} [DecidableEq α]

/-- The entries of a list without repeats, each at its first place. -/
def firstOccurrences : List α → List α
  | [] => []
  | a :: rest => a :: (firstOccurrences rest).filter (· ≠ a)

@[simp] theorem mem_firstOccurrences {a : α} {l : List α} : a ∈ firstOccurrences l ↔ a ∈ l := by
  induction l with
  | nil => simp [firstOccurrences]
  | cons b rest ih => by_cases h : a = b <;> simp [firstOccurrences, h, ih]

theorem nodup_firstOccurrences (l : List α) : (firstOccurrences l).Nodup := by
  induction l with
  | nil => simp [firstOccurrences]
  | cons b rest ih =>
    refine List.nodup_cons.2 ⟨by simp, ?_⟩
    exact List.Pairwise.filter _ ih

/-- Each key once, at its first place, with its last value. -/
def lastOfEach {α : Type} (entries : List (String × α)) : List (String × α) :=
  (firstOccurrences (entries.map (·.1))).filterMap fun key =>
    (entries.reverse.lookup key).map (key, ·)

end DesignMetrics
