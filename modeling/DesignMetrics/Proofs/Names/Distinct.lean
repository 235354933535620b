import DesignMetrics.Names.Distinct
import DesignMetrics.Names.Set

/-!
# Lists determined by their entries

A list without repeats is known up to order by its members, and an ascending list is known
altogether. Taking first occurrences goes through filters and concatenation, so that what survives
of a long list can be read off its parts.
-/

namespace DesignMetrics

section FirstOccurrences

variable {α β : Type} [DecidableEq α] [DecidableEq β]

theorem firstOccurrences_filter (p : α → Bool) (l : List α) :
    firstOccurrences (l.filter p) = (firstOccurrences l).filter p := by
  induction l with
  | nil => rfl
  | cons a rest ih =>
    by_cases ha : p a
    · simp [firstOccurrences, ha, ih, List.filter_filter, Bool.and_comm]
    · have hne : ∀ b, p b = true → b ≠ a := fun b hb heq => ha (heq ▸ hb)
      rw [List.filter_cons_of_neg ha, ih, firstOccurrences, List.filter_cons_of_neg ha,
        List.filter_filter]
      refine List.filter_congr fun b _ => ?_
      cases hb : p b
      · simp
      · simp [hne b hb]

theorem firstOccurrences_append (l m : List α) :
    firstOccurrences (l ++ m) = firstOccurrences l ++ (firstOccurrences m).filter (· ∉ l) := by
  induction l with
  | nil =>
    have hall : (firstOccurrences m).filter (· ∉ ([] : List α)) = firstOccurrences m :=
      List.filter_eq_self.2 fun _ _ => by simp
    exact hall.symm
  | cons a rest ih =>
    simp [firstOccurrences, ih, List.filter_filter]

theorem firstOccurrences_of_nodup {l : List α} (h : l.Nodup) : firstOccurrences l = l := by
  induction l with
  | nil => rfl
  | cons a rest ih =>
    rw [List.nodup_cons] at h
    rw [firstOccurrences, ih h.2, List.filter_eq_self.2]
    intro b hb
    simpa using fun heq : b = a => h.1 (heq ▸ hb)

theorem firstOccurrences_sublist (l : List α) : (firstOccurrences l).Sublist l := by
  induction l with
  | nil => exact .slnil
  | cons a rest ih => exact (List.filter_sublist.trans ih).cons_cons a

theorem length_firstOccurrences_le (l : List α) :
    (firstOccurrences l).length ≤ l.length :=
  (firstOccurrences_sublist l).length_le

/-- Lists without a common member do not take first occurrences from each other. -/
theorem firstOccurrences_flatMap {ι : Type} {f : ι → List α} {l : List ι}
    (h : l.Pairwise fun a b => ∀ x ∈ f a, x ∉ f b) :
    firstOccurrences (l.flatMap f) = l.flatMap fun a => firstOccurrences (f a) := by
  induction l with
  | nil => rfl
  | cons a rest ih =>
    rw [List.pairwise_cons] at h
    rw [List.flatMap_cons, List.flatMap_cons, firstOccurrences_append, ih h.2]
    congr 1
    rw [List.filter_eq_self]
    intro x hx
    obtain ⟨b, hb, hxb⟩ := List.mem_flatMap.1 hx
    simpa using fun hxa : x ∈ f a => h.1 b hb x hxa (mem_firstOccurrences.1 hxb)

theorem firstOccurrences_map {f : α → β} {l : List α}
    (h : ∀ a ∈ l, ∀ b ∈ l, f a = f b → a = b) :
    firstOccurrences (l.map f) = (firstOccurrences l).map f := by
  induction l with
  | nil => rfl
  | cons a rest ih =>
    have hrest := ih fun b hb c hc => h b (List.mem_cons_of_mem a hb) c (List.mem_cons_of_mem a hc)
    simp only [List.map_cons, firstOccurrences, hrest, List.filter_map]
    congr 2
    refine List.filter_congr fun b hb => ?_
    have hb : b ∈ a :: rest := List.mem_cons_of_mem a (mem_firstOccurrences.1 hb)
    have : f b = f a ↔ b = a := ⟨h b hb a List.mem_cons_self, fun heq => heq ▸ rfl⟩
    simp [this]

theorem firstOccurrences_append_of_firstOccurrences (l m : List α) :
    firstOccurrences (firstOccurrences l ++ m) = firstOccurrences (l ++ m) := by
  rw [firstOccurrences_append, firstOccurrences_append,
    firstOccurrences_of_nodup (nodup_firstOccurrences l)]
  simp only [mem_firstOccurrences]

/-- The first occurrences of lists with the same members are the same up to order. -/
theorem firstOccurrences_perm {l m : List α} (h : ∀ a, a ∈ l ↔ a ∈ m) :
    (firstOccurrences l).Perm (firstOccurrences m) :=
  (List.perm_ext_iff_of_nodup (nodup_firstOccurrences l) (nodup_firstOccurrences m)).2 fun a => by
    rw [mem_firstOccurrences, mem_firstOccurrences, h]

/-- What the first occurrences of one key hold is first in the order of what all of them hold. -/
theorem firstOccurrences_filter_map {κ : Type} [DecidableEq κ] {key : α → κ} {value : α → β}
    (k : κ) (hext : ∀ a b, key a = key b → value a = value b → a = b) {l : List α} :
    ((firstOccurrences l).filter (key · = k)).map value =
      firstOccurrences ((l.filter (key · = k)).map value) := by
  rw [← firstOccurrences_filter, firstOccurrences_map]
  intro a ha b hb hvalue
  rw [List.mem_filter, decide_eq_true_eq] at ha hb
  exact hext a b (ha.2.trans hb.2.symm) hvalue

end FirstOccurrences

theorem nodup_of_ascending {l : List String} (h : l.Pairwise (· < ·)) : l.Nodup :=
  h.imp fun hab => by rintro rfl; exact String.lt_irrefl _ hab

theorem NameSet.nodup_names (set : NameSet) : set.names.Nodup := nodup_of_ascending set.ascending

/-- Ascending lists with the same members are the same. -/
theorem ascending_ext {l m : List String} (hl : l.Pairwise (· < ·)) (hm : m.Pairwise (· < ·))
    (h : ∀ name, name ∈ l ↔ name ∈ m) : l = m := by
  have hperm := (List.perm_ext_iff_of_nodup (nodup_of_ascending hl) (nodup_of_ascending hm)).2 h
  exact hperm.eq_of_pairwise (fun a b _ _ hab hba => absurd hba (String.lt_asymm hab)) hl hm

end DesignMetrics
