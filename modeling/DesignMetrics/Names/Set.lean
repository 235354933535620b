/-!
# Sets of names

A finite set of names is the ascending list of its members, so equal sets are equal values and
their order never depends on how they were made.
-/

namespace DesignMetrics

structure NameSet where
  names : List String
  ascending : names.Pairwise (· < ·)
deriving DecidableEq

namespace NameSet

def empty : NameSet := ⟨[], .nil⟩

instance : EmptyCollection NameSet := ⟨empty⟩
instance : Inhabited NameSet := ⟨empty⟩
instance : Membership String NameSet := ⟨fun set name => name ∈ set.names⟩

instance (name : String) (set : NameSet) : Decidable (name ∈ set) :=
  inferInstanceAs (Decidable (name ∈ set.names))

/-- Put a name at its place in an ascending list, unless it stands there already. -/
def insertAscending (name : String) : List String → List String
  | [] => [name]
  | first :: rest =>
    if name < first then name :: first :: rest
    else if name = first then first :: rest
    else first :: insertAscending name rest

theorem mem_insertAscending {a name : String} {l : List String} :
    a ∈ insertAscending name l ↔ a = name ∨ a ∈ l := by
  induction l with
  | nil => simp [insertAscending]
  | cons first rest ih =>
    unfold insertAscending
    split
    · simp
    · split
      · rename_i h; simp [h]
      · simp only [List.mem_cons, ih]
        constructor <;> rintro (h | h | h) <;> simp [h]

theorem pairwise_insertAscending (name : String) {l : List String}
    (h : l.Pairwise (· < ·)) : (insertAscending name l).Pairwise (· < ·) := by
  induction l with
  | nil => simp [insertAscending]
  | cons first rest ih =>
    rw [List.pairwise_cons] at h
    unfold insertAscending
    split
    · rename_i hlt
      refine List.pairwise_cons.2 ⟨fun a ha => ?_, List.pairwise_cons.2 h⟩
      rcases List.mem_cons.1 ha with ha | ha
      · exact ha ▸ hlt
      · exact String.lt_trans hlt (h.1 a ha)
    · split
      · exact List.pairwise_cons.2 h
      · rename_i hle hne
        refine List.pairwise_cons.2 ⟨fun a ha => ?_, ih h.2⟩
        rcases mem_insertAscending.1 ha with ha | ha
        · subst ha
          refine Classical.byContradiction fun hnot => hne ?_
          exact String.le_antisymm (String.not_lt.1 hnot) (String.not_lt.1 hle)
        · exact h.1 a ha

def insert (name : String) (set : NameSet) : NameSet :=
  ⟨insertAscending name set.names, pairwise_insertAscending name set.ascending⟩

def ofList (names : List String) : NameSet := names.foldr insert empty

def union (a b : NameSet) : NameSet := b.names.foldr insert a

@[simp] theorem not_mem_empty (a : String) : a ∉ empty := by
  show a ∉ ([] : List String)
  simp

@[simp] theorem mem_insert {a name : String} {set : NameSet} :
    a ∈ set.insert name ↔ a = name ∨ a ∈ set :=
  mem_insertAscending

theorem mem_foldr_insert {a : String} {names : List String} {set : NameSet} :
    a ∈ names.foldr insert set ↔ a ∈ names ∨ a ∈ set := by
  induction names with
  | nil => simp
  | cons name rest ih =>
    rw [List.foldr_cons, mem_insert, ih, List.mem_cons, or_assoc]

@[simp] theorem mem_ofList {a : String} {names : List String} : a ∈ ofList names ↔ a ∈ names := by
  rw [ofList, mem_foldr_insert]
  simp

@[simp] theorem mem_union {a : String} {x y : NameSet} : a ∈ union x y ↔ a ∈ x ∨ a ∈ y := by
  rw [union, mem_foldr_insert, or_comm]
  exact Iff.rfl

end NameSet

end DesignMetrics
