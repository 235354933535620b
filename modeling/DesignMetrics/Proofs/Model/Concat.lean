import DesignMetrics.Model.Merge
import DesignMetrics.Proofs.Model.EdgeUnion
import DesignMetrics.Proofs.Model.Groups

/-!
# Joined models

Models are joined by putting their modules one after the other and uniting their edge maps. The
joined model is known by its parts. So models may be joined in groups first, and a model without
modules and edges adds nothing.
-/

namespace DesignMetrics.CodeModel

/-- A model with the modules of some models one after the other and the union of their edge maps. -/
structure IsConcat (parts : List CodeModel) (whole : CodeModel) : Prop where
  modules : whole.codebase.modules = parts.flatMap (·.codebase.modules)
  typeEdges : EdgeMap.IsUnion (parts.map (·.graph.typeEdges)) whole.graph.typeEdges
  namespaceEdges : EdgeMap.IsUnion (parts.map (·.graph.namespaceEdges)) whole.graph.namespaceEdges

theorem isConcat_concat (parts : List CodeModel) : IsConcat parts (concat parts) where
  modules := rfl
  typeEdges := by
    have hfold := EdgeMap.isUnion_foldl (parts.map (·.graph.typeEdges))
    rwa [List.foldl_map] at hfold
  namespaceEdges := by
    have hfold := EdgeMap.isUnion_foldl (parts.map (·.graph.namespaceEdges))
    rwa [List.foldl_map] at hfold

namespace IsConcat

variable {parts others : List CodeModel} {a b whole : CodeModel}

theorem unique (ha : IsConcat parts a) (hb : IsConcat parts b) : a = b := by
  have hmodules := ha.modules.trans hb.modules.symm
  have htypeEdges := ha.typeEdges.unique hb.typeEdges
  have hnamespaceEdges := ha.namespaceEdges.unique hb.namespaceEdges
  obtain ⟨⟨_⟩, ⟨_, _⟩⟩ := a
  obtain ⟨⟨_⟩, ⟨_, _⟩⟩ := b
  cases hmodules
  cases htypeEdges
  cases hnamespaceEdges
  rfl

theorem iff_eq_concat : IsConcat parts whole ↔ whole = concat parts := by
  constructor
  · intro h
    exact h.unique (isConcat_concat parts)
  · rintro rfl
    exact isConcat_concat parts

theorem single (m : CodeModel) : IsConcat [m] m where
  modules := by rw [List.flatMap_singleton]
  typeEdges := .single _
  namespaceEdges := .single _

theorem append (ha : IsConcat parts a) (hb : IsConcat others b) (h : IsConcat [a, b] whole) :
    IsConcat (parts ++ others) whole where
  modules := by
    rw [h.modules, List.flatMap_cons, List.flatMap_singleton, ha.modules, hb.modules,
      List.flatMap_append]
  typeEdges := by
    rw [List.map_append]
    exact ha.typeEdges.append hb.typeEdges h.typeEdges
  namespaceEdges := by
    rw [List.map_append]
    exact ha.namespaceEdges.append hb.namespaceEdges h.namespaceEdges

theorem namespaces (h : IsConcat parts whole) :
    whole.codebase.namespaces = parts.flatMap (·.codebase.namespaces) := by
  simp only [Codebase.namespaces, h.modules, List.flatMap_assoc]

theorem types (h : IsConcat parts whole) :
    whole.codebase.types = parts.flatMap (·.codebase.types) := by
  simp only [Codebase.types, h.namespaces, List.flatMap_assoc]

theorem methods (h : IsConcat parts whole) :
    whole.codebase.methods = parts.flatMap (·.codebase.methods) := by
  simp only [Codebase.methods, h.types, List.flatMap_assoc]

theorem members (h : IsConcat parts whole) :
    whole.codebase.members = parts.flatMap (·.codebase.members) := by
  simp only [Codebase.members, typesInOrder, h.namespaces, List.flatMap_assoc]

theorem typeFullNames (h : IsConcat parts whole) :
    whole.typeFullNames = parts.flatMap (·.typeFullNames) := by
  rw [CodeModel.typeFullNames, h.types, List.map_flatMap]
  rfl

theorem typeNames_subset (h : IsConcat parts whole) {m : CodeModel} (hm : m ∈ parts) :
    m.codebase.typeNames ⊆ whole.codebase.typeNames := by
  intro name hname
  rw [Codebase.typeNames, mem_firstOccurrences] at hname ⊢
  rw [← CodeModel.typeFullNames, h.typeFullNames]
  exact List.mem_flatMap.2 ⟨m, hm, hname⟩

theorem namespaceNames_subset (h : IsConcat parts whole) {m : CodeModel} (hm : m ∈ parts) :
    m.codebase.namespaceNames ⊆ whole.codebase.namespaceNames := by
  intro name hname
  rw [Codebase.namespaceNames, mem_firstOccurrences] at hname ⊢
  rw [h.namespaces, List.map_flatMap]
  exact List.mem_flatMap.2 ⟨m, hm, hname⟩

end IsConcat

theorem concat_empty_right (m : CodeModel) : concat [m, .empty] = m :=
  have hempty : IsConcat [] .empty := isConcat_concat []
  ((IsConcat.single m).append hempty (isConcat_concat _)).unique (.single m)

theorem concat_empty_left (m : CodeModel) : concat [.empty, m] = m :=
  have hempty : IsConcat [] .empty := isConcat_concat []
  (hempty.append (.single m) (isConcat_concat _)).unique (.single m)

end DesignMetrics.CodeModel
