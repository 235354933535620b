import Mathlib.Data.List.Basic
import Mathlib.Data.List.Induction
import DesignMetrics.Model.Basic
import DesignMetrics.Proofs.Names.Distinct

/-!
# Types by namespace

A code base is read as its sequence of types, each under the name of its namespace. Grouping by
namespace forgets all else: the group of a name is what stands under that name in the sequence, and
the groups stand in the order in which the names first appear.
-/

namespace DesignMetrics

section Groups

variable {name : String} {types : List TypeDecl} {f : String → List TypeDecl}

theorem addToGroup_of_mem {names : List String} (hnodup : names.Nodup) (hmem : name ∈ names) :
    addToGroup name types (names.map fun n => (n, f n)) =
      names.map fun n => (n, if n = name then f n ++ types else f n) := by
  induction names with
  | nil => simp at hmem
  | cons first rest ih =>
    rw [List.nodup_cons] at hnodup
    rw [List.map_cons, List.map_cons, addToGroup]
    by_cases hfirst : first = name
    · have hrest : ∀ n ∈ rest, n ≠ name := fun n hn heq => hnodup.1 (hfirst ▸ heq ▸ hn)
      rw [if_pos hfirst, if_pos hfirst]
      congr 1
      refine List.map_congr_left fun n hn => ?_
      rw [if_neg (hrest n hn)]
    · have hmem : name ∈ rest := (List.mem_cons.1 hmem).resolve_left fun heq => hfirst heq.symm
      rw [if_neg hfirst, if_neg hfirst, ih hnodup.2 hmem]

theorem addToGroup_of_not_mem {groups : List (String × List TypeDecl)}
    (hnot : name ∉ groups.map (·.1)) :
    addToGroup name types groups = groups ++ [(name, types)] := by
  induction groups with
  | nil => rfl
  | cons group rest ih =>
    obtain ⟨first, members⟩ := group
    rw [List.map_cons, List.mem_cons, not_or] at hnot
    rw [addToGroup, if_neg fun heq => hnot.1 heq.symm, ih hnot.2]
    rfl

end Groups

/-- The types of some namespaces in order, each under the name of its namespace. -/
def typesInOrder (namespaces : List Namespace) : List (String × TypeDecl) :=
  namespaces.flatMap fun ns => ns.types.map (ns.name, ·)

/-- What stands under a name. -/
def typesUnder (name : String) (members : List (String × TypeDecl)) : List TypeDecl :=
  (members.filter (·.1 = name)).map (·.2)

theorem typesInOrder_concat (namespaces : List Namespace) (ns : Namespace) :
    typesInOrder (namespaces ++ [ns]) = typesInOrder namespaces ++ ns.types.map (ns.name, ·) := by
  simp [typesInOrder]

theorem typesUnder_append (name : String) (members members' : List (String × TypeDecl)) :
    typesUnder name (members ++ members') =
      typesUnder name members ++ typesUnder name members' := by
  simp [typesUnder]

theorem typesUnder_map (name other : String) (types : List TypeDecl) :
    typesUnder name (types.map (other, ·)) = if name = other then types else [] := by
  by_cases h : name = other
  · subst h
    simp [typesUnder, List.filter_map, Function.comp_def]
  · have hne : ¬ other = name := fun heq => h heq.symm
    simp [typesUnder, List.filter_map, Function.comp_def, h, hne]

/-- What stands under some different names, taken together, is all that stands under one of them. -/
theorem flatMap_typesUnder_perm {names : List String} (hnodup : names.Nodup)
    {members : List (String × TypeDecl)} (hnames : ∀ member ∈ members, member.1 ∈ names) :
    (names.flatMap fun name => typesUnder name members).Perm (members.map (·.2)) := by
  induction names generalizing members with
  | nil =>
    have hnil : members = [] := List.eq_nil_iff_forall_not_mem.2 fun member hmem => by
      simpa using hnames member hmem
    rw [hnil]
    exact .nil
  | cons first rest ih =>
    rw [List.nodup_cons] at hnodup
    set others := members.filter fun member => !decide (member.1 = first) with hothers
    have hrest : (rest.flatMap fun name => typesUnder name members) =
        rest.flatMap fun name => typesUnder name others := by
      refine List.flatMap_congr fun name hname => ?_
      rw [typesUnder, typesUnder, hothers, List.filter_filter]
      congr 1
      refine List.filter_congr fun member _ => ?_
      have hne : member.1 = name → member.1 ≠ first := fun heq hfirst =>
        hnodup.1 (hfirst ▸ heq ▸ hname)
      by_cases heq : member.1 = name
      · simp [heq, heq ▸ hne heq]
      · simp [heq]
    have hmem : ∀ member ∈ others, member.1 ∈ rest := fun member hmember => by
      rw [hothers, List.mem_filter, Bool.not_eq_true', decide_eq_false_iff_not] at hmember
      exact (List.mem_cons.1 (hnames member hmember.1)).resolve_left hmember.2
    rw [List.flatMap_cons, hrest]
    refine ((ih hnodup.2 hmem).append_left _).trans ?_
    rw [typesUnder, ← List.map_append]
    exact (List.filter_append_perm _ members).map _

theorem typesUnder_of_not_mem {namespaces : List Namespace} {name : String}
    (hnot : name ∉ namespaces.map (·.name)) : typesUnder name (typesInOrder namespaces) = [] := by
  simp only [typesUnder, List.map_eq_nil_iff, List.filter_eq_nil_iff, typesInOrder,
    List.mem_flatMap, List.mem_map]
  rintro _ ⟨ns, hns, t, -, rfl⟩
  simpa using fun heq => hnot (List.mem_map.2 ⟨ns, hns, heq⟩)

namespace Codebase

/-- The types in model order, each under the name of its namespace. -/
def members (c : Codebase) : List (String × TypeDecl) := typesInOrder c.namespaces

theorem types_eq (c : Codebase) : c.types = c.members.map (·.2) := by
  simp [types, members, typesInOrder, List.map_flatMap, Function.comp_def]

theorem foldl_addToGroup (namespaces : List Namespace) :
    namespaces.foldl (fun groups ns => addToGroup ns.name ns.types groups) [] =
      (firstOccurrences (namespaces.map (·.name))).map fun name =>
        (name, typesUnder name (typesInOrder namespaces)) := by
  induction namespaces using List.reverseRecOn with
  | nil => rfl
  | append_singleton front ns ih =>
    rw [List.foldl_append, ih, List.map_append, firstOccurrences_append]
    show addToGroup ns.name ns.types _ = _
    by_cases hmem : ns.name ∈ front.map (·.name)
    · rw [addToGroup_of_mem (nodup_firstOccurrences _) (mem_firstOccurrences.2 hmem)]
      have hnew : (firstOccurrences ([ns].map (·.name))).filter (· ∉ front.map (·.name)) = [] := by
        simpa [firstOccurrences] using hmem
      rw [hnew, List.append_nil]
      refine List.map_congr_left fun name _ => ?_
      rw [typesInOrder_concat, typesUnder_append, typesUnder_map]
      split <;> simp
    · rw [addToGroup_of_not_mem (by simpa [mem_firstOccurrences, Function.comp_def] using hmem)]
      have hnew : (firstOccurrences ([ns].map (·.name))).filter (· ∉ front.map (·.name)) =
          [ns.name] := by
        simpa [firstOccurrences] using hmem
      rw [hnew, List.map_append, List.map_singleton, typesInOrder_concat, typesUnder_append,
        typesUnder_of_not_mem hmem, typesUnder_map, if_pos rfl, List.nil_append]
      congr 1
      refine List.map_congr_left fun name hname => ?_
      have hne : name ≠ ns.name := fun heq => hmem (heq ▸ mem_firstOccurrences.1 hname)
      rw [typesUnder_append, typesUnder_map, if_neg hne, List.append_nil]

/-- The groups are the namespace names with what stands under them. -/
theorem typesByNamespace_eq (c : Codebase) :
    c.typesByNamespace = c.namespaceNames.map fun name => (name, typesUnder name c.members) :=
  foldl_addToGroup c.namespaces

/-- The types of all namespaces of a name, in the order of the model. -/
def typesOf (c : Codebase) (name : String) : List TypeDecl :=
  (c.namespaces.filter (·.name = name)).flatMap (·.types)

theorem typesUnder_members (c : Codebase) (name : String) :
    typesUnder name c.members = c.typesOf name := by
  rw [members, typesInOrder, typesOf]
  induction c.namespaces with
  | nil => rfl
  | cons ns rest ih =>
    rw [List.flatMap_cons, typesUnder_append, typesUnder_map, ih]
    by_cases heq : ns.name = name
    · simp [heq]
    · have hne : ¬ name = ns.name := fun h => heq h.symm
      simp [heq, hne]

theorem typesByNamespace_eq_typesOf (c : Codebase) :
    c.typesByNamespace = c.namespaceNames.map fun name => (name, c.typesOf name) := by
  simp only [typesByNamespace_eq, typesUnder_members]

/-- The types of a name are in model order. -/
theorem typesOf_sublist (c : Codebase) (name : String) : (c.typesOf name).Sublist c.types := by
  rw [← typesUnder_members, types_eq]
  exact List.filter_sublist.map _

theorem mem_namespaceNames_iff {c : Codebase} {name : String} :
    name ∈ c.namespaceNames ↔ ∃ m ∈ c.modules, ∃ ns ∈ m.namespaces, ns.name = name := by
  rw [namespaceNames, mem_firstOccurrences, namespaces, List.map_flatMap, List.mem_flatMap]
  simp only [List.mem_map]

theorem mem_namespaceNames_of_mem_members {c : Codebase} {member : String × TypeDecl}
    (h : member ∈ c.members) : member.1 ∈ c.namespaceNames := by
  simp only [members, typesInOrder, List.mem_flatMap, List.mem_map] at h
  obtain ⟨ns, hns, _, -, rfl⟩ := h
  exact mem_firstOccurrences.2 (List.mem_map_of_mem hns)

/-- Every type is in one group, as often as it is declared. -/
theorem flatMap_typesByNamespace_perm (c : Codebase) :
    (c.typesByNamespace.flatMap (·.2)).Perm c.types := by
  rw [typesByNamespace_eq, List.flatMap_map, types_eq]
  exact flatMap_typesUnder_perm (nodup_firstOccurrences _) fun _ =>
    mem_namespaceNames_of_mem_members

theorem names_typesByNamespace (c : Codebase) :
    c.typesByNamespace.map (·.1) = c.namespaceNames := by
  simp [typesByNamespace_eq, Function.comp_def]

/-- Groups that divide the types of a code base by the names of their namespaces. Every declared
name has one group, also when no types stand under it, and a group keeps the order of the model. -/
structure DividesByName (c : Codebase) (groups : List (String × List TypeDecl)) : Prop where
  names : groups.map (·.1) = c.namespaceNames
  nodup : (groups.map (·.1)).Nodup
  mem_names : ∀ name, name ∈ groups.map (·.1) ↔
    ∃ m ∈ c.modules, ∃ ns ∈ m.namespaces, ns.name = name
  types : ∀ group ∈ groups, group.2 = c.typesOf group.1
  sublist : ∀ group ∈ groups, group.2.Sublist c.types
  perm : (groups.flatMap (·.2)).Perm c.types

/-- Grouping by namespace is a stable partition. -/
theorem typesByNamespace_dividesByName (c : Codebase) : c.DividesByName c.typesByNamespace := by
  have htypes : ∀ group ∈ c.typesByNamespace, group.2 = c.typesOf group.1 := by
    rw [typesByNamespace_eq_typesOf]
    exact List.forall_mem_map.2 fun _ _ => rfl
  have hnames := c.names_typesByNamespace
  exact
    { names := hnames
      nodup := hnames ▸ nodup_firstOccurrences _
      mem_names := fun name => by rw [hnames, mem_namespaceNames_iff]
      types := htypes
      sublist := fun group hgroup => htypes group hgroup ▸ c.typesOf_sublist group.1
      perm := c.flatMap_typesByNamespace_perm }

end Codebase

end DesignMetrics
