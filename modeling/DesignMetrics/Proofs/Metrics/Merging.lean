import DesignMetrics.Proofs.Metrics.Totals
import DesignMetrics.Proofs.Metrics.TypeCoupling
import DesignMetrics.Proofs.Model.Merge

/-!
# Figures of a merged model

What is counted declaration by declaration adds up when models are merged. What is counted on a
graph can only grow, since the merged model has the names and the edges of all its parts: coupling
does not become less, and the types or namespaces of a cycle stay in one cycle. The dependencies add
up as pairs of a type name and a target, and that takes the one thing a merge checks, that no two
models declare types of one name.
-/

namespace DesignMetrics

/-! ## What becomes of figures -/

/-- The figures of a type in a larger model. What the declaration says by itself is the same. -/
structure TypeMetrics.Grows (part whole : TypeMetrics) : Prop where
  typeFullName : whole.typeFullName = part.typeFullName
  sloc : whole.sloc = part.sloc
  nom : whole.nom = part.nom
  npm : whole.npm = part.npm
  wmc : whole.wmc = part.wmc
  dep : whole.dep = part.dep
  noa : whole.noa = part.noa
  lcom3 : whole.lcom3 = part.lcom3
  fanIn : part.fanIn ≤ whole.fanIn
  fanOut : part.fanOut ≤ whole.fanOut
  iDep : part.iDep ≤ whole.iDep

/-- A figure of a namespace name among some records; zero when none of them is of that name. -/
def figureOf (figure : NamespaceMetrics → Int) (records : List NamespaceMetrics) (name : String) :
    Int :=
  ((records.find? (·.name = name)).map figure).getD 0

/-- The dependencies of models that are put together. -/
structure DependencyMetrics.Joins (parts : List DependencyMetrics) (whole : DependencyMetrics) :
    Prop where
  total : whole.totalDependencies = (parts.map (·.totalDependencies)).sum
  le_internal : ∀ part ∈ parts, part.internalDependencies ≤ whole.internalDependencies
  internal_le : whole.internalDependencies ≤ (parts.map (·.internalDependencies)).sum
  cycles : ∀ part ∈ parts, ∀ cycle ∈ part.cycles,
    ∃ larger ∈ whole.cycles, larger.scope = cycle.scope ∧ cycle.nodes ⊆ larger.nodes

namespace CodeModel

/-- The figures of a model against those of the models it was made of. -/
structure FiguresJoin (parts : List CodeModel) (whole : CodeModel) : Prop where
  methods : whole.methodMetrics = parts.flatMap (·.methodMetrics)
  types : ∃ figures ofParts, whole.typeMetrics.outcome = .ok figures ∧
    parts.mapM (·.typeMetrics.outcome) = .ok ofParts ∧
    List.Forall₂ TypeMetrics.Grows ofParts.flatten figures
  noc : ∀ name, figureOf (·.noc) whole.namespaceMetrics name =
    (parts.map fun m => figureOf (·.noc) m.namespaceMetrics name).sum
  nac : ∀ name, figureOf (·.nac) whole.namespaceMetrics name =
    (parts.map fun m => figureOf (·.nac) m.namespaceMetrics name).sum
  dependencies : ∃ figures ofParts, whole.dependencyMetrics.outcome = .ok figures ∧
    parts.mapM (·.dependencyMetrics.outcome) = .ok ofParts ∧
    DependencyMetrics.Joins ofParts figures

/-! ## Namespaces -/

/-- A figure that is zero without types is read off the types under the name. -/
theorem figureOf_namespaceMetrics (figure : NamespaceMetrics → Int) {name : String}
    (hzero : figure (Namespace.mk name []).metrics = 0) (m : CodeModel) :
    figureOf figure m.namespaceMetrics name =
      figure (Namespace.mk name (typesUnder name m.codebase.members)).metrics := by
  rw [figureOf, namespaceMetrics, Codebase.typesByNamespace_eq, List.map_map, List.find?_map]
  cases hfound : m.codebase.namespaceNames.find? _ with
  | none =>
    have hnot : name ∉ m.codebase.namespaces.map (·.name) := by
      intro hname
      have hnone := List.find?_eq_none.1 hfound name (mem_firstOccurrences.2 hname)
      simp [Namespace.metrics] at hnone
    rw [Codebase.members, typesUnder_of_not_mem hnot]
    exact hzero.symm
  | some found =>
    have hfound : found = name := by simpa [Namespace.metrics] using List.find?_some hfound
    rw [hfound]
    rfl

theorem typesUnder_flatMap (name : String) (members : CodeModel → List (String × TypeDecl))
    (parts : List CodeModel) :
    typesUnder name (parts.flatMap members) =
      parts.flatMap fun m => typesUnder name (members m) := by
  simp only [typesUnder, List.filter_flatMap, List.map_flatMap]

namespace IsConcat

variable {parts : List CodeModel} {whole m : CodeModel}

theorem typesUnder (h : IsConcat parts whole) (name : String) :
    typesUnder name whole.codebase.members =
      parts.flatMap fun m => DesignMetrics.typesUnder name m.codebase.members := by
  rw [h.members, typesUnder_flatMap]

theorem noc (h : IsConcat parts whole) (name : String) :
    figureOf (·.noc) whole.namespaceMetrics name =
      (parts.map fun m => figureOf (·.noc) m.namespaceMetrics name).sum := by
  simp only [figureOf_namespaceMetrics (·.noc) rfl, Namespace.metrics, h.typesUnder]
  exact (sum_map_length _ parts).symm

theorem nac (h : IsConcat parts whole) (name : String) :
    figureOf (·.nac) whole.namespaceMetrics name =
      (parts.map fun m => figureOf (·.nac) m.namespaceMetrics name).sum := by
  simp only [figureOf_namespaceMetrics (·.nac) rfl, Namespace.metrics, h.typesUnder,
    abstractClassCount, List.countP_eq_length_filter, List.filter_flatMap]
  exact (sum_map_length _ parts).symm

/-! ## Types -/

theorem methodMetrics (h : IsConcat parts whole) :
    whole.methodMetrics = parts.flatMap (·.methodMetrics) := by
  rw [CodeModel.methodMetrics, h.methods, List.map_flatMap]
  rfl

theorem lists (h : IsConcat parts whole) (hm : m ∈ parts) {source target : String}
    (hlists : m.Lists source target) : whole.Lists source target := by
  obtain ⟨t, ht, hname, htarget⟩ := hlists
  refine ⟨t, ?_, hname, htarget⟩
  rw [h.types]
  exact List.mem_flatMap.2 ⟨m, hm, ht⟩

theorem declaredNames_subset (h : IsConcat parts whole) (hm : m ∈ parts) :
    m.declaredNames ⊆ whole.declaredNames := by
  intro name hname
  rw [mem_declaredNames] at hname ⊢
  exact h.typeNames_subset hm hname

theorem dependencies_subset (h : IsConcat parts whole) (hm : m ∈ parts) (name : String) :
    m.dependencies name ⊆ whole.dependencies name := by
  intro target htarget
  rw [CodeModel.dependencies, Finset.mem_filter] at htarget ⊢
  exact ⟨h.declaredNames_subset hm htarget.1, htarget.2.1, h.lists hm htarget.2.2⟩

theorem dependents_subset (h : IsConcat parts whole) (hm : m ∈ parts) (name : String) :
    m.dependents name ⊆ whole.dependents name := by
  intro source hsource
  rw [CodeModel.dependents, Finset.mem_filter] at hsource ⊢
  exact ⟨h.declaredNames_subset hm hsource.1, hsource.2.1, h.lists hm hsource.2.2⟩

theorem grows (h : IsConcat parts whole) (hm : m ∈ parts) {t : TypeDecl}
    (ht : t ∈ m.codebase.types) :
    (t.metrics m.typeGraph).Grows (t.metrics whole.typeGraph) := by
  have hwhole : t ∈ whole.codebase.types := by
    rw [h.types]
    exact List.mem_flatMap.2 ⟨m, hm, ht⟩
  have hpart := counts_typeGraph ht
  have hcounts := counts_typeGraph hwhole
  have hout := Int.ofNat_le.2 (Finset.card_le_card (h.dependencies_subset hm t.fullName))
  have hin := Int.ofNat_le.2 (Finset.card_le_card (h.dependents_subset hm t.fullName))
  refine ⟨rfl, rfl, rfl, rfl, rfl, rfl, rfl, rfl, ?_, ?_, ?_⟩
  · rw [hpart.figures_fanIn, hcounts.figures_fanIn]
    exact hin
  · rw [hpart.figures_fanOut, hcounts.figures_fanOut]
    exact hout
  · rw [hpart.iDep, hcounts.iDep]
    exact hout

theorem typeMetrics (h : IsConcat parts whole) :
    List.Forall₂ TypeMetrics.Grows
      (parts.map fun m => m.codebase.types.map (·.metrics m.typeGraph)).flatten
      (whole.codebase.types.map (·.metrics whole.typeGraph)) := by
  -- the records of both sides belong to the same types, each beside its part
  set owned := parts.flatMap fun m => m.codebase.types.map (m, ·) with howned
  have hparts : (parts.map fun m => m.codebase.types.map (·.metrics m.typeGraph)).flatten =
      owned.map fun entry => entry.2.metrics entry.1.typeGraph := by
    simp [howned, List.flatMap_def, Function.comp_def]
  have hwhole : whole.codebase.types.map (·.metrics whole.typeGraph) =
      owned.map fun entry => entry.2.metrics whole.typeGraph := by
    simp [howned, h.types, List.map_flatMap, Function.comp_def]
  rw [hparts, hwhole, List.forall₂_map_left_iff, List.forall₂_map_right_iff, List.forall₂_same]
  rintro ⟨m, t⟩ hentry
  simp only [howned, List.mem_flatMap, List.mem_map, Prod.mk.injEq] at hentry
  obtain ⟨_, hm, _, ht, rfl, rfl⟩ := hentry
  exact h.grows hm ht

/-! ## Dependencies -/

theorem totalDependencies (h : IsConcat parts whole)
    (hdisjoint : parts.Pairwise fun m m' => m.typeFullNames.Disjoint m'.typeFullNames) :
    (whole.totalDependencies : Int) = (parts.map fun m => (m.totalDependencies : Int)).sum := by
  have hpairs : whole.dependencyPairs = parts.flatMap (·.dependencyPairs) := by
    rw [dependencyPairs, h.types, List.flatMap_assoc]
    refine firstOccurrences_flatMap (hdisjoint.imp ?_)
    intro m m' hnames pair hpair hpair'
    simp only [List.mem_flatMap, List.mem_map] at hpair hpair'
    obtain ⟨t, ht, _, -, rfl⟩ := hpair
    obtain ⟨t', ht', _, -, heq⟩ := hpair'
    exact hnames (List.mem_map_of_mem ht) ((Prod.mk.inj heq).1 ▸ List.mem_map_of_mem ht')
  rw [CodeModel.totalDependencies, hpairs]
  exact (sum_map_length _ parts).symm

theorem mem_internalPairs (h : IsConcat parts whole) {pair : String × String} :
    pair ∈ whole.internalPairs ↔ ∃ m ∈ parts, pair ∈ m.internalPairs := by
  obtain ⟨source, target⟩ := pair
  simp only [CodeModel.internalPairs, List.mem_filter, EdgeMap.mem_pairs, h.typeEdges.mem_targets,
    List.mem_map, exists_exists_and_eq_and]
  constructor
  · rintro ⟨⟨m, hm, htarget⟩, hcounts⟩
    exact ⟨m, hm, htarget, hcounts⟩
  · rintro ⟨m, hm, htarget, hcounts⟩
    exact ⟨⟨m, hm, htarget⟩, hcounts⟩

theorem le_internalDependencies (h : IsConcat parts whole) (hm : m ∈ parts) :
    m.internalDependencies ≤ whole.internalDependencies := by
  rw [length_internalPairs, length_internalPairs]
  apply (m.nodup_internalPairs.subperm _).length_le
  intro pair hpair
  exact h.mem_internalPairs.2 ⟨m, hm, hpair⟩

theorem internalDependencies_le (h : IsConcat parts whole) :
    (whole.internalDependencies : Int) ≤
      (parts.map fun m => (m.internalDependencies : Int)).sum := by
  simp only [length_internalPairs]
  rw [sum_map_length, Int.ofNat_le]
  apply (whole.nodup_internalPairs.subperm _).length_le
  intro pair hpair
  exact List.mem_flatMap.2 (h.mem_internalPairs.1 hpair)

/-! ## Cycles -/

theorem typeEdge (h : IsConcat parts whole) (hm : m ∈ parts) {source target : String}
    (hedge : m.TypeEdge source target) : whole.TypeEdge source target := by
  apply EdgeMap.Keeps.mono hedge (h.typeNames_subset hm)
  intro htarget
  exact (h.typeEdges.mem_targets source target).2 ⟨_, List.mem_map_of_mem hm, htarget⟩

theorem namespaceEdge (h : IsConcat parts whole) (hm : m ∈ parts) {source target : String}
    (hedge : m.NamespaceEdge source target) : whole.NamespaceEdge source target := by
  apply EdgeMap.Keeps.mono hedge (h.namespaceNames_subset hm)
  intro htarget
  exact (h.namespaceEdges.mem_targets source target).2 ⟨_, List.mem_map_of_mem hm, htarget⟩

theorem exists_larger_cycle (h : IsConcat parts whole) (hm : m ∈ parts) {cycle : DependencyCycle}
    (hcycle : cycle ∈ m.cycles) :
    ∃ larger ∈ whole.cycles, larger.scope = cycle.scope ∧ cycle.nodes ⊆ larger.nodes := by
  rw [CodeModel.cycles, List.mem_append, List.mem_map, List.mem_map] at hcycle
  rcases hcycle with ⟨nodes, hnodes, rfl⟩ | ⟨nodes, hnodes, rfl⟩
  · obtain ⟨larger, hlarger, hsubset⟩ := m.areCycles_types.exists_superset whole.areCycles_types
      (fun _ _ => h.typeEdge hm) hnodes
    exact ⟨⟨larger, .type⟩, List.mem_append_left _ (List.mem_map_of_mem hlarger), rfl, hsubset⟩
  · obtain ⟨larger, hlarger, hsubset⟩ := m.areCycles_namespaces.exists_superset
      whole.areCycles_namespaces (fun _ _ => h.namespaceEdge hm) hnodes
    exact ⟨⟨larger, .namespace⟩, List.mem_append_right _ (List.mem_map_of_mem hlarger), rfl,
      hsubset⟩

/-! ## All figures -/

theorem joins (h : IsConcat parts whole)
    (hdisjoint : parts.Pairwise fun m m' => m.typeFullNames.Disjoint m'.typeFullNames) :
    DependencyMetrics.Joins
      (parts.map fun m => ⟨m.totalDependencies, m.internalDependencies, m.cycles⟩)
      ⟨whole.totalDependencies, whole.internalDependencies, whole.cycles⟩ where
  total := by
    rw [List.map_map]
    exact h.totalDependencies hdisjoint
  le_internal := by
    intro part hpart
    obtain ⟨m, hm, rfl⟩ := List.mem_map.1 hpart
    exact Int.ofNat_le.2 (h.le_internalDependencies hm)
  internal_le := by
    rw [List.map_map]
    exact h.internalDependencies_le
  cycles := by
    intro part hpart cycle hcycle
    obtain ⟨m, hm, rfl⟩ := List.mem_map.1 hpart
    exact h.exists_larger_cycle hm hcycle

theorem figuresJoin (h : IsConcat parts whole)
    (hdisjoint : parts.Pairwise fun m m' => m.typeFullNames.Disjoint m'.typeFullNames) :
    FiguresJoin parts whole where
  methods := h.methodMetrics
  types := by
    refine ⟨_, _, whole.outcome_typeMetrics, ?_, h.typeMetrics⟩
    simp only [outcome_typeMetrics]
    exact List.mapM_pure
  noc := h.noc
  nac := h.nac
  dependencies := by
    refine ⟨_, _, whole.outcome_dependencyMetrics, ?_, h.joins hdisjoint⟩
    simp only [outcome_dependencyMetrics]
    exact List.mapM_pure

end IsConcat

/-- Metrics respect merging. Methods are listed one model after the other, and so are types, whose
own figures stay the same while their coupling does not become less. The figures of a namespace name
and the dependencies add up, the internal ones up to those that models share, and every cycle of a
model is within one cycle of the whole. -/
theorem figuresJoin_of_merge {models : List CodeModel} {whole : CodeModel}
    (h : (merge (some (models.map some))).outcome = .ok whole) : FiguresJoin models whole :=
  (merge_eq_ok_iff.1 h).1.figuresJoin (disjoint_of_merge h)

/-- Two types in a cycle, and one edge of the cycle of the namespaces. -/
def front : CodeModel where
  codebase := ⟨[⟨"app", [⟨"core", [{ fullName := "A", dependsOn := [some "B", some "C"] },
    { fullName := "B", methods := [{ fullName := "B.f", sloc := 4 }] }]⟩]⟩]⟩
  graph :=
    { typeEdges := .ofList [("A", .ofList ["B"]), ("B", .ofList ["A"])]
      namespaceEdges := .ofList [("core", .ofList ["ui"])] }

/-- A type that makes that cycle longer, the other edge, and an edge that is there already. -/
def back : CodeModel where
  codebase := ⟨[⟨"app", [⟨"ui", []⟩, ⟨"core", [
    { fullName := "C", isAbstract := true, dependsOn := [some "A", some "Log"] }]⟩]⟩]⟩
  graph :=
    { typeEdges := .ofList [("B", .ofList ["C"]), ("C", .ofList ["A"]), ("A", .ofList ["B"])]
      namespaceEdges := .ofList [("ui", .ofList ["core"])] }

theorem figuresJoin_front_back : ∃ whole,
    (merge (some [some front, some back])).outcome = .ok whole ∧
      FiguresJoin [front, back] whole := by
  have hmerge : (merge (some ([front, back].map some))).outcome = .ok (concat [front, back]) := rfl
  exact ⟨_, hmerge, figuresJoin_of_merge hmerge⟩

end CodeModel

end DesignMetrics
