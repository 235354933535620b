import DesignMetrics.Proofs.Digraph.Parts
import DesignMetrics.Proofs.Metrics.Merging
import DesignMetrics.Proofs.Metrics.Ratios

/-!
# Merging unrelated models

Two models are unrelated when neither says anything about a name that the other declares. The graphs
of such models are parts of the graphs of the merged model, which has no other nodes. So degrees
stay as they are, the components of the first model are followed by those of the second, and every
section of the report is that of the first model and then that of the second. What neither of the
two declares may be named by both.
-/

namespace DesignMetrics

namespace CodeModel

/-- A type name that occurs in a model: declared, listed by a type, or at either end of an edge. -/
def MentionsType (m : CodeModel) (name : String) : Prop :=
  name ∈ m.typeFullNames ∨ (∃ t ∈ m.codebase.types, some name ∈ t.dependsOn) ∨
    name ∈ m.graph.typeEdges.sources ∨ ∃ entry ∈ m.graph.typeEdges.entries, name ∈ entry.2

/-- A namespace name that occurs in a model: declared, or at either end of an edge. -/
def MentionsNamespace (m : CodeModel) (name : String) : Prop :=
  name ∈ m.codebase.namespaceNames ∨ name ∈ m.graph.namespaceEdges.sources ∨
    ∃ entry ∈ m.graph.namespaceEdges.entries, name ∈ entry.2

instance (m : CodeModel) (name : String) : Decidable (m.MentionsType name) :=
  inferInstanceAs (Decidable (_ ∨ (∃ t ∈ m.codebase.types, _) ∨ _ ∨ ∃ entry ∈ _, _))

instance (m : CodeModel) (name : String) : Decidable (m.MentionsNamespace name) :=
  inferInstanceAs (Decidable (_ ∨ _ ∨ ∃ entry ∈ _, _))

/-- What one model declares does not occur in the other. -/
structure IsForeignTo (m other : CodeModel) : Prop where
  types : ∀ name ∈ m.typeFullNames, ¬ other.MentionsType name
  namespaces : ∀ name ∈ m.codebase.namespaceNames, ¬ other.MentionsNamespace name

structure Unrelated (m other : CodeModel) : Prop where
  left : m.IsForeignTo other
  right : other.IsForeignTo m

theorem Unrelated.symm {m other : CodeModel} (h : m.Unrelated other) : other.Unrelated m :=
  ⟨h.right, h.left⟩

theorem mem_typeNames {m : CodeModel} {name : String} :
    name ∈ m.codebase.typeNames ↔ name ∈ m.typeFullNames :=
  mem_firstOccurrences

namespace IsForeignTo

variable {m other : CodeModel} {source target : String}

theorem lists (h : m.IsForeignTo other) (hlists : other.Lists source target) :
    source ∉ m.codebase.typeNames ∧ target ∉ m.codebase.typeNames := by
  obtain ⟨t, ht, rfl, htarget⟩ := hlists
  rw [mem_typeNames, mem_typeNames]
  constructor
  · intro hmem
    exact h.types _ hmem (.inl (List.mem_map_of_mem ht))
  · intro hmem
    exact h.types _ hmem (.inr (.inl ⟨t, ht, htarget⟩))

theorem typeTargets (h : m.IsForeignTo other)
    (hedge : target ∈ other.graph.typeEdges.targets source) :
    source ∉ m.codebase.typeNames ∧ target ∉ m.codebase.typeNames := by
  obtain ⟨entry, hentry, rfl, htarget⟩ := EdgeMap.exists_mem_entries_iff.2 hedge
  rw [mem_typeNames, mem_typeNames]
  constructor
  · intro hmem
    exact h.types _ hmem (.inr (.inr (.inl (List.mem_map_of_mem hentry))))
  · intro hmem
    exact h.types _ hmem (.inr (.inr (.inr ⟨entry, hentry, htarget⟩)))

theorem namespaceTargets (h : m.IsForeignTo other)
    (hedge : target ∈ other.graph.namespaceEdges.targets source) :
    source ∉ m.codebase.namespaceNames ∧ target ∉ m.codebase.namespaceNames := by
  obtain ⟨entry, hentry, rfl, htarget⟩ := EdgeMap.exists_mem_entries_iff.2 hedge
  constructor
  · intro hmem
    exact h.namespaces _ hmem (.inr (.inl (List.mem_map_of_mem hentry)))
  · intro hmem
    exact h.namespaces _ hmem (.inr (.inr ⟨entry, hentry, htarget⟩))

end IsForeignTo

/-! ## A part and the whole -/

theorem draws_declaredTypeGraph (m : CodeModel) :
    m.declaredTypeGraph.Draws fun source target => target ∈ m.graph.typeEdges.targets source :=
  Digraph.draws_ofAdjacency _ _

/-- A whole that consists of a part and the rest, in whatever order the two come. -/
structure IsSum (part rest whole : CodeModel) : Prop where
  typeNames : ∀ name,
    name ∈ whole.codebase.typeNames ↔
      name ∈ part.codebase.typeNames ∨ name ∈ rest.codebase.typeNames
  namespaceNames : ∀ name,
    name ∈ whole.codebase.namespaceNames ↔
      name ∈ part.codebase.namespaceNames ∨ name ∈ rest.codebase.namespaceNames
  lists : ∀ source target,
    whole.Lists source target ↔ part.Lists source target ∨ rest.Lists source target
  typeTargets : ∀ source target,
    target ∈ whole.graph.typeEdges.targets source ↔
      target ∈ part.graph.typeEdges.targets source ∨ target ∈ rest.graph.typeEdges.targets source
  namespaceTargets : ∀ source target,
    target ∈ whole.graph.namespaceEdges.targets source ↔
      target ∈ part.graph.namespaceEdges.targets source ∨
        target ∈ rest.graph.namespaceEdges.targets source

theorem IsConcat.isSum {part rest whole : CodeModel} (h : IsConcat [part, rest] whole) :
    IsSum part rest whole where
  typeNames name := by
    rw [mem_typeNames, mem_typeNames, mem_typeNames, h.typeFullNames]
    simp
  namespaceNames name := by
    simp only [Codebase.namespaceNames, mem_firstOccurrences, h.namespaces]
    simp
  lists source target := by
    simp only [Lists, h.types]
    simp [or_and_right, exists_or]
  typeTargets source target := by
    rw [h.typeEdges.mem_targets]
    simp
  namespaceTargets source target := by
    rw [h.namespaceEdges.mem_targets]
    simp

/-- The graphs of a part stay parts of the graphs of the whole. -/
structure IsUndisturbed (part whole : CodeModel) : Prop where
  typeGraph : part.typeGraph.IsPart whole.typeGraph
  declaredTypeGraph : part.declaredTypeGraph.IsPart whole.declaredTypeGraph
  namespaceGraph : part.namespaceGraph.IsPart whole.namespaceGraph

namespace IsSum

variable {part rest whole : CodeModel}

theorem swap (h : IsSum part rest whole) : IsSum rest part whole where
  typeNames name := (h.typeNames name).trans or_comm
  namespaceNames name := (h.namespaceNames name).trans or_comm
  lists source target := (h.lists source target).trans or_comm
  typeTargets source target := (h.typeTargets source target).trans or_comm
  namespaceTargets source target := (h.namespaceTargets source target).trans or_comm

theorem isUndisturbed (h : IsSum part rest whole) (hunrelated : part.Unrelated rest) :
    part.IsUndisturbed whole where
  typeGraph := by
    apply part.draws_typeGraph.isPart (whole.draws_typeGraph.congr h.lists)
    · simpa only [nodes_typeGraph] using h.typeNames
    · exact fun _ _ hlists => hunrelated.right.lists hlists
    · simpa only [nodes_typeGraph] using fun _ _ hlists => hunrelated.left.lists hlists
  declaredTypeGraph := by
    apply part.draws_declaredTypeGraph.isPart (whole.draws_declaredTypeGraph.congr h.typeTargets)
    · simpa only [nodes_declaredTypeGraph] using h.typeNames
    · exact fun _ _ hedge => hunrelated.right.typeTargets hedge
    · simpa only [nodes_declaredTypeGraph] using fun _ _ hedge => hunrelated.left.typeTargets hedge
  namespaceGraph := by
    apply part.draws_namespaceGraph.isPart (whole.draws_namespaceGraph.congr h.namespaceTargets)
    · simpa only [nodes_namespaceGraph] using h.namespaceNames
    · exact fun _ _ hedge => hunrelated.right.namespaceTargets hedge
    · simpa only [nodes_namespaceGraph] using fun _ _ hedge =>
        hunrelated.left.namespaceTargets hedge

end IsSum

namespace IsUndisturbed

variable {part whole : CodeModel}

theorem typeMetrics (h : part.IsUndisturbed whole) :
    part.codebase.types.map (·.metrics whole.typeGraph) =
      part.codebase.types.map (·.metrics part.typeGraph) := by
  apply List.map_congr_left
  intro t ht
  apply TypeDecl.metrics_congr_at
  apply h.typeGraph.sameDegreesAt
  rw [nodes_typeGraph, mem_typeNames]
  exact List.mem_map_of_mem ht

theorem typeCoupling (h : part.IsUndisturbed whole) :
    part.codebase.types.map (·.coupling whole.typeGraph) = part.typeCoupling := by
  apply List.map_congr_left
  intro t ht
  apply TypeDecl.coupling_congr_at
  apply h.typeGraph.sameDegreesAt
  rw [nodes_typeGraph, mem_typeNames]
  exact List.mem_map_of_mem ht

theorem outcome_namespaceCoupling (h : part.IsUndisturbed whole) :
    (part.codebase.typesByNamespace.mapM fun group =>
      DesignMetrics.namespaceCoupling whole.namespaceGraph group.1 group.2) =
      part.namespaceCoupling.outcome := by
  rw [CodeModel.outcome_namespaceCoupling]
  apply mapM_congr_left
  intro group hgroup
  apply namespaceCoupling_congr_at
  apply h.namespaceGraph.sameDegreesAt
  rw [nodes_namespaceGraph, ← Codebase.names_typesByNamespace]
  exact List.mem_map_of_mem hgroup

end IsUndisturbed

end CodeModel

/-! ## The sections of the whole -/

def DependencyMetrics.cyclesOf (d : DependencyMetrics) (scope : CycleScope) :
    List DependencyCycle :=
  d.cycles.filter (·.scope = scope)

namespace CodeModel

/-- A report whose sections are those of two models, one after the other. -/
structure SideBySide (first second whole : CodeModel) : Prop where
  types : ∃ records records', first.typeMetrics.outcome = .ok records ∧
    second.typeMetrics.outcome = .ok records' ∧
    whole.typeMetrics.outcome = .ok (records ++ records')
  typeCoupling : whole.typeCoupling = first.typeCoupling ++ second.typeCoupling
  namespaces : whole.namespaceMetrics = first.namespaceMetrics ++ second.namespaceMetrics
  namespaceCoupling : ∃ records records', first.namespaceCoupling.outcome = .ok records ∧
    second.namespaceCoupling.outcome = .ok records' ∧
    whole.namespaceCoupling.outcome = .ok (records ++ records')
  cycles : ∃ d d' both, first.dependencyMetrics.outcome = .ok d ∧
    second.dependencyMetrics.outcome = .ok d' ∧ whole.dependencyMetrics.outcome = .ok both ∧
    both.cycles =
      d.cyclesOf .type ++ d'.cyclesOf .type ++ d.cyclesOf .namespace ++ d'.cyclesOf .namespace

namespace IsConcat

variable {first second whole : CodeModel}

theorem typeNames_of_unrelated (h : IsConcat [first, second] whole)
    (hunrelated : first.Unrelated second) :
    whole.codebase.typeNames = first.codebase.typeNames ++ second.codebase.typeNames := by
  have hdisjoint : [first, second].Pairwise fun m m' => ∀ name ∈ m.typeFullNames,
      name ∉ m'.typeFullNames := by
    simpa using fun name hname hname' => hunrelated.left.types name hname (.inl hname')
  have hnames := firstOccurrences_flatMap hdisjoint
  rwa [← h.typeFullNames, List.flatMap_cons, List.flatMap_singleton] at hnames

theorem namespaceNames_of_unrelated (h : IsConcat [first, second] whole)
    (hunrelated : first.Unrelated second) :
    whole.codebase.namespaceNames =
      first.codebase.namespaceNames ++ second.codebase.namespaceNames := by
  have hdisjoint : [first, second].Pairwise fun m m' =>
      ∀ name ∈ m.codebase.namespaces.map (·.name), name ∉ m'.codebase.namespaces.map (·.name) := by
    refine List.pairwise_pair.2 fun name hname hname' => ?_
    exact hunrelated.left.namespaces name (mem_firstOccurrences.2 hname)
      (.inl (mem_firstOccurrences.2 hname'))
  have hnames := firstOccurrences_flatMap hdisjoint
  rwa [← List.map_flatMap, ← h.namespaces, List.flatMap_cons, List.flatMap_singleton] at hnames

theorem typesByNamespace_of_unrelated (h : IsConcat [first, second] whole)
    (hunrelated : first.Unrelated second) :
    whole.codebase.typesByNamespace =
      first.codebase.typesByNamespace ++ second.codebase.typesByNamespace := by
  have hmembers : whole.codebase.members = first.codebase.members ++ second.codebase.members := by
    rw [h.members, List.flatMap_cons, List.flatMap_singleton]
  rw [Codebase.typesByNamespace_eq, Codebase.typesByNamespace_eq, Codebase.typesByNamespace_eq,
    h.namespaceNames_of_unrelated hunrelated, List.map_append, hmembers]
  congr 1
  · apply List.map_congr_left
    intro name hname
    have hnot : name ∉ second.codebase.namespaces.map (·.name) := fun hname' =>
      hunrelated.left.namespaces name hname (.inl (mem_firstOccurrences.2 hname'))
    have hnone : DesignMetrics.typesUnder name second.codebase.members = [] :=
      typesUnder_of_not_mem hnot
    rw [typesUnder_append, hnone, List.append_nil]
  · apply List.map_congr_left
    intro name hname
    have hnot : name ∉ first.codebase.namespaces.map (·.name) := fun hname' =>
      hunrelated.right.namespaces name hname (.inl (mem_firstOccurrences.2 hname'))
    have hnone : DesignMetrics.typesUnder name first.codebase.members = [] :=
      typesUnder_of_not_mem hnot
    rw [typesUnder_append, hnone, List.nil_append]

theorem types_pair (h : IsConcat [first, second] whole) :
    whole.codebase.types = first.codebase.types ++ second.codebase.types := by
  rw [h.types, List.flatMap_cons, List.flatMap_singleton]

theorem isUnion_declaredTypeGraph (h : IsConcat [first, second] whole)
    (hunrelated : first.Unrelated second) :
    whole.declaredTypeGraph.IsUnion first.declaredTypeGraph second.declaredTypeGraph := by
  have hfirst := (h.isSum.isUndisturbed hunrelated).declaredTypeGraph
  have hsecond := (h.isSum.swap.isUndisturbed hunrelated.symm).declaredTypeGraph
  apply Digraph.isUnion_ofAdjacency _ hfirst hsecond
  show whole.declaredTypeGraph.nodes =
    first.declaredTypeGraph.nodes ++ second.declaredTypeGraph.nodes
  simp only [nodes_declaredTypeGraph]
  exact h.typeNames_of_unrelated hunrelated

theorem isUnion_namespaceGraph (h : IsConcat [first, second] whole)
    (hunrelated : first.Unrelated second) :
    whole.namespaceGraph.IsUnion first.namespaceGraph second.namespaceGraph := by
  have hfirst := (h.isSum.isUndisturbed hunrelated).namespaceGraph
  have hsecond := (h.isSum.swap.isUndisturbed hunrelated.symm).namespaceGraph
  apply Digraph.isUnion_ofAdjacency _ hfirst hsecond
  show whole.namespaceGraph.nodes = first.namespaceGraph.nodes ++ second.namespaceGraph.nodes
  simp only [nodes_namespaceGraph]
  exact h.namespaceNames_of_unrelated hunrelated

end IsConcat

theorem cyclesOf_type (m : CodeModel) (total internal : Int) :
    (DependencyMetrics.mk total internal m.cycles).cyclesOf .type =
      m.declaredTypeGraph.cycles.map (⟨·, .type⟩) := by
  simp [DependencyMetrics.cyclesOf, cycles, List.filter_append, List.filter_map, Function.comp_def]

theorem cyclesOf_namespace (m : CodeModel) (total internal : Int) :
    (DependencyMetrics.mk total internal m.cycles).cyclesOf .namespace =
      m.namespaceGraph.cycles.map (⟨·, .namespace⟩) := by
  simp [DependencyMetrics.cyclesOf, cycles, List.filter_append, List.filter_map, Function.comp_def]
  rfl

variable {first second whole : CodeModel}

theorem IsConcat.sideBySide (h : IsConcat [first, second] whole)
    (hunrelated : first.Unrelated second) : SideBySide first second whole := by
  have hfirst := h.isSum.isUndisturbed hunrelated
  have hsecond := h.isSum.swap.isUndisturbed hunrelated.symm
  refine ⟨?_, ?_, ?_, ?_, ?_⟩
  · refine ⟨_, _, first.outcome_typeMetrics, second.outcome_typeMetrics, ?_⟩
    rw [whole.outcome_typeMetrics, h.types_pair, List.map_append, hfirst.typeMetrics,
      hsecond.typeMetrics]
  · show whole.codebase.types.map (·.coupling whole.typeGraph) = _
    rw [h.types_pair, List.map_append, hfirst.typeCoupling, hsecond.typeCoupling]
  · simp only [namespaceMetrics, h.typesByNamespace_of_unrelated hunrelated, List.map_append]
  · obtain ⟨records, hrecords, -⟩ := first.exists_outcome_namespaceCoupling
    obtain ⟨records', hrecords', -⟩ := second.exists_outcome_namespaceCoupling
    refine ⟨records, records', hrecords, hrecords', ?_⟩
    rw [outcome_namespaceCoupling, h.typesByNamespace_of_unrelated hunrelated, List.mapM_append,
      hfirst.outcome_namespaceCoupling, hsecond.outcome_namespaceCoupling, hrecords, hrecords']
    rfl
  · refine ⟨_, _, _, first.outcome_dependencyMetrics, second.outcome_dependencyMetrics,
      whole.outcome_dependencyMetrics, ?_⟩
    have hnamespaces : whole.declaredNamespaceGraph.cycles =
        first.namespaceGraph.cycles ++ second.namespaceGraph.cycles :=
      (h.isUnion_namespaceGraph hunrelated).cycles
    rw [cyclesOf_type, cyclesOf_type, cyclesOf_namespace, cyclesOf_namespace]
    show whole.cycles = _
    rw [cycles, (h.isUnion_declaredTypeGraph hunrelated).cycles, hnamespaces, List.map_append,
      List.map_append, List.append_assoc, List.append_assoc, List.append_assoc]

/-- Unrelated models do not influence each other when they are merged: what the whole reports on
types and namespaces is what the first model reports and then what the second one does, and so are
its cycles, the types before the namespaces. -/
theorem sideBySide_of_merge (hunrelated : first.Unrelated second)
    (hmerge : (merge (some [some first, some second])).outcome = .ok whole) :
    SideBySide first second whole := by
  have hmapped : (merge (some ([first, second].map some))).outcome = .ok whole := hmerge
  exact (merge_eq_ok_iff.1 hmapped).1.sideBySide hunrelated

/-- Two types and two namespaces in cycles, and a dependency on a name that nobody declares. -/
def shop : CodeModel where
  codebase := ⟨[⟨"shop", [
    ⟨"cart", [{ fullName := "Cart", dependsOn := [some "Item", some "Log"] }]⟩,
    ⟨"stock", [{ fullName := "Item", dependsOn := [some "Cart"] }]⟩]⟩]⟩
  graph :=
    { typeEdges := .ofList [("Cart", .ofList ["Item", "Log"]), ("Item", .ofList ["Cart"])]
      namespaceEdges := .ofList [("cart", .ofList ["stock", "logging"]),
        ("stock", .ofList ["cart"])] }

/-- A cycle of three types in one namespace, and a dependency on the same undeclared name. -/
def bank : CodeModel where
  codebase := ⟨[⟨"bank", [⟨"ledger", [
    { fullName := "Entry", isAbstract := true, dependsOn := [some "Sum"] },
    { fullName := "Sum", dependsOn := [some "Book", none] },
    { fullName := "Book", dependsOn := [some "Entry", some "Log"] }]⟩]⟩]⟩
  graph :=
    { typeEdges := .ofList [("Book", .ofList ["Entry", "Log"]), ("Sum", .ofList ["Book"]),
        ("Entry", .ofList ["Sum"])]
      namespaceEdges := .ofList [("ledger", .ofList ["logging"])] }

theorem sideBySide_shop_bank :
    shop.Unrelated bank ∧ ∃ whole,
      (merge (some [some shop, some bank])).outcome = .ok whole ∧ SideBySide shop bank whole := by
  have hunrelated : shop.Unrelated bank :=
    ⟨⟨by decide, by decide⟩, ⟨by decide, by decide⟩⟩
  have hmerge : (merge (some [some shop, some bank])).outcome = .ok (concat [shop, bank]) := rfl
  exact ⟨hunrelated, _, hmerge, sideBySide_of_merge hunrelated hmerge⟩

end CodeModel

end DesignMetrics
