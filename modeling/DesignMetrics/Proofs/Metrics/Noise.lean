import Mathlib.Data.List.Forall2
import DesignMetrics.Proofs.Metrics.Content
import DesignMetrics.Proofs.Metrics.TypeGraph

/-!
# Edges that lead nowhere

An edge from a name to itself, from an undeclared name or to one is noise: it may stand in the edge
maps and in the dependency lists of the types, and no other figure than the four counts of raw
dependencies takes notice of it. Entries without a name and repeated names are noise too. The rest
of a code base is what is left without its dependency lists, and all other figures are figures of
that and of the edges that are no noise.
-/

namespace DesignMetrics

/-! ## Code bases without their dependency lists -/

def TypeDecl.bare (t : TypeDecl) : TypeDecl := { t with dependsOn := [] }

def Namespace.bare (n : Namespace) : Namespace := { n with types := n.types.map TypeDecl.bare }

def Module.bare (m : Module) : Module := { m with namespaces := m.namespaces.map Namespace.bare }

namespace Codebase

def bare (c : Codebase) : Codebase := ⟨c.modules.map Module.bare⟩

theorem namespaces_bare (c : Codebase) : c.bare.namespaces = c.namespaces.map Namespace.bare := by
  simp [namespaces, bare, Module.bare, List.flatMap_map, List.map_flatMap]

theorem types_bare (c : Codebase) : c.bare.types = c.types.map TypeDecl.bare := by
  rw [types, types, namespaces_bare, List.flatMap_map, List.map_flatMap]
  rfl

theorem methods_bare (c : Codebase) : c.bare.methods = c.methods := by
  rw [methods, methods, types_bare, List.flatMap_map]
  rfl

theorem typeNames_bare (c : Codebase) : c.bare.typeNames = c.typeNames := by
  rw [typeNames, typeNames, types_bare, List.map_map]
  rfl

theorem namespaceNames_bare (c : Codebase) : c.bare.namespaceNames = c.namespaceNames := by
  rw [namespaceNames, namespaceNames, namespaces_bare, List.map_map]
  rfl

theorem members_bare (c : Codebase) :
    c.bare.members = c.members.map fun member => (member.1, member.2.bare) := by
  rw [members, members, namespaces_bare, typesInOrder, typesInOrder, List.flatMap_map,
    List.map_flatMap]
  refine List.flatMap_congr fun ns _ => ?_
  simp [Namespace.bare, Function.comp_def]

theorem typesByNamespace_bare (c : Codebase) :
    c.bare.typesByNamespace = c.typesByNamespace.map fun group =>
      (group.1, group.2.map TypeDecl.bare) := by
  rw [typesByNamespace_eq, typesByNamespace_eq, namespaceNames_bare, members_bare, List.map_map]
  refine List.map_congr_left fun name _ => ?_
  simp [typesUnder, List.filter_map, Function.comp_def]

end Codebase

/-! ## Figures without the counts of raw dependencies -/

def TypeMetrics.withoutCounts (r : TypeMetrics) : TypeMetrics := { r with dep := 0 }

def TypeCoupling.withoutCounts (r : TypeCoupling) : TypeCoupling := { r with dependencies := 0 }

def DependencyMetrics.withoutCounts (r : DependencyMetrics) : DependencyMetrics :=
  { r with totalDependencies := 0, internalDependencies := 0 }

/-- A report without the four counts of dependencies that are taken before any name is looked up. -/
def MetricsReport.withoutCounts (r : MetricsReport) : MetricsReport :=
  { r with
    types := r.types.map TypeMetrics.withoutCounts
    typeCoupling := r.typeCoupling.map TypeCoupling.withoutCounts
    dependencies := r.dependencies.withoutCounts }

theorem TypeDecl.metrics_bare {g g' : Digraph} (h : g.SameDegrees g') (t : TypeDecl) :
    (t.metrics g).withoutCounts = (t.bare.metrics g').withoutCounts := by
  rw [t.metrics_congr h]
  rfl

theorem TypeDecl.coupling_bare {g g' : Digraph} (h : g.SameDegrees g') (t : TypeDecl) :
    (t.coupling g).withoutCounts = (t.bare.coupling g').withoutCounts := by
  rw [t.coupling_congr h]
  rfl

theorem map_metrics_bare {g g' : Digraph} (h : g.SameDegrees g') (types : List TypeDecl) :
    (types.map (·.metrics g)).map TypeMetrics.withoutCounts =
      (types.map TypeDecl.bare).map fun t => (t.metrics g').withoutCounts := by
  rw [List.map_map, List.map_map]
  exact List.map_congr_left fun t _ => t.metrics_bare h

theorem map_coupling_bare {g g' : Digraph} (h : g.SameDegrees g') (types : List TypeDecl) :
    (types.map (·.coupling g)).map TypeCoupling.withoutCounts =
      (types.map TypeDecl.bare).map fun t => (t.coupling g').withoutCounts := by
  rw [List.map_map, List.map_map]
  exact List.map_congr_left fun t _ => t.coupling_bare h

theorem abstractClassCount_bare (types : List TypeDecl) :
    abstractClassCount (types.map TypeDecl.bare) = abstractClassCount types := by
  rw [abstractClassCount, List.countP_map]
  rfl

theorem abstractness_bare (types : List TypeDecl) :
    abstractness (types.map TypeDecl.bare) = abstractness types := by
  apply abstractness_congr
  · rw [List.countP_map]
    rfl
  · exact List.length_map ..

theorem namespaceCoupling_bare (g : Digraph) (name : String) (types : List TypeDecl) :
    namespaceCoupling g name (types.map TypeDecl.bare) = namespaceCoupling g name types := by
  rw [namespaceCoupling, namespaceCoupling, abstractness_bare]

namespace CodeModel

/-- The summary takes no notice of the counts of raw dependencies. -/
theorem summary_withoutCounts (m : CodeModel) (types : List TypeMetrics)
    (methods : List MethodMetrics) :
    m.summary (types.map TypeMetrics.withoutCounts) methods = m.summary types methods := by
  simp only [summary, List.map_map, List.length_map]
  rfl

end CodeModel

/-! ## Models that differ by noise -/

/-- A pair that no graph on some names takes: a name with itself, or one that is not among them. -/
def IsNoise (names : List String) (source target : String) : Prop :=
  source = target ∨ source ∉ names ∨ target ∉ names

theorem not_isNoise {names : List String} {source target : String} :
    ¬ IsNoise names source target ↔ source ≠ target ∧ source ∈ names ∧ target ∈ names := by
  simp [IsNoise]

/-- Two dependency lists of one type name that hold the same names, up to noise. -/
def SameTargets (names : List String) (t t' : TypeDecl) : Prop :=
  ∀ name, ¬ IsNoise names t.fullName name → (some name ∈ t.dependsOn ↔ some name ∈ t'.dependsOn)

/-- An entry may be put anywhere if it is missing, is noise or names what the list names anyway. -/
theorem sameTargets_insert {names : List String} {t : TypeDecl} {entry : Option String}
    (front rest : List (Option String)) (hlist : t.dependsOn = front ++ rest)
    (hentry : ∀ name, entry = some name →
      IsNoise names t.fullName name ∨ some name ∈ t.dependsOn) :
    SameTargets names t { t with dependsOn := front ++ entry :: rest } := by
  intro name hname
  have hold : some name = entry → some name ∈ t.dependsOn := fun heq =>
    (hentry name heq.symm).resolve_left hname
  rw [hlist] at hold ⊢
  simp only [List.mem_append, List.mem_cons] at hold ⊢
  tauto

namespace CodeModel

/-- Two models of one code base whose edge maps and dependency lists differ by noise only. -/
structure SameUpToNoise (m m' : CodeModel) : Prop where
  bare : m.codebase.bare = m'.codebase.bare
  targets : List.Forall₂ (SameTargets m.codebase.typeNames) m.codebase.types m'.codebase.types
  typeEdges : ∀ source target, ¬ IsNoise m.codebase.typeNames source target →
    ((source, target) ∈ m.graph.typeEdges.pairs ↔ (source, target) ∈ m'.graph.typeEdges.pairs)
  namespaceEdges : ∀ source target, ¬ IsNoise m.codebase.namespaceNames source target →
    ((source, target) ∈ m.graph.namespaceEdges.pairs ↔
      (source, target) ∈ m'.graph.namespaceEdges.pairs)

theorem keeps_of_noise {names : List String} {edges edges' : EdgeMap}
    (h : ∀ source target, ¬ IsNoise names source target →
      ((source, target) ∈ edges.pairs ↔ (source, target) ∈ edges'.pairs)) :
    edges.Keeps names = edges'.Keeps names := by
  funext source target
  rw [EdgeMap.Keeps, EdgeMap.Keeps, ← EdgeMap.mem_pairs, ← EdgeMap.mem_pairs, ← not_isNoise]
  exact propext (and_congr_right (h source target))

namespace SameUpToNoise

variable {m m' : CodeModel}

theorem typeNames (h : m.SameUpToNoise m') : m.codebase.typeNames = m'.codebase.typeNames := by
  rw [← Codebase.typeNames_bare, h.bare, Codebase.typeNames_bare]

theorem namespaceNames (h : m.SameUpToNoise m') :
    m.codebase.namespaceNames = m'.codebase.namespaceNames := by
  rw [← Codebase.namespaceNames_bare, h.bare, Codebase.namespaceNames_bare]

theorem methodMetrics (h : m.SameUpToNoise m') : m.methodMetrics = m'.methodMetrics := by
  rw [CodeModel.methodMetrics, CodeModel.methodMetrics, ← Codebase.methods_bare, h.bare,
    Codebase.methods_bare]

theorem namespaceMetrics (h : m.SameUpToNoise m') :
    m.namespaceMetrics = m'.namespaceMetrics := by
  have hbare : ∀ m : CodeModel, m.namespaceMetrics =
      m.codebase.bare.typesByNamespace.map fun group => (Namespace.mk group.1 group.2).metrics := by
    intro m
    rw [Codebase.typesByNamespace_bare, List.map_map, CodeModel.namespaceMetrics]
    refine List.map_congr_left fun group _ => ?_
    simp [Namespace.metrics, abstractClassCount_bare]
  rw [hbare, hbare, h.bare]

theorem bare_types (h : m.SameUpToNoise m') :
    m.codebase.types.map TypeDecl.bare = m'.codebase.types.map TypeDecl.bare := by
  rw [← Codebase.types_bare, h.bare, Codebase.types_bare]

/-- What a type of one model lists up to noise, a type of the other does. -/
theorem exists_lists (h : m.SameUpToNoise m') {source target : String}
    (hnoise : ¬ IsNoise m.codebase.typeNames source target) :
    (∃ t ∈ m.codebase.types, t.fullName = source ∧ some target ∈ t.dependsOn) ↔
      ∃ t ∈ m'.codebase.types, t.fullName = source ∧ some target ∈ t.dependsOn := by
  have hbare := h.bare_types
  have htargets := h.targets
  generalize m.codebase.types = types at hbare htargets
  generalize m'.codebase.types = types' at hbare htargets
  induction htargets with
  | nil => simp
  | @cons t t' rest rest' hsame _ ih =>
    rw [List.map_cons, List.map_cons, List.cons.injEq] at hbare
    have hname : t.bare.fullName = t'.bare.fullName := congrArg TypeDecl.fullName hbare.1
    change t.fullName = t'.fullName at hname
    simp only [List.exists_mem_cons_iff, ih hbare.2]
    refine or_congr ⟨?_, ?_⟩ Iff.rfl
    · rintro ⟨rfl, htarget⟩
      exact ⟨hname.symm, (hsame target hnoise).1 htarget⟩
    · rintro ⟨rfl, htarget⟩
      rw [← hname] at hnoise ⊢
      exact ⟨rfl, (hsame target hnoise).2 htarget⟩

theorem sameDegrees (h : m.SameUpToNoise m') : m.typeGraph.SameDegrees m'.typeGraph := by
  refine Digraph.sameDegrees_of_arcs fun arc => ?_
  obtain ⟨source, target⟩ := arc
  rw [mem_arcs_typeGraph, mem_arcs_typeGraph, ← h.typeNames, ← not_isNoise]
  exact and_congr_right h.exists_lists

theorem typeMetrics (h : m.SameUpToNoise m') :
    (m.codebase.types.map (·.metrics m.typeGraph)).map TypeMetrics.withoutCounts =
      (m'.codebase.types.map (·.metrics m'.typeGraph)).map TypeMetrics.withoutCounts := by
  rw [map_metrics_bare h.sameDegrees, map_metrics_bare (.refl m'.typeGraph), h.bare_types]

theorem typeCoupling (h : m.SameUpToNoise m') :
    m.typeCoupling.map TypeCoupling.withoutCounts =
      m'.typeCoupling.map TypeCoupling.withoutCounts := by
  rw [CodeModel.typeCoupling, CodeModel.typeCoupling, map_coupling_bare h.sameDegrees,
    map_coupling_bare (.refl m'.typeGraph), h.bare_types]

theorem cycles (h : m.SameUpToNoise m') : m.cycles = m'.cycles := by
  apply cycles_congr h.typeNames h.namespaceNames
  · rw [TypeEdge, TypeEdge, ← h.typeNames, keeps_of_noise h.typeEdges]
  · rw [NamespaceEdge, NamespaceEdge, ← h.namespaceNames, keeps_of_noise h.namespaceEdges]

theorem outcome_namespaceCoupling (h : m.SameUpToNoise m') :
    m.namespaceCoupling.outcome = m'.namespaceCoupling.outcome := by
  have hbare : ∀ (c : Codebase) (g : Digraph),
      (c.typesByNamespace.mapM fun group => DesignMetrics.namespaceCoupling g group.1 group.2) =
        c.bare.typesByNamespace.mapM fun group =>
          DesignMetrics.namespaceCoupling g group.1 group.2 := by
    intro c g
    rw [Codebase.typesByNamespace_bare, List.mapM_map]
    congr 1
    funext group
    exact (namespaceCoupling_bare g group.1 group.2).symm
  rw [CodeModel.outcome_namespaceCoupling, CodeModel.outcome_namespaceCoupling,
    hbare m.codebase, hbare m'.codebase, h.bare, namespaceGraph, namespaceGraph,
    ← h.namespaceNames]
  congr 1
  funext group
  exact namespaceCoupling_congr (Digraph.sameDegrees_ofAdjacency (keeps_of_noise h.namespaceEdges))
    group.1 group.2

theorem summary (h : m.SameUpToNoise m') :
    m.summary (m.codebase.types.map (·.metrics m.typeGraph)) m.methodMetrics =
      m'.summary (m'.codebase.types.map (·.metrics m'.typeGraph)) m'.methodMetrics := by
  have hnames : m.summary = m'.summary := by
    funext types methods
    rw [CodeModel.summary, CodeModel.summary, h.namespaceNames]
  rw [← summary_withoutCounts, ← m'.summary_withoutCounts, h.typeMetrics, h.methodMetrics, hnames]

theorem report (h : m.SameUpToNoise m') (couplings : List NamespaceCoupling) (summary : Summary) :
    (m.report couplings summary).withoutCounts = (m'.report couplings summary).withoutCounts := by
  simp only [CodeModel.report, MetricsReport.withoutCounts, DependencyMetrics.withoutCounts,
    h.namespaceMetrics, h.typeMetrics, h.methodMetrics, h.typeCoupling, h.cycles]

end SameUpToNoise

/-- Models that differ by noise have the same outcome, apart from the four counts of dependencies
that are taken before any name is looked up. -/
theorem outcome_run_of_sameUpToNoise {m m' : CodeModel} (h : m.SameUpToNoise m')
    (settings settings' : EngineSettings) (schedule schedule' : List PoolAction) :
    (Calculators.standard.run settings (some m) schedule).outcome.map
        MetricsReport.withoutCounts =
      (Calculators.standard.run settings' (some m') schedule').outcome.map
        MetricsReport.withoutCounts := by
  rw [Calculators.outcome_run, Calculators.outcome_run, outcome_finale, outcome_finale,
    h.outcome_namespaceCoupling, h.summary]
  cases m'.namespaceCoupling.outcome with
  | error fault => rfl
  | ok couplings =>
    show Except.map _ (Except.map _ _) = Except.map _ (Except.map _ _)
    cases m'.summary (m'.codebase.types.map (·.metrics m'.typeGraph)) m'.methodMetrics with
    | error fault => rfl
    | ok summary => exact congrArg Except.ok (h.report couplings summary)

def plain : CodeModel where
  codebase := ⟨[⟨"app", [⟨"core", [{ fullName := "A", dependsOn := [some "B"] },
    { fullName := "B", dependsOn := [some "A"] }]⟩]⟩]⟩
  graph := { typeEdges := .ofList [("A", .ofList ["B"])] }

/-- The same with an undeclared name, and with one of the types depending on itself. -/
def noisy : CodeModel where
  codebase := ⟨[⟨"app", [⟨"core", [{ fullName := "A", dependsOn := [some "X", some "B"] },
    { fullName := "B", dependsOn := [some "A", some "B"] }]⟩]⟩]⟩
  graph := { typeEdges := .ofList [("A", .ofList ["B", "X"]), ("B", .ofList ["B"])] }

theorem outcome_run_noisy :
    plain.SameUpToNoise noisy ∧
      (Calculators.standard.run {} (some plain) []).outcome.map MetricsReport.withoutCounts =
        (Calculators.standard.run {} (some noisy) []).outcome.map MetricsReport.withoutCounts := by
  have hnames : plain.codebase.typeNames = ["A", "B"] := by decide
  have hpairs : plain.graph.typeEdges.pairs = [("A", "B")] := by decide
  have hpairs' : noisy.graph.typeEdges.pairs = [("A", "B"), ("A", "X"), ("B", "B")] := by decide
  have hnoise : plain.SameUpToNoise noisy := by
    refine ⟨by decide, ?_, fun source target h => ?_, fun source target _ => Iff.rfl⟩
    · rw [hnames]
      refine .cons (sameTargets_insert [] [some "B"] rfl fun name hname => ?_)
        (.cons (sameTargets_insert [some "A"] [] rfl fun name hname => ?_) .nil)
      · cases hname
        exact .inl (.inr (.inr (by decide)))
      · cases hname
        exact .inl (.inl rfl)
    · rw [not_isNoise, hnames] at h
      rw [hpairs, hpairs']
      simp only [List.mem_cons, Prod.mk.injEq, List.not_mem_nil, or_false]
      constructor
      · exact .inl
      · rintro (h' | ⟨rfl, rfl⟩ | ⟨rfl, rfl⟩)
        · exact h'
        · simp at h
        · simp at h
  exact ⟨hnoise, outcome_run_of_sameUpToNoise hnoise _ _ _ _⟩

end CodeModel

end DesignMetrics
