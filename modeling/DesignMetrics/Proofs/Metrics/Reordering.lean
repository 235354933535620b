import Mathlib.Data.Finset.Image
import DesignMetrics.Proofs.Metrics.Content
import DesignMetrics.Proofs.Metrics.Summary
import DesignMetrics.Proofs.Metrics.TypeGraph
import DesignMetrics.Proofs.Model.Reordered

/-!
# The order of a model does not count

A model may list its modules, namespaces and types in another order. Each section of its report then
lists the same records in another order, the cycles hold the same names, and the summary is the same
down to the last bit of its averages. The order in which types come decides the order in which nodes
and edges enter a graph and in which numbers are added up, so that each figure has to be traced back
to something without an order: a degree to a set of edges, a cycle to the names that reach each
other, an average to an exact sum.
-/

namespace DesignMetrics

/-! ## Records -/

theorem Namespace.metrics_perm {types types' : List TypeDecl} (h : types.Perm types')
    (name : String) : (Namespace.mk name types).metrics = (Namespace.mk name types').metrics := by
  simp only [Namespace.metrics, abstractClassCount, h.countP_eq, h.length_eq]

theorem abstractness_perm {types types' : List TypeDecl} (h : types.Perm types') :
    abstractness types = abstractness types' :=
  abstractness_congr (h.countP_eq _) h.length_eq

theorem namespaceCoupling_perm {types types' : List TypeDecl} (h : types.Perm types')
    (g : Digraph) (name : String) :
    namespaceCoupling g name types = namespaceCoupling g name types' := by
  simp only [namespaceCoupling, abstractness_perm h]

/-! ## Reports -/

namespace MetricsReport

/-- The cycles of a scope, each as the set of its names. -/
def cycleSets (r : MetricsReport) (scope : CycleScope) : Finset (Finset String) :=
  ((r.dependencies.cycles.filter (·.scope = scope)).map (·.nodes.toFinset)).toFinset

/-- Two reports that differ by the order of their records and by that of the cycles and their
names. -/
structure SameUpToOrder (r r' : MetricsReport) : Prop where
  methods : r.methods.Perm r'.methods
  types : r.types.Perm r'.types
  namespaces : r.namespaces.Perm r'.namespaces
  namespaceCoupling : r.namespaceCoupling.Perm r'.namespaceCoupling
  typeCoupling : r.typeCoupling.Perm r'.typeCoupling
  totalDependencies : r.dependencies.totalDependencies = r'.dependencies.totalDependencies
  internalDependencies : r.dependencies.internalDependencies = r'.dependencies.internalDependencies
  cycleSets : ∀ scope, r.cycleSets scope = r'.cycleSets scope
  summary : r.summary = r'.summary

end MetricsReport

/-- The sets of names that are in a cycle together. -/
def setsOf (cycles : List (List String)) : Finset (Finset String) :=
  (cycles.map List.toFinset).toFinset

theorem AreCycles.setsOf_eq {nodes nodes' : List String} {edge : String → String → Prop}
    {cycles cycles' : List (List String)} (h : AreCycles nodes edge cycles)
    (h' : AreCycles nodes' edge cycles') : setsOf cycles = setsOf cycles' := by
  have hsubset : ∀ {nodes nodes' : List String} {cycles cycles' : List (List String)},
      AreCycles nodes edge cycles → AreCycles nodes' edge cycles' →
        setsOf cycles ⊆ setsOf cycles' := by
    intro nodes nodes' cycles cycles' h h' names hnames
    obtain ⟨cycle, hcycle, rfl⟩ := List.mem_map.1 (List.mem_toFinset.1 hnames)
    obtain ⟨cycle', hcycle', hsame⟩ := h.exists_same h' hcycle
    have hsets : cycle'.toFinset = cycle.toFinset := by
      ext name
      rw [List.mem_toFinset, List.mem_toFinset, hsame]
    exact List.mem_toFinset.2 (List.mem_map.2 ⟨cycle', hcycle', hsets⟩)
  exact (hsubset h h').antisymm (hsubset h' h)

namespace CodeModel

theorem cycleSets_report (m : CodeModel) (couplings : List NamespaceCoupling) (summary : Summary) :
    (m.report couplings summary).cycleSets .type = setsOf m.declaredTypeGraph.cycles ∧
      (m.report couplings summary).cycleSets .namespace =
        setsOf m.declaredNamespaceGraph.cycles := by
  simp [MetricsReport.cycleSets, report, cycles, setsOf, List.filter_map, Function.comp_def]

/-- The same model with its modules, their namespaces and the types of these in another order. -/
structure Reordered (m m' : CodeModel) : Prop where
  codebase : m.codebase.Reordered m'.codebase
  typeEdges : ∀ pair, pair ∈ m.graph.typeEdges.pairs ↔ pair ∈ m'.graph.typeEdges.pairs
  namespaceEdges : ∀ pair,
    pair ∈ m.graph.namespaceEdges.pairs ↔ pair ∈ m'.graph.namespaceEdges.pairs

namespace Reordered

variable {m m' : CodeModel}

theorem sameDegrees_typeGraph (h : m.Reordered m') : m.typeGraph.SameDegrees m'.typeGraph := by
  refine Digraph.sameDegrees_of_arcs fun ⟨source, target⟩ => ?_
  rw [mem_arcs_typeGraph, mem_arcs_typeGraph]
  simp only [h.codebase.typeNames.mem_iff, h.codebase.types.mem_iff]

theorem sameDegrees_namespaceGraph (h : m.Reordered m') :
    m.namespaceGraph.SameDegrees m'.namespaceGraph :=
  Digraph.sameDegrees_ofAdjacency
    (EdgeMap.keeps_congr (fun _ => h.codebase.namespaceNames.mem_iff) h.namespaceEdges)

theorem methodMetrics (h : m.Reordered m') : m.methodMetrics.Perm m'.methodMetrics :=
  h.codebase.methods.map _

theorem typeMetrics (h : m.Reordered m') :
    (m.codebase.types.map (·.metrics m.typeGraph)).Perm
      (m'.codebase.types.map (·.metrics m'.typeGraph)) := by
  simp only [TypeDecl.metrics_congr h.sameDegrees_typeGraph]
  exact h.codebase.types.map _

theorem typeCoupling (h : m.Reordered m') : m.typeCoupling.Perm m'.typeCoupling := by
  simp only [CodeModel.typeCoupling, TypeDecl.coupling_congr h.sameDegrees_typeGraph]
  exact h.codebase.types.map _

theorem namespaceMetrics (h : m.Reordered m') : m.namespaceMetrics.Perm m'.namespaceMetrics := by
  rw [CodeModel.namespaceMetrics, CodeModel.namespaceMetrics, Codebase.typesByNamespace_eq,
    Codebase.typesByNamespace_eq, List.map_map, List.map_map]
  simp only [Function.comp_def, Namespace.metrics_perm (h.codebase.typesUnder _)]
  exact h.codebase.namespaceNames.map _

theorem namespaceCoupling (h : m.Reordered m') {couplings couplings' : List NamespaceCoupling}
    (hcouplings : m.namespaceCoupling.outcome = .ok couplings)
    (hcouplings' : m'.namespaceCoupling.outcome = .ok couplings') :
    couplings.Perm couplings' := by
  rw [outcome_namespaceCoupling, Codebase.typesByNamespace_eq, List.mapM_map]
    at hcouplings hcouplings'
  simp only [Function.comp_def, namespaceCoupling_congr h.sameDegrees_namespaceGraph,
    namespaceCoupling_perm (h.codebase.typesUnder _)] at hcouplings
  exact perm_of_mapM h.codebase.namespaceNames hcouplings hcouplings'

theorem totalDependencies (h : m.Reordered m') : m.totalDependencies = m'.totalDependencies := by
  have hpairs := h.codebase.types.flatMap_right fun t =>
    t.distinctTargets.names.map (t.fullName, ·)
  exact (firstOccurrences_perm fun _ => hpairs.mem_iff).length_eq

theorem cycleSets (h : m.Reordered m') (couplings couplings' : List NamespaceCoupling)
    (summary summary' : Summary) (scope : CycleScope) :
    (m.report couplings summary).cycleSets scope =
      (m'.report couplings' summary').cycleSets scope := by
  obtain ⟨htypes, hnamespaces⟩ := m.cycleSets_report couplings summary
  obtain ⟨htypes', hnamespaces'⟩ := m'.cycleSets_report couplings' summary'
  have htypeEdge : m.TypeEdge = m'.TypeEdge :=
    EdgeMap.keeps_congr (fun _ => h.codebase.typeNames.mem_iff) h.typeEdges
  have hnamespaceEdge : m.NamespaceEdge = m'.NamespaceEdge :=
    EdgeMap.keeps_congr (fun _ => h.codebase.namespaceNames.mem_iff) h.namespaceEdges
  match scope with
  | .type =>
    rw [htypes, htypes']
    exact m.areCycles_types.setsOf_eq (htypeEdge ▸ m'.areCycles_types)
  | .namespace =>
    rw [hnamespaces, hnamespaces']
    exact m.areCycles_namespaces.setsOf_eq (hnamespaceEdge ▸ m'.areCycles_namespaces)

end Reordered

/-- The order of a model is presentation only: when a model and the same model in another order both
have a report, the two reports differ by the order of their records alone, whatever the settings and
the schedules. -/
theorem sameUpToOrder_of_reordered {m m' : CodeModel} (h : m.Reordered m')
    {settings settings' : EngineSettings} {schedule schedule' : List PoolAction}
    {r r' : MetricsReport}
    (hrun : (Calculators.standard.run settings (some m) schedule).outcome = .ok r)
    (hrun' : (Calculators.standard.run settings' (some m') schedule').outcome = .ok r') :
    r.SameUpToOrder r' := by
  obtain ⟨couplings, summary, hcouplings, hsummary, rfl⟩ := exists_report_of_run hrun
  obtain ⟨couplings', summary', hcouplings', hsummary', rfl⟩ := exists_report_of_run hrun'
  exact
    { methods := h.methodMetrics
      types := h.typeMetrics
      namespaces := h.namespaceMetrics
      namespaceCoupling := h.namespaceCoupling hcouplings hcouplings'
      typeCoupling := h.typeCoupling
      totalDependencies := congrArg Int.ofNat h.totalDependencies
      internalDependencies := congrArg Int.ofNat (internalDependencies_congr h.typeEdges)
      cycleSets := h.cycleSets couplings couplings' summary summary'
      summary := summary_perm h.codebase.namespaceNames h.typeMetrics h.methodMetrics hsummary
        hsummary' }

/-- Three types in a cycle, one of them declared twice, and two namespaces in a cycle. -/
def listed : CodeModel where
  codebase := ⟨[
    ⟨"left", [
      ⟨"core", [{ fullName := "A", methods := [{ fullName := "A.f", sloc := 3 }] },
        { fullName := "B", dependsOn := [some "C"] }]⟩,
      ⟨"ui", [{ fullName := "A", isAbstract := true, dependsOn := [some "B"] }]⟩]⟩,
    ⟨"right", [⟨"core", [{ fullName := "C", methods := [{ fullName := "C.g", sloc := 10 }] }]⟩]⟩]⟩
  graph :=
    { typeEdges := .ofList [("A", .ofList ["B"]), ("B", .ofList ["C"]), ("C", .ofList ["A", "B"])]
      namespaceEdges := .ofList [("core", .ofList ["ui"]), ("ui", .ofList ["core"])] }

def shuffled : CodeModel where
  codebase := ⟨[
    ⟨"right", [⟨"core", [{ fullName := "C", methods := [{ fullName := "C.g", sloc := 10 }] }]⟩]⟩,
    ⟨"left", [
      ⟨"ui", [{ fullName := "A", isAbstract := true, dependsOn := [some "B"] }]⟩,
      ⟨"core", [{ fullName := "B", dependsOn := [some "C"] },
        { fullName := "A", methods := [{ fullName := "A.f", sloc := 3 }] }]⟩]⟩]⟩
  graph := listed.graph

theorem reordered_shuffled : listed.Reordered shuffled := by
  refine ⟨⟨_, .swap _ _ [], .cons ⟨rfl, _, .refl _, ?_⟩ (.cons ⟨rfl, _, .swap _ _ [], ?_⟩ .nil)⟩,
    fun _ => Iff.rfl, fun _ => Iff.rfl⟩
  · exact .cons ⟨rfl, .refl _⟩ .nil
  · exact .cons ⟨rfl, .refl _⟩ (.cons ⟨rfl, .swap _ _ []⟩ .nil)

theorem sameUpToOrder_shuffled : listed.Reordered shuffled ∧ ∃ r r',
    (Calculators.standard.run {} (some listed) []).outcome = .ok r ∧
      (Calculators.standard.run {} (some shuffled) []).outcome = .ok r' ∧ r.SameUpToOrder r' := by
  have hreturns : (Calculators.standard.run {} (some listed) []).outcome.isOk := by
    decide +kernel
  have hreturns' : (Calculators.standard.run {} (some shuffled) []).outcome.isOk := by
    decide +kernel
  obtain ⟨r, hrun⟩ := exists_eq_ok hreturns
  obtain ⟨r', hrun'⟩ := exists_eq_ok hreturns'
  exact ⟨reordered_shuffled, r, r', hrun, hrun',
    sameUpToOrder_of_reordered reordered_shuffled hrun hrun'⟩

end CodeModel

end DesignMetrics
