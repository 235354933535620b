import DesignMetrics.Proofs.Metrics.Sections

/-!
# Only the content of a model counts

Two models with the same namespace names, the same types under them in the same order and the same
pairs of edges have the same report. The modules, the number of namespaces of one name, the order of
the edges and the sources without targets do not show.
-/

namespace DesignMetrics.CodeModel

structure SameContent (m m' : CodeModel) : Prop where
  namespaceNames : m.codebase.namespaceNames = m'.codebase.namespaceNames
  members : m.codebase.members = m'.codebase.members
  typeEdges : ∀ pair, pair ∈ m.graph.typeEdges.pairs ↔ pair ∈ m'.graph.typeEdges.pairs
  namespaceEdges : ∀ pair,
    pair ∈ m.graph.namespaceEdges.pairs ↔ pair ∈ m'.graph.namespaceEdges.pairs

namespace SameContent

variable {m m' : CodeModel}

theorem types (h : m.SameContent m') : m.codebase.types = m'.codebase.types := by
  rw [Codebase.types_eq, Codebase.types_eq, h.members]

theorem typesByNamespace (h : m.SameContent m') :
    m.codebase.typesByNamespace = m'.codebase.typesByNamespace := by
  rw [Codebase.typesByNamespace_eq, Codebase.typesByNamespace_eq, h.namespaceNames, h.members]

theorem typeGraph (h : m.SameContent m') : m.typeGraph = m'.typeGraph := by
  rw [CodeModel.typeGraph, CodeModel.typeGraph, h.types]

theorem methodMetrics (h : m.SameContent m') : m.methodMetrics = m'.methodMetrics := by
  rw [CodeModel.methodMetrics, CodeModel.methodMetrics, Codebase.methods, Codebase.methods, h.types]

theorem cycles (h : m.SameContent m') : m.cycles = m'.cycles := by
  have hnames : m.codebase.typeNames = m'.codebase.typeNames := by
    rw [Codebase.typeNames, Codebase.typeNames, h.types]
  exact cycles_congr hnames h.namespaceNames
    (EdgeMap.keeps_congr (fun _ => by rw [hnames]) h.typeEdges)
    (EdgeMap.keeps_congr (fun _ => by rw [h.namespaceNames]) h.namespaceEdges)

theorem totalDependencies (h : m.SameContent m') :
    m.totalDependencies = m'.totalDependencies := by
  simp only [CodeModel.totalDependencies, dependencyPairs, h.types]

theorem internalDependencies (h : m.SameContent m') :
    m.internalDependencies = m'.internalDependencies :=
  internalDependencies_congr h.typeEdges

theorem sameDegrees_namespaceGraph (h : m.SameContent m') :
    m.namespaceGraph.SameDegrees m'.namespaceGraph :=
  Digraph.sameDegrees_ofAdjacency
    (EdgeMap.keeps_congr (fun _ => by rw [h.namespaceNames]) h.namespaceEdges)

theorem outcome_namespaceCoupling (h : m.SameContent m') :
    m.namespaceCoupling.outcome = m'.namespaceCoupling.outcome := by
  rw [CodeModel.outcome_namespaceCoupling, CodeModel.outcome_namespaceCoupling, h.typesByNamespace]
  congr 1
  funext group
  exact namespaceCoupling_congr h.sameDegrees_namespaceGraph group.1 group.2

theorem summary (h : m.SameContent m') : m.summary = m'.summary := by
  funext types methods
  rw [CodeModel.summary, CodeModel.summary, h.namespaceNames]

theorem report (h : m.SameContent m') : m.report = m'.report := by
  funext couplings summary
  simp only [CodeModel.report, namespaceMetrics, typeCoupling, h.typesByNamespace, h.types,
    h.typeGraph, h.methodMetrics, h.totalDependencies, h.internalDependencies, h.cycles]

end SameContent

/-- Models that say the same have the same outcome, whatever the settings and the schedules. -/
theorem outcome_run_of_sameContent {m m' : CodeModel} (h : m.SameContent m')
    (settings settings' : EngineSettings) (schedule schedule' : List PoolAction) :
    (Calculators.standard.run settings (some m) schedule).outcome =
      (Calculators.standard.run settings' (some m') schedule').outcome := by
  rw [Calculators.outcome_run, Calculators.outcome_run, outcome_finale, outcome_finale,
    h.outcome_namespaceCoupling, h.summary, h.report, h.types, h.typeGraph, h.methodMetrics]

def undivided : CodeModel where
  codebase := ⟨[⟨"app", [⟨"core", [{ fullName := "A" }, { fullName := "B" }]⟩,
    ⟨"ui", [{ fullName := "C" }]⟩]⟩]⟩
  graph :=
    { typeEdges := .ofList [("A", .ofList ["B", "C"]), ("B", .ofList ["A"])]
      namespaceEdges := .ofList [("core", .ofList ["ui"])] }

/-- The same types in two modules, with one namespace divided and the edges in another order. -/
def divided : CodeModel where
  codebase := ⟨[⟨"left", [⟨"core", [{ fullName := "A" }]⟩]⟩,
    ⟨"right", [⟨"core", [{ fullName := "B" }]⟩, ⟨"ui", [{ fullName := "C" }]⟩]⟩]⟩
  graph :=
    { typeEdges := .ofList [("C", ∅), ("B", .ofList ["A"]), ("A", .ofList ["C", "B"])]
      namespaceEdges := .ofList [("ui", ∅), ("core", .ofList ["ui"])] }

theorem outcome_run_divided :
    undivided.SameContent divided ∧
      (Calculators.standard.run {} (some undivided) []).outcome =
        (Calculators.standard.run { maxWorkers := 2, parallelThreshold := 0 } (some divided)
          [.proceed, .start .methods]).outcome := by
  have htypes : undivided.graph.typeEdges.pairs = [("A", "B"), ("A", "C"), ("B", "A")] := by decide
  have htypes' : divided.graph.typeEdges.pairs = [("B", "A"), ("A", "B"), ("A", "C")] := by decide
  have hnamespaces : undivided.graph.namespaceEdges.pairs = divided.graph.namespaceEdges.pairs := by
    decide
  have hcontent : undivided.SameContent divided := by
    refine ⟨by decide, by decide, fun pair => ?_, fun pair => by rw [hnamespaces]⟩
    rw [htypes, htypes']
    simp only [List.mem_cons, List.not_mem_nil, or_false]
    tauto
  exact ⟨hcontent, outcome_run_of_sameContent hcontent _ _ _ _⟩

end DesignMetrics.CodeModel
