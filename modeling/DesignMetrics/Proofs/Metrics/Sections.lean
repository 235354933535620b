import DesignMetrics.Proofs.Digraph.Parts
import DesignMetrics.Proofs.Engine.Run
import DesignMetrics.Proofs.Metrics.Cycles
import DesignMetrics.Proofs.Model.Groups
import DesignMetrics.Proofs.Outcome

/-!
# The sections of a report

What the standard calculators make of a model, section by section. Only the ratios of the namespaces
and the figures of the summary can fail, so that a run comes to these two in turn; all else is there
in any case. A count of edges is one over the pairs of an edge map.
-/

namespace DesignMetrics

theorem Recorded.outcome_mapM_ofExcept {α β : Type} (f : α → Except Fault β) (l : List α) :
    (l.mapM fun a => Recorded.ofExcept (f a)).outcome = l.mapM f := by
  induction l with
  | nil => rfl
  | cons a rest ih =>
    rw [List.mapM_cons, List.mapM_cons, Recorded.outcome_bind]
    show (f a).bind _ = (f a).bind _
    cases f a with
    | error fault => rfl
    | ok b =>
      show (_ >>= _ : Recorded (List β)).outcome = (rest.mapM f).bind _
      rw [Recorded.outcome_bind, ih]
      rfl

/-! ## Degrees are all that records read off a graph -/

section Degrees

variable {g g' : Digraph}

theorem TypeDecl.metrics_congr_at {t : TypeDecl} (h : g.SameDegreesAt g' t.fullName) :
    t.metrics g = t.metrics g' := by
  obtain ⟨hout, hin⟩ := h
  simp only [TypeDecl.metrics, hout, hin]

theorem TypeDecl.metrics_congr (h : g.SameDegrees g') (t : TypeDecl) :
    t.metrics g = t.metrics g' :=
  metrics_congr_at (h t.fullName)

theorem TypeDecl.coupling_congr_at {t : TypeDecl} (h : g.SameDegreesAt g' t.fullName) :
    t.coupling g = t.coupling g' := by
  obtain ⟨hout, hin⟩ := h
  simp only [TypeDecl.coupling, hout, hin]

theorem TypeDecl.coupling_congr (h : g.SameDegrees g') (t : TypeDecl) :
    t.coupling g = t.coupling g' :=
  coupling_congr_at (h t.fullName)

theorem namespaceCoupling_congr_at {name : String} (h : g.SameDegreesAt g' name)
    (types : List TypeDecl) : namespaceCoupling g name types = namespaceCoupling g' name types := by
  obtain ⟨hout, hin⟩ := h
  simp only [namespaceCoupling, hout, hin]

theorem namespaceCoupling_congr (h : g.SameDegrees g') (name : String) (types : List TypeDecl) :
    namespaceCoupling g name types = namespaceCoupling g' name types :=
  namespaceCoupling_congr_at (h name) types

end Degrees

/-! ## Sections -/

namespace CodeModel

/-- The graph in which the coupling of namespaces is counted. -/
def namespaceGraph (m : CodeModel) : Digraph :=
  .ofAdjacency m.codebase.namespaceNames m.graph.namespaceEdges.adjacency

theorem nodes_namespaceGraph (m : CodeModel) :
    m.namespaceGraph.nodes = m.codebase.namespaceNames :=
  m.nodes_declaredNamespaceGraph

theorem edge_namespaceGraph (m : CodeModel) : m.namespaceGraph.Edge = m.NamespaceEdge :=
  Digraph.edge_ofAdjacency _ _

theorem draws_namespaceGraph (m : CodeModel) :
    m.namespaceGraph.Draws fun source target => target ∈ m.graph.namespaceEdges.targets source :=
  Digraph.draws_ofAdjacency _ _

theorem outcome_typeMetrics (m : CodeModel) :
    m.typeMetrics.outcome = .ok (m.codebase.types.map (·.metrics m.typeGraph)) := by
  rw [typeMetrics, reportedTypeGraph]
  split <;> rfl

theorem outcome_namespaceCoupling (m : CodeModel) :
    m.namespaceCoupling.outcome = m.codebase.typesByNamespace.mapM fun group =>
      DesignMetrics.namespaceCoupling m.namespaceGraph group.1 group.2 := by
  rw [namespaceGraph, ← Codebase.names_typesByNamespace,
    ← Recorded.outcome_mapM_ofExcept]
  simp only [namespaceCoupling]
  split <;> rfl

/-- The internal dependencies are the pairs of the type edges whose target is not blank and not the
source. -/
theorem internalDependencies_eq (m : CodeModel) :
    m.internalDependencies = m.graph.typeEdges.pairs.countP fun pair =>
      !Text.isBlank pair.2 && pair.2 != pair.1 := by
  rw [internalDependencies, EdgeMap.pairs, EdgeMap.adjacency, List.flatMap_map]
  generalize m.graph.typeEdges.entries = entries
  induction entries with
  | nil => rfl
  | cons entry rest ih =>
    rw [List.map_cons, List.foldr_cons, ih, List.flatMap_cons, List.countP_append, List.countP_map]
    rfl

/-- The pairs of the type edges that count as internal dependencies. -/
def internalPairs (m : CodeModel) : List (String × String) :=
  m.graph.typeEdges.pairs.filter fun pair => !Text.isBlank pair.2 && pair.2 != pair.1

theorem length_internalPairs (m : CodeModel) :
    m.internalDependencies = m.internalPairs.length := by
  rw [internalDependencies_eq, List.countP_eq_length_filter]
  rfl

theorem nodup_internalPairs (m : CodeModel) : m.internalPairs.Nodup :=
  m.graph.typeEdges.nodup_pairs.filter _

theorem internalDependencies_congr {m m' : CodeModel}
    (h : ∀ pair, pair ∈ m.graph.typeEdges.pairs ↔ pair ∈ m'.graph.typeEdges.pairs) :
    m.internalDependencies = m'.internalDependencies := by
  have hperm := (List.perm_ext_iff_of_nodup m.graph.typeEdges.nodup_pairs
    m'.graph.typeEdges.nodup_pairs).2 h
  rw [internalDependencies_eq, internalDependencies_eq]
  exact hperm.countP_eq _

/-- The report of the standard calculators, when the ratios and the summary are there. -/
def report (m : CodeModel) (namespaceCoupling : List NamespaceCoupling) (summary : Summary) :
    MetricsReport where
  summary := summary
  namespaces := m.namespaceMetrics
  types := m.codebase.types.map (·.metrics m.typeGraph)
  methods := m.methodMetrics
  namespaceCoupling := namespaceCoupling
  typeCoupling := m.typeCoupling
  dependencies := ⟨m.totalDependencies, m.internalDependencies, m.cycles⟩

/-- The report made of the records of a run. -/
def reportOf (o : Outputs) (summary : Summary) : MetricsReport :=
  { summary
    namespaces := o.namespaces
    types := o.types
    methods := o.methods
    namespaceCoupling := o.namespaceCoupling
    typeCoupling := o.typeCoupling
    dependencies := o.dependencies }

theorem outcome_conclude (m : CodeModel) (o : Outputs) :
    (Calculators.standard.conclude m o).outcome =
      (m.summary o.types o.methods).map (reportOf o) := by
  rw [Calculators.conclude, Recorded.outcome_bind]
  show (m.summary o.types o.methods).bind _ = _
  cases m.summary o.types o.methods <;> rfl

/-- The outcome of every run of the standard calculators. -/
theorem outcome_finale (m : CodeModel) :
    (Calculators.standard.finale m).outcome = m.namespaceCoupling.outcome.bind fun couplings =>
      (m.summary (m.codebase.types.map (·.metrics m.typeGraph)) m.methodMetrics).map
        (m.report couplings) := by
  rw [Calculators.finale, Recorded.outcome_bind, Calculators.collect_pipeline]
  simp only [Calculators.standard, outcome_typeMetrics, outcome_dependencyMetrics]
  cases m.namespaceCoupling.outcome with
  | error fault => rfl
  | ok couplings => exact m.outcome_conclude _

variable {m : CodeModel} {settings : EngineSettings} {schedule : List PoolAction}
  {r : MetricsReport}

/-- A run that returns has the ratios of the namespaces and the summary, and returns the sections
made of them. -/
theorem exists_report_of_run
    (h : (Calculators.standard.run settings (some m) schedule).outcome = .ok r) :
    ∃ couplings summary, m.namespaceCoupling.outcome = .ok couplings ∧
      m.summary (m.codebase.types.map (·.metrics m.typeGraph)) m.methodMetrics = .ok summary ∧
      r = m.report couplings summary := by
  rw [Calculators.outcome_run, outcome_finale] at h
  obtain ⟨couplings, hcouplings, h⟩ := bind_eq_ok.1 h
  obtain ⟨summary, hsummary, rfl⟩ := map_eq_ok.1 h
  exact ⟨couplings, summary, hcouplings, hsummary, rfl⟩

end CodeModel

end DesignMetrics
