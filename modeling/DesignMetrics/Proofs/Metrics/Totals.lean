import Mathlib.Algebra.BigOperators.Group.List.Basic
import Mathlib.Algebra.Ring.Int.Defs
import DesignMetrics.Proofs.Metrics.Sections
import DesignMetrics.Proofs.Metrics.Summary

/-!
# Sections that add up

The sections of a report go through a model in different ways: methods one by one, types one by one,
types by namespace. Nothing is lost and nothing is counted twice on any of them, whatever names
repeat, so that numbers which stand in two sections are the same.
-/

namespace DesignMetrics

theorem sum_map_flatMap {α β : Type} (parts : α → List β) (value : β → Int) (l : List α) :
    ((l.flatMap parts).map value).sum = (l.map fun a => ((parts a).map value).sum).sum := by
  rw [List.map_flatMap, List.flatMap_def, List.sum_flatten, List.map_map]
  rfl

theorem sum_map_length {α β : Type} (parts : α → List β) (l : List α) :
    (l.map fun a => ((parts a).length : Int)).sum = (l.flatMap parts).length := by
  induction l with
  | nil => rfl
  | cons a rest ih => simp [ih]

theorem name_namespaceCoupling {g : Digraph} {name : String} {types : List TypeDecl}
    {coupling : NamespaceCoupling} (h : namespaceCoupling g name types = .ok coupling) :
    coupling.name = name := by
  obtain ⟨_, -, h⟩ := bind_eq_ok.1 h
  cases h
  rfl

namespace CodeModel

variable {m : CodeModel} {settings : EngineSettings} {schedule : List PoolAction}
  {r : MetricsReport}

theorem names_namespaceMetrics (m : CodeModel) :
    m.namespaceMetrics.map (·.name) = m.codebase.namespaceNames := by
  rw [← Codebase.names_typesByNamespace, namespaceMetrics, List.map_map]
  rfl

theorem names_namespaceCoupling {couplings : List NamespaceCoupling}
    (h : m.namespaceCoupling.outcome = .ok couplings) :
    couplings.map (·.name) = m.codebase.namespaceNames := by
  rw [outcome_namespaceCoupling] at h
  have hnames : List.Forall₂ (fun group coupling => coupling.name = group.1)
      m.codebase.typesByNamespace couplings :=
    (forall₂_of_mapM h).imp fun _ _ hcoupling => name_namespaceCoupling hcoupling
  rw [← Codebase.names_typesByNamespace, ← List.forall₂_eq_eq_eq, List.forall₂_map_left_iff,
    List.forall₂_map_right_iff]
  exact hnames.flip

theorem sum_noc (m : CodeModel) :
    (m.namespaceMetrics.map (·.noc)).sum = m.codebase.types.length := by
  rw [namespaceMetrics, List.map_map, ← m.codebase.flatMap_typesByNamespace_perm.length_eq]
  exact sum_map_length Prod.snd m.codebase.typesByNamespace

theorem sum_nom (m : CodeModel) (g : Digraph) :
    ((m.codebase.types.map (·.metrics g)).map (·.nom)).sum = m.codebase.methods.length := by
  rw [List.map_map]
  exact sum_map_length TypeDecl.methods m.codebase.types

theorem sum_mloc (m : CodeModel) (g : Digraph) :
    (m.methodMetrics.map (·.mloc)).sum =
      ((m.codebase.types.map (·.metrics g)).map (·.sloc)).sum := by
  rw [methodMetrics, List.map_map, List.map_map, Codebase.methods, sum_map_flatMap]
  rfl

theorem sum_cyclo (m : CodeModel) (g : Digraph) :
    (m.methodMetrics.map (·.cyclo)).sum =
      ((m.codebase.types.map (·.metrics g)).map (·.wmc)).sum := by
  rw [methodMetrics, List.map_map, List.map_map, Codebase.methods, sum_map_flatMap]
  rfl

theorem totalMethods_summary {summary : Summary}
    (h : m.summary (m.codebase.types.map (·.metrics m.typeGraph)) m.methodMetrics = .ok summary) :
    summary.methods.total = m.methodMetrics.length := by
  obtain ⟨-, -, -, -, -, perType, hperType, hmethods⟩ := summary_eq_ok h
  rw [hmethods]
  -- without methods the total is the sum over the types, and that is zero as well
  cases hempty : m.methodMetrics with
  | nil =>
    have hzero : m.codebase.methods = [] := List.map_eq_nil_iff.1 hempty
    show perType.total = 0
    rw [Distribution.total_ofCounts hperType, m.sum_nom m.typeGraph, hzero]
    rfl
  | cons first rest => rfl

/-- The sections of a report of a model, put beside each other and beside the summary. -/
structure AddsUp (m : CodeModel) (r : MetricsReport) : Prop where
  types : r.types.length = m.codebase.types.length
  typeCoupling : r.typeCoupling.length = r.types.length
  totalTypes : r.summary.totalTypes = r.types.length
  noc : (r.namespaces.map (·.noc)).sum = r.types.length
  methods : r.methods.length = m.codebase.methods.length
  nom : (r.types.map (·.nom)).sum = r.methods.length
  totalMethods : r.summary.methods.total = r.methods.length
  mloc : (r.methods.map (·.mloc)).sum = (r.types.map (·.sloc)).sum
  totalSloc : r.summary.sloc.total = (r.types.map (·.sloc)).sum
  cyclo : (r.methods.map (·.cyclo)).sum = (r.types.map (·.wmc)).sum
  totalComplexity : r.summary.complexity.total = (r.types.map (·.wmc)).sum
  namespaces : r.namespaces.map (·.name) = m.codebase.namespaceNames
  namespaceCoupling : r.namespaceCoupling.map (·.name) = r.namespaces.map (·.name)
  nodup_namespaces : (r.namespaces.map (·.name)).Nodup
  totalNamespaces : r.summary.totalNamespaces = r.namespaces.length

/-- The sections of every report add up: whatever names repeat and whatever counts are negative,
each type and each method stands once in every section that it belongs to. -/
theorem addsUp_of_run
    (h : (Calculators.standard.run settings (some m) schedule).outcome = .ok r) : m.AddsUp r := by
  obtain ⟨couplings, summary, hcouplings, hsummary, rfl⟩ := exists_report_of_run h
  obtain ⟨-, hsloc, hcomplexity, hnamespaces, htypes, -⟩ := summary_eq_ok hsummary
  have hnames := m.names_namespaceMetrics
  refine
    { types := List.length_map _
      typeCoupling := by simp [report, CodeModel.typeCoupling]
      totalTypes := htypes
      noc := ?_
      methods := List.length_map _
      nom := ?_
      totalMethods := totalMethods_summary hsummary
      mloc := m.sum_mloc m.typeGraph
      totalSloc := Distribution.total_ofCounts hsloc
      cyclo := m.sum_cyclo m.typeGraph
      totalComplexity := Distribution.total_ofCounts hcomplexity
      namespaces := hnames
      namespaceCoupling := (names_namespaceCoupling hcouplings).trans hnames.symm
      nodup_namespaces := hnames ▸ nodup_firstOccurrences _
      totalNamespaces := ?_ }
  · show (m.namespaceMetrics.map (·.noc)).sum = _
    rw [sum_noc]
    simp [report]
  · show ((m.codebase.types.map (·.metrics m.typeGraph)).map (·.nom)).sum = _
    rw [sum_nom]
    simp [report, methodMetrics]
  · show summary.totalNamespaces = (m.namespaceMetrics.length : Int)
    rw [hnamespaces, ← hnames, List.length_map]

/-- A namespace in two modules, two types of one name, two methods of one name and counts below
zero. -/
def repetitive : CodeModel where
  codebase := ⟨[⟨"left", [⟨"core", [{ fullName := "A", methods := [
      { fullName := "A.f", sloc := 3, decisionPoints := 2 },
      { fullName := "A.f", sloc := -1, decisionPoints := -4 }] }]⟩]⟩,
    ⟨"right", [⟨"ui", []⟩, ⟨"core", [{ fullName := "A", dependsOn := [some "B", none] },
      { fullName := "B", methods := [{ fullName := "B.g", sloc := 5 }] }]⟩]⟩]⟩
  graph := { namespaceEdges := .ofList [("ui", .ofList ["core", "ui"])] }

theorem addsUp_repetitive : ∃ r,
    (Calculators.standard.run {} (some repetitive) []).outcome = .ok r ∧ repetitive.AddsUp r := by
  have hreturns : (Calculators.standard.run {} (some repetitive) []).outcome.isOk := by
    decide +kernel
  obtain ⟨r, hrun⟩ := exists_eq_ok hreturns
  exact ⟨r, hrun, addsUp_of_run hrun⟩

end CodeModel

end DesignMetrics
