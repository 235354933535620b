import DesignMetrics.Proofs.Metrics.Ratios
import DesignMetrics.Proofs.Statistics.Range

/-!
# Reports in range

A run can only fail in the ratios of the namespaces and in the summary. The ratios are shares and
never fail. The summary does not fail on a model with fewer than `2 ^ 1023` types, lines and paths:
the lines and the paths of the types add up to those of the methods, and there is a path for every
method. The numbers of such a report are all finite and at least zero.
-/

namespace DesignMetrics

/-! ## The numbers of plain data -/

namespace Datum

mutual

/-- The floating-point numbers in a datum, in order. -/
def reals : Datum → List Binary64
  | .real x => [x]
  | .list items => realsOfItems items
  | .mapping entries => realsOfEntries entries
  | .pairs entries => realsOfEntries entries
  | .set members => realsOfItems members
  | _ => []

def realsOfItems : List Datum → List Binary64
  | [] => []
  | item :: rest => item.reals ++ realsOfItems rest

def realsOfEntries : List (Datum × Datum) → List Binary64
  | [] => []
  | (key, value) :: rest => key.reals ++ value.reals ++ realsOfEntries rest

end

@[simp] theorem reals_text (s : String) : (text s).reals = [] := by simp [reals]

@[simp] theorem reals_integer (n : Int) : (integer n).reals = [] := by simp [reals]

@[simp] theorem reals_real (x : Binary64) : (real x).reals = [x] := by rw [reals]

@[simp] theorem reals_record (members : List (String × Datum)) :
    (record members).reals = members.flatMap fun member => member.2.reals := by
  rw [record, reals]
  induction members with
  | nil => rfl
  | cons member rest ih =>
    rw [List.map_cons, realsOfEntries, ih, reals_text, List.nil_append, List.flatMap_cons]

@[simp] theorem reals_ofAll {α : Type} (toDatum : α → Datum) (items : List α) :
    (ofAll toDatum items).reals = items.flatMap fun item => (toDatum item).reals := by
  rw [ofAll, reals]
  induction items with
  | nil => rfl
  | cons item rest ih => rw [List.map_cons, realsOfItems, ih, List.flatMap_cons]

theorem reals_texts (items : List String) : (texts items).reals = [] := by
  rw [texts, reals]
  induction items with
  | nil => rfl
  | cons item rest ih => rw [List.map_cons, realsOfItems, ih, reals_text, List.nil_append]

end Datum

/-- The numbers of a report: those of the summary, one for each type and three for each
namespace. -/
theorem MetricsReport.reals_toDatum (r : MetricsReport) :
    r.toDatum.reals =
      [r.summary.meanTypesPerNamespace] ++
        [r.summary.sloc, r.summary.methods, r.summary.complexity].flatMap (fun d =>
          [d.average, d.median, d.deviation]) ++
        r.types.flatMap (fun t => [t.lcom3]) ++
        r.namespaceCoupling.flatMap fun c =>
          [c.instability, c.abstractness, c.normalizedDistance] := by
  have hnone : ∀ {α : Type} (l : List α), l.flatMap (fun _ => ([] : List Binary64)) = [] :=
    fun l => List.flatMap_eq_nil_iff.2 fun _ _ => rfl
  simp [hnone, MetricsReport.toDatum, Summary.toDatum, Distribution.members,
    NamespaceMetrics.toDatum, TypeMetrics.toDatum, MethodMetrics.toDatum, NamespaceCoupling.toDatum, TypeCoupling.toDatum,
    DependencyMetrics.toDatum, DependencyCycle.toDatum, Datum.reals_texts]

/-! ## Counts -/

theorem clampCount_nonneg (count : Int) : 0 ≤ clampCount count := Int.le_max_right _ _

theorem Method.one_le_complexity (f : Method) : 1 ≤ f.complexity := by
  have hnonneg := clampCount_nonneg f.decisionPoints
  rw [complexity, cyclomaticComplexity]
  omega

theorem TypeDecl.sloc_nonneg (t : TypeDecl) : 0 ≤ t.sloc := by
  show 0 ≤ (t.methods.map fun f => clampCount f.sloc).sum
  apply List.sum_nonneg
  intro count hcount
  obtain ⟨f, -, rfl⟩ := List.mem_map.1 hcount
  exact clampCount_nonneg f.sloc

theorem length_le_sum_complexity (methods : List Method) :
    (methods.length : Int) ≤ (methods.map (·.complexity)).sum := by
  induction methods with
  | nil => exact Int.le_refl 0
  | cons f rest ih =>
    have hone := f.one_le_complexity
    rw [List.length_cons, List.map_cons, List.sum_cons]
    omega

theorem TypeDecl.weightedMethods_nonneg (t : TypeDecl) : 0 ≤ t.weightedMethods :=
  Int.le_trans (Int.natCast_nonneg _) (length_le_sum_complexity t.methods)

/-! ## Runs -/

namespace CodeModel

/-- A model of fewer than `2 ^ 1023` types, lines and paths. -/
structure IsRepresentable (m : CodeModel) : Prop where
  types : m.codebase.types.length < Statistics.countLimit
  sloc : (m.codebase.methods.map fun f => clampCount f.sloc).sum < Statistics.countLimit
  complexity : (m.codebase.methods.map (·.complexity)).sum < Statistics.countLimit

variable {m : CodeModel} {settings : EngineSettings} {schedule : List PoolAction}

theorem exists_meanTypesPerNamespace {types : Nat} (htypes : types ≤ Statistics.countLimit)
    (namespaces : Nat) : ∃ x, meanTypesPerNamespace types namespaces = .ok x ∧ x.IsProper := by
  unfold meanTypesPerNamespace
  split
  · rename_i hpos
    have hunits : types * Binary64.unitsPerOne ≤ Statistics.sumBound := by
      have hle := Nat.mul_le_mul_right Binary64.unitsPerOne htypes
      rw [Statistics.countLimit_mul_unitsPerOne] at hle
      rw [Statistics.sumBound]
      omega
    have hwithin := Binary64.within_ofRatio (Int.natCast_pos.2 hpos) Statistics.gridPoint_sumBound
      Statistics.sumBound_lt (Nat.le_trans hunits (Nat.le_mul_of_pos_right _ hpos))
    exact ⟨_, Statistics.inRange_eq_ok.2 ⟨hwithin.isFinite, rfl⟩, hwithin.isProper⟩
  · exact ⟨.zero, rfl, Binary64.within_zero.isProper⟩

/-- A figure of the types that is never below zero and does not add up to too much. -/
theorem exists_distribution {g : Digraph} {figure : TypeMetrics → Int}
    (hnonneg : ∀ t : TypeDecl, 0 ≤ figure (t.metrics g))
    (hsum : ((m.codebase.types.map (·.metrics g)).map figure).sum ≤ Statistics.countLimit) :
    ∃ d, Distribution.ofCounts ((m.codebase.types.map (·.metrics g)).map figure) = .ok d ∧
      d.IsProper := by
  apply Distribution.exists_ofCounts _ hsum
  intro count hcount
  obtain ⟨record, hrecord, rfl⟩ := List.mem_map.1 hcount
  obtain ⟨t, -, rfl⟩ := List.mem_map.1 hrecord
  exact hnonneg t

theorem IsRepresentable.exists_summary (h : m.IsRepresentable) (g : Digraph) :
    ∃ s, m.summary (m.codebase.types.map (·.metrics g)) m.methodMetrics = .ok s ∧
      s.meanTypesPerNamespace.IsProper ∧ s.sloc.IsProper ∧ s.methods.IsProper ∧
      s.complexity.IsProper := by
  have hslocs : ((m.codebase.types.map (·.metrics g)).map (·.sloc)).sum ≤
      Statistics.countLimit := by
    rw [← m.sum_mloc g, methodMetrics, List.map_map]
    exact Int.le_of_lt h.sloc
  have hwmcs : ((m.codebase.types.map (·.metrics g)).map (·.wmc)).sum ≤ Statistics.countLimit := by
    rw [← m.sum_cyclo g, methodMetrics, List.map_map]
    exact Int.le_of_lt h.complexity
  -- there is a path for every method
  have hnoms : ((m.codebase.types.map (·.metrics g)).map (·.nom)).sum ≤ Statistics.countLimit := by
    rw [m.sum_nom g]
    exact Int.le_trans (length_le_sum_complexity _) (Int.le_of_lt h.complexity)
  obtain ⟨mean, hmean, hmeanProper⟩ :=
    exists_meanTypesPerNamespace (Nat.le_of_lt h.types) m.codebase.namespaceNames.length
  obtain ⟨sloc, hsloc, hslocProper⟩ := exists_distribution (·.sloc_nonneg) hslocs
  obtain ⟨perType, hperType, hperTypeProper⟩ :=
    exists_distribution (fun t => Int.natCast_nonneg t.methods.length) hnoms
  obtain ⟨complexity, hcomplexity, hcomplexityProper⟩ :=
    exists_distribution (·.weightedMethods_nonneg) hwmcs
  rw [summary, List.length_map, hmean, hsloc, hperType, hcomplexity]
  exact ⟨_, rfl, hmeanProper, hslocProper, ⟨hperTypeProper.average, hperTypeProper.median,
    hperTypeProper.deviation⟩, hcomplexityProper⟩

/-- A run on a model of representable size returns, whatever the settings and the schedule, and all
numbers of the report are finite and at least zero. So are the shares from which the report makes
the lack of cohesion of the types that have several methods and fields; no divisor is zero, as a
number is divided only with a proof that it is not. -/
theorem exists_report_of_isRepresentable (h : m.IsRepresentable) (settings : EngineSettings)
    (schedule : List PoolAction) :
    ∃ r, (Calculators.standard.run settings (some m) schedule).outcome = .ok r ∧
      (∀ x ∈ r.toDatum.reals, x.IsProper) ∧
      ∀ t ∈ m.codebase.types, ∀ hpairs, (t.accessShare hpairs).IsProper := by
  obtain ⟨couplings, hcouplings, -, hread⟩ := m.exists_outcome_namespaceCoupling
  obtain ⟨s, hs, hmean, hsloc, hmethods, hcomplexity⟩ := h.exists_summary m.typeGraph
  have hrun : (Calculators.standard.run settings (some m) schedule).outcome =
      .ok (m.report couplings s) := by
    rw [Calculators.outcome_run, outcome_finale, hcouplings]
    show (m.summary _ _).map _ = _
    rw [hs]
    rfl
  refine ⟨_, hrun, ?_, fun t _ hpairs => (t.within_accessShare hpairs).isProper⟩
  intro x hx
  rw [MetricsReport.reals_toDatum] at hx
  simp only [List.mem_append, List.mem_flatMap, List.mem_cons, List.not_mem_nil, or_false] at hx
  rcases hx with ((hx | ⟨d, hd, hx⟩) | ⟨record, hrecord, hx⟩) | ⟨c, hc, hx⟩
  · exact hx ▸ hmean
  · have hd : d.IsProper := by
      rcases hd with rfl | rfl | rfl
      · exact hsloc
      · exact hmethods
      · exact hcomplexity
    rcases hx with rfl | rfl | rfl
    · exact hd.average
    · exact hd.median
    · exact hd.deviation
  · obtain ⟨t, -, rfl⟩ := List.mem_map.1 hrecord
    exact hx ▸ t.within_lcom3.isProper
  · have hc := hread c hc
    rcases hx with rfl | rfl | rfl
    · exact hc.instability
    · exact hc.abstractness
    · exact hc.normalizedDistance

/-- Almost as many lines as are allowed, in two types, one of which has two methods and two fields;
a count below zero, a gap in a dependency list, a namespace without types and edges to undeclared
names. -/
def vast : CodeModel where
  codebase := ⟨[⟨"app", [⟨"core", [
    { fullName := "A", dependsOn := [some "B", none, some "C"],
      fields := [{ name := "x" }, { name := "y" }], methods := [
        { fullName := "A.f", sloc := 2 ^ 1022, decisionPoints := -7, accessedFields := ["x"] },
        { fullName := "A.g", accessedFields := ["x", "y"] }] },
    { fullName := "B", methods := [{ fullName := "B.f", sloc := 2 ^ 1022 - 1 }] }]⟩,
    ⟨"idle", []⟩]⟩]⟩
  graph := { namespaceEdges := .ofList [("core", .ofList ["core", "net"])] }

theorem exists_report_vast :
    vast.IsRepresentable ∧ ∃ r,
      (Calculators.standard.run { maxWorkers := 2, parallelThreshold := 0 } (some vast)
        [.proceed, .start .types]).outcome = .ok r ∧ (∀ x ∈ r.toDatum.reals, x.IsProper) ∧
      ∀ t ∈ vast.codebase.types, ∀ hpairs, (t.accessShare hpairs).IsProper := by
  have hrepresentable : vast.IsRepresentable :=
    ⟨by decide +kernel, by decide +kernel, by decide +kernel⟩
  exact ⟨hrepresentable, exists_report_of_isRepresentable hrepresentable _ _⟩

end CodeModel

end DesignMetrics
