import DesignMetrics.Metrics.Summary
import DesignMetrics.Proofs.Statistics.Order

/-!
# The parts of a summary

A summary is there when the mean number of types and the three distributions are. Its totals are
sums over the records it is made from, whatever the averages come to, and none of its figures looks
at the order of the records.
-/

namespace DesignMetrics

theorem Distribution.ofCounts_eq_ok {counts : List Int} {d : Distribution}
    (h : Distribution.ofCounts counts = .ok d) :
    ∃ numbers average deviation,
      Statistics.sample (some (counts.map .integer)) = .ok numbers ∧
      Statistics.mean numbers = .ok average ∧
      Statistics.populationDeviation numbers = .ok deviation ∧
      d = ⟨counts.sum, average, Statistics.median numbers, deviation⟩ := by
  obtain ⟨numbers, hnumbers, h⟩ := bind_eq_ok.1 h
  obtain ⟨average, haverage, h⟩ := bind_eq_ok.1 h
  obtain ⟨deviation, hdeviation, h⟩ := bind_eq_ok.1 h
  exact ⟨numbers, average, deviation, hnumbers, haverage, hdeviation, (Except.ok.inj h).symm⟩

theorem Distribution.total_ofCounts {counts : List Int} {d : Distribution}
    (h : Distribution.ofCounts counts = .ok d) : d.total = counts.sum := by
  obtain ⟨_, _, _, -, -, -, rfl⟩ := Distribution.ofCounts_eq_ok h
  rfl

theorem Distribution.ofCounts_perm {counts counts' : List Int} {d d' : Distribution}
    (hperm : counts.Perm counts') (h : Distribution.ofCounts counts = .ok d)
    (h' : Distribution.ofCounts counts' = .ok d') : d = d' := by
  obtain ⟨numbers, average, deviation, hnumbers, haverage, hdeviation, rfl⟩ := ofCounts_eq_ok h
  obtain ⟨numbers', average', deviation', hnumbers', haverage', hdeviation', rfl⟩ :=
    ofCounts_eq_ok h'
  obtain ⟨hfinite, rfl⟩ := Statistics.sample_eq_ok hnumbers
  obtain ⟨-, rfl⟩ := Statistics.sample_eq_ok hnumbers'
  have hnumbers := hperm.map Binary64.ofInt
  have hmean : average = average' :=
    Statistics.mean_perm hnumbers (List.forall_mem_map.2 hfinite) haverage haverage'
  have hmedian := Statistics.median_map_ofInt_perm hperm hfinite
  rw [Statistics.populationDeviation_perm hnumbers] at hdeviation
  rw [hperm.sum_eq, hmean, hmedian, Except.ok.inj (hdeviation.symm.trans hdeviation')]

theorem CodeModel.summary_eq_ok {m : CodeModel} {types : List TypeMetrics}
    {methods : List MethodMetrics} {s : Summary} (h : m.summary types methods = .ok s) :
    meanTypesPerNamespace types.length m.codebase.namespaceNames.length =
        .ok s.meanTypesPerNamespace ∧
      Distribution.ofCounts (types.map (·.sloc)) = .ok s.sloc ∧
      Distribution.ofCounts (types.map (·.wmc)) = .ok s.complexity ∧
      s.totalNamespaces = m.codebase.namespaceNames.length ∧ s.totalTypes = types.length ∧
      ∃ perType, Distribution.ofCounts (types.map (·.nom)) = .ok perType ∧
        s.methods =
          { perType with total := if methods.isEmpty then perType.total else methods.length } := by
  obtain ⟨mean, hmean, h⟩ := bind_eq_ok.1 h
  obtain ⟨sloc, hsloc, h⟩ := bind_eq_ok.1 h
  obtain ⟨perType, hperType, h⟩ := bind_eq_ok.1 h
  obtain ⟨complexity, hcomplexity, h⟩ := bind_eq_ok.1 h
  cases h
  exact ⟨hmean, hsloc, hcomplexity, rfl, rfl, perType, hperType, rfl⟩

theorem CodeModel.summary_perm {m m' : CodeModel} {types types' : List TypeMetrics}
    {methods methods' : List MethodMetrics} {s s' : Summary}
    (hnamespaces : m.codebase.namespaceNames.Perm m'.codebase.namespaceNames)
    (htypes : types.Perm types') (hmethods : methods.Perm methods')
    (h : m.summary types methods = .ok s) (h' : m'.summary types' methods' = .ok s') : s = s' := by
  obtain ⟨hmean, hsloc, hcomplexity, hnames, hcount, perType, hperType, htotal⟩ := summary_eq_ok h
  obtain ⟨hmean', hsloc', hcomplexity', hnames', hcount', perType', hperType', htotal'⟩ :=
    summary_eq_ok h'
  rw [htypes.length_eq, hnamespaces.length_eq] at hmean
  have hperType_eq := Distribution.ofCounts_perm (htypes.map _) hperType hperType'
  rw [hperType_eq, hmethods.isEmpty_eq, hmethods.length_eq, ← htotal'] at htotal
  rw [hnamespaces.length_eq, ← hnames'] at hnames
  rw [htypes.length_eq, ← hcount'] at hcount
  have hmean_eq := Except.ok.inj (hmean.symm.trans hmean')
  have hsloc_eq := Distribution.ofCounts_perm (htypes.map _) hsloc hsloc'
  have hcomplexity_eq := Distribution.ofCounts_perm (htypes.map _) hcomplexity hcomplexity'
  cases s
  cases s'
  simp only at hnames hcount htotal hmean_eq hsloc_eq hcomplexity_eq
  rw [hnames, hcount, htotal, hmean_eq, hsloc_eq, hcomplexity_eq]

end DesignMetrics
