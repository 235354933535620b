import DesignMetrics.Proofs.Metrics.Range
import DesignMetrics.Proofs.Statistics.Integers

/-!
# Averages and totals

The averages of a summary are the totals beside them, divided by the number of types and rounded
once. While there are at most `2 ^ 53` types, lines, methods and paths nothing is rounded before the
division, and the order of the types does not show.
-/

namespace DesignMetrics

open Statistics

variable {m : CodeModel} {types types' : List TypeMetrics} {methods : List MethodMetrics}

/-- A distribution of which the total is the sum of the counts, and the average that sum divided by
the number of counts. -/
structure Distribution.AveragesTotal (d : Distribution) (counts : List Int) : Prop where
  total : d.total = counts.sum
  average : d.average.IsQuotient counts.sum.toNat counts.length

theorem Distribution.averagesTotal_of_ofCounts {counts : List Int} {d : Distribution}
    (hne : counts ≠ []) (hcounts : AddUpExactly counts) (h : Distribution.ofCounts counts = .ok d) :
    d.AveragesTotal counts := by
  obtain ⟨numbers, average, deviation, hnumbers, haverage, -, rfl⟩ := ofCounts_eq_ok h
  obtain ⟨-, rfl⟩ := sample_eq_ok hnumbers
  exact ⟨rfl, hcounts.isQuotient_mean hne haverage⟩

/-- Type records of which lines, methods and paths add up to numbers of at most 53 bits, in a list
that is no longer than that. -/
structure AreCountable (types : List TypeMetrics) : Prop where
  ne_nil : types ≠ []
  length_le : types.length ≤ 2 ^ 53
  sloc : AddUpExactly (types.map (·.sloc))
  nom : AddUpExactly (types.map (·.nom))
  wmc : AddUpExactly (types.map (·.wmc))

theorem AreCountable.perm (h : AreCountable types) (hperm : types'.Perm types) :
    AreCountable types' where
  ne_nil hnil := h.ne_nil (List.nil_perm.1 (hnil ▸ hperm))
  length_le := hperm.length_eq ▸ h.length_le
  sloc := h.sloc.perm (hperm.map _)
  nom := h.nom.perm (hperm.map _)
  wmc := h.wmc.perm (hperm.map _)

theorem CodeModel.exists_summary_of_areCountable (m : CodeModel) (h : AreCountable types)
    (methods : List MethodMetrics) : ∃ s, m.summary types methods = .ok s := by
  have hlength := Nat.le_trans h.length_le pow_le_countLimit
  obtain ⟨mean, hmean, -⟩ :=
    CodeModel.exists_meanTypesPerNamespace hlength m.codebase.namespaceNames.length
  obtain ⟨sloc, hsloc⟩ := h.sloc.exists_ofCounts
  obtain ⟨perType, hperType⟩ := h.nom.exists_ofCounts
  obtain ⟨complexity, hcomplexity⟩ := h.wmc.exists_ofCounts
  rw [summary, hmean, hsloc, hperType, hcomplexity]
  exact ⟨_, rfl⟩

/-- A summary of which the averages are the sums over the types, divided by their number. -/
structure Summary.AveragesTotals (s : Summary) (types : List TypeMetrics) : Prop where
  sloc : s.sloc.AveragesTotal (types.map (·.sloc))
  methods : s.methods.average.IsQuotient (types.map TypeMetrics.nom).sum.toNat types.length
  complexity : s.complexity.AveragesTotal (types.map (·.wmc))

theorem AreCountable.averagesTotals (h : AreCountable types) {s : Summary}
    (hs : m.summary types methods = .ok s) : s.AveragesTotals types := by
  obtain ⟨-, hsloc, hcomplexity, -, -, perType, hperType, hmethods⟩ := CodeModel.summary_eq_ok hs
  have hne : ∀ figure : TypeMetrics → Int, types.map figure ≠ [] := fun figure hnil =>
    h.ne_nil (List.map_eq_nil_iff.1 hnil)
  have haverage := Distribution.averagesTotal_of_ofCounts (hne fun t => t.nom) h.nom hperType
  have hmean := haverage.average
  rw [List.length_map] at hmean
  exact
    { sloc := Distribution.averagesTotal_of_ofCounts (hne _) h.sloc hsloc
      methods := hmethods ▸ hmean
      complexity := Distribution.averagesTotal_of_ofCounts (hne _) h.wmc hcomplexity }

/-- Averages agree with totals. The summary of countable types is there, each of its averages is the
exact sum over the types divided by their number and rounded once, and no order of the types changes
it. -/
theorem CodeModel.summary_averagesTotals (m : CodeModel) (h : AreCountable types)
    (methods : List MethodMetrics) :
    ∃ s, m.summary types methods = .ok s ∧ s.AveragesTotals types ∧
      ∀ types', types'.Perm types → m.summary types' methods = .ok s := by
  obtain ⟨s, hs⟩ := m.exists_summary_of_areCountable h methods
  refine ⟨s, hs, h.averagesTotals hs, fun types' hperm => ?_⟩
  obtain ⟨s', hs'⟩ := m.exists_summary_of_areCountable (h.perm hperm) methods
  rw [hs', summary_perm (.refl _) hperm (.refl _) hs' hs]

/-- Three types with as many lines as are allowed; one of them has nothing. -/
def unevenTypes : List TypeMetrics :=
  [{ typeFullName := "A", sloc := 2 ^ 53 - 1, nom := 2, wmc := 5 },
    { typeFullName := "B", sloc := 1, nom := 1, wmc := 1 }, { typeFullName := "C" }]

theorem CodeModel.summary_averagesTotals_uneven :
    AreCountable unevenTypes ∧ ∃ s, empty.summary unevenTypes [] = .ok s ∧
      s.AveragesTotals unevenTypes ∧
      ∀ types', types'.Perm unevenTypes → empty.summary types' [] = .ok s := by
  have h : AreCountable unevenTypes :=
    ⟨List.cons_ne_nil _ _, by decide, ⟨by decide, by decide⟩, ⟨by decide, by decide⟩,
      ⟨by decide, by decide⟩⟩
  exact ⟨h, summary_averagesTotals empty h []⟩

end DesignMetrics
