import DesignMetrics.Proofs.Binary64.Monotone
import DesignMetrics.Proofs.Metrics.NamespaceCoupling

/-!
# The square of abstractness and instability

A namespace is coupled with other namespaces only, so that both of its couplings are smaller than
the number of namespaces. Its ratios stay between zero and one whatever is rounded on the way, since
zero, one and two are numbers themselves and rounding passes none of them. Instability follows the
couplings: it does not fall with more efferent coupling, and does not rise with more afferent
coupling, as exact ratios do and as rounding keeps their order.
-/

namespace DesignMetrics

open Binary64

/-! ## Ratios -/

/-- With one more efferent coupling a namespace is no more stable. -/
theorem atMost_instability_succ_ce (ca ce : Nat) :
    (efferentShare ca ce).atMost (efferentShare ca (ce + 1)) := by
  apply atMost_ofRatio
  have htotal : max (ca + (ce + 1)) 1 = ca + ce + 1 := by omega
  rw [htotal]
  calc ce * (ca + ce + 1) = ce * (ca + ce) + ce := Nat.mul_succ ce (ca + ce)
    _ ≤ ce * max (ca + ce) 1 + max (ca + ce) 1 :=
        Nat.add_le_add (Nat.mul_le_mul_left ce (Nat.le_max_left _ _)) (by omega)
    _ = (ce + 1) * max (ca + ce) 1 := (Nat.succ_mul ce _).symm

/-- With one more afferent coupling a namespace is no less stable. -/
theorem atMost_instability_succ_ca (ca ce : Nat) :
    (efferentShare (ca + 1) ce).atMost (efferentShare ca ce) := by
  apply atMost_ofRatio
  exact Nat.mul_le_mul_left ce (by omega)

/-- The instability of two counts is from zero to one, and changes so when one of them grows. -/
structure InstabilityFollows (ca ce : Nat) (x efferent afferent : Binary64) : Prop where
  at_counts : instability ca ce = .ok x
  one_more_ce : instability ca (ce + 1) = .ok efferent
  one_more_ca : instability (ca + 1) ce = .ok afferent
  isShare : x.IsShare
  le_efferent : x.atMost efferent
  afferent_le : afferent.atMost x

theorem exists_instabilityFollows (ca ce : Nat) :
    ∃ x efferent afferent, InstabilityFollows ca ce x efferent afferent :=
  ⟨_, _, _,
    { at_counts := instability_natCast ca ce
      one_more_ce := instability_natCast ca (ce + 1)
      one_more_ca := instability_natCast (ca + 1) ce
      isShare := (within_efferentShare ca ce).isShare
      le_efferent := atMost_instability_succ_ce ca ce
      afferent_le := atMost_instability_succ_ca ca ce }⟩

/-! ## Namespaces -/

/-- The coupling of one among some namespaces: counts of the others, and ratios from zero to one. -/
structure NamespaceCoupling.InRange (c : NamespaceCoupling) (namespaces : Nat) : Prop where
  ca_nonneg : 0 ≤ c.ca
  ca_le : c.ca ≤ namespaces - 1
  ce_nonneg : 0 ≤ c.ce
  ce_le : c.ce ≤ namespaces - 1
  instability : c.instability.IsShare
  abstractness : c.abstractness.IsShare
  normalizedDistance : c.normalizedDistance.IsShare

namespace CodeModel

variable {m : CodeModel} {name : String}

theorem card_efferents_lt (hname : name ∈ m.declaredNamespaces) :
    (m.efferents name).card < m.declaredNamespaces.card :=
  Finset.card_lt_card (Finset.filter_ssubset.2 ⟨name, hname, fun h => h.1 rfl⟩)

theorem card_afferents_lt (hname : name ∈ m.declaredNamespaces) :
    (m.afferents name).card < m.declaredNamespaces.card :=
  Finset.card_lt_card (Finset.filter_ssubset.2 ⟨name, hname, fun h => h.1 rfl⟩)

theorem inRange_of_eq_ok (hname : name ∈ m.declaredNamespaces) {types : List TypeDecl}
    {c : NamespaceCoupling}
    (hc : DesignMetrics.namespaceCoupling m.namespaceGraph name types = .ok c) :
    c.InRange m.declaredNamespaces.card := by
  obtain ⟨x, hx, hc⟩ := bind_eq_ok.1 hc
  cases hc
  rw [instability_natCast] at hx
  cases hx
  have hca := card_afferents_lt hname
  have hce := card_efferents_lt hname
  rw [← inDegree_namespaceGraph hname] at hca
  rw [← outDegree_namespaceGraph hname] at hce
  have habstractness := within_abstractness types
  have hinstability :=
    within_efferentShare (m.namespaceGraph.inDegree name) (m.namespaceGraph.outDegree name)
  exact
    { ca_nonneg := Int.natCast_nonneg _
      ca_le := by dsimp only; omega
      ce_nonneg := Int.natCast_nonneg _
      ce_le := by dsimp only; omega
      instability := hinstability.isShare
      abstractness := habstractness.isShare
      normalizedDistance := (within_normalizedDistance habstractness hinstability).isShare }

/-- The coupling of the namespaces stays in range, and instability follows the counts. Every
namespace has a record, with counts below the number of namespaces and ratios from zero to one, and
whatever the two counts are, more efferent coupling does not make the instability less and more
afferent coupling does not make it greater. -/
theorem namespaceCoupling_inRange (m : CodeModel) :
    (∃ couplings, m.namespaceCoupling.outcome = .ok couplings ∧
      couplings.map (·.name) = m.codebase.namespaceNames ∧
      ∀ c ∈ couplings, c.InRange m.declaredNamespaces.card) ∧
    ∀ ca ce : Nat, ∃ x efferent afferent, InstabilityFollows ca ce x efferent afferent := by
  refine ⟨?_, exists_instabilityFollows⟩
  obtain ⟨couplings, hcouplings, hrange⟩ :
      ∃ couplings, (m.codebase.typesByNamespace.mapM fun group =>
        DesignMetrics.namespaceCoupling m.namespaceGraph group.1 group.2) = .ok couplings ∧
      ∀ c ∈ couplings, c.InRange m.declaredNamespaces.card := by
    apply exists_mapM
    intro group hgroup
    have hname : group.1 ∈ m.codebase.namespaceNames := by
      rw [← Codebase.names_typesByNamespace]
      exact List.mem_map_of_mem hgroup
    obtain ⟨c, hc, -⟩ := exists_namespaceCoupling m.namespaceGraph group.1 group.2
    exact ⟨c, hc, inRange_of_eq_ok (mem_namespaceNames.1 hname) hc⟩
  rw [← outcome_namespaceCoupling] at hcouplings
  exact ⟨couplings, hcouplings, names_namespaceCoupling hcouplings, hrange⟩

end CodeModel

end DesignMetrics
