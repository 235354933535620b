import DesignMetrics.Proofs.Binary64.Monotone
import DesignMetrics.Proofs.Metrics.Totals

/-!
# Ratios are shares

Every ratio of the metrics is a share: the efferent couplings among all couplings, the abstractions
among the types, the fields that the methods access among all pairs of a method and a field. So a
ratio is never out of range, however large the model is, and the coupling of namespaces is always
there.
-/

namespace DesignMetrics

open Binary64

/-! ## Cohesion -/

theorem Method.accessCount_le (f : Method) (names : List String) :
    f.accessCount names ≤ names.length :=
  List.countP_le_length

/-- Every method accesses every field at most once. -/
theorem TypeDecl.accessTotal_le (t : TypeDecl) :
    t.accessTotal ≤ t.methods.length * t.fields.length := by
  have hnames : t.fieldNames.length ≤ t.fields.length := by
    have hle := length_firstOccurrences_le (t.fields.map (·.name))
    rwa [List.length_map] at hle
  rw [accessTotal]
  induction t.methods with
  | nil => simp
  | cons f rest ih =>
    have hcount := f.accessCount_le t.fieldNames
    rw [List.map_cons, List.foldr_cons, List.length_cons, Nat.add_mul, Nat.one_mul]
    omega

section

variable (t : TypeDecl) (hpairs : 0 < t.methods.length * t.fields.length)

/-- The share of the accesses is in range. -/
theorem TypeDecl.within_accessShare : (t.accessShare hpairs).Within unitsPerOne :=
  within_ofRatio_of_le _ t.accessTotal_le

/-- One less the share of the accesses. -/
def TypeDecl.rawLcom3 : Binary64 := one - t.accessShare hpairs

theorem TypeDecl.within_rawLcom3 : (t.rawLcom3 hpairs).Within unitsPerOne := by
  have hshare := t.within_accessShare hpairs
  apply within_one.sub hshare gridPoint_unitsPerOne unitsPerOne_lt
  rw [scaled_one]
  exact hshare.scaled_le

end

theorem TypeDecl.lcom3_eq_zero {t : TypeDecl} (h : t.methods.length ≤ 1 ∨ t.fields.length ≤ 1) :
    t.lcom3 = zero :=
  dif_pos h

/-- The bounds zero and one are kept without being enforced. -/
theorem TypeDecl.lcom3_eq_rawLcom3 {t : TypeDecl} (hmethods : 2 ≤ t.methods.length)
    (hfields : 2 ≤ t.fields.length) : t.lcom3 = t.rawLcom3 (pairs_pos hmethods hfields) := by
  have hwithin := t.within_rawLcom3 (pairs_pos hmethods hfields)
  have hfloored := hwithin.floored_eq
  have hcapped := hwithin.capped_eq
  unfold rawLcom3 at hfloored hcapped
  rw [lcom3, dif_neg (by omega)]
  simp only [hfloored, hcapped]
  rfl

theorem TypeDecl.within_lcom3 (t : TypeDecl) : t.lcom3.Within unitsPerOne := by
  by_cases h : t.methods.length ≤ 1 ∨ t.fields.length ≤ 1
  · rw [lcom3_eq_zero h]
    exact within_zero.mono (Nat.zero_le _)
  · rw [lcom3_eq_rawLcom3 (by omega) (by omega)]
    exact t.within_rawLcom3 _

/-! ## Abstractness, instability and distance -/

theorem within_abstractness (types : List TypeDecl) : (abstractness types).Within unitsPerOne := by
  unfold abstractness
  split
  · exact within_zero.mono (Nat.zero_le _)
  · exact within_ofRatio_of_le _ List.countP_le_length

/-- The efferent share of all couplings, and the share of nothing in one when there are none. -/
def efferentShare (ca ce : Nat) : Binary64 := ofRatio ce (max (ca + ce) 1 : Nat) (by omega)

theorem within_efferentShare (ca ce : Nat) : (efferentShare ca ce).Within unitsPerOne :=
  within_ofRatio_of_le _ (by omega)

theorem instability_natCast (ca ce : Nat) : instability ca ce = .ok (efferentShare ca ce) := by
  have hfinite := (within_efferentShare ca ce).isFinite
  by_cases h : 0 < ca + ce
  · have hmax : max (ca + ce) 1 = ca + ce := by omega
    simp only [efferentShare, hmax] at hfinite ⊢
    rw [instability, dif_pos (by omega), Statistics.inRange_eq_ok]
    exact ⟨hfinite, rfl⟩
  · have hce : ce = 0 := by omega
    have hca : ca = 0 := by omega
    subst hce hca
    rw [efferentShare, ofRatio_natCast, instability, dif_neg (by decide), zero, ofInt,
      Int.natAbs_zero]
    rfl

theorem exists_instability (ca ce : Nat) :
    ∃ x, instability ca ce = .ok x ∧ x.Within unitsPerOne :=
  ⟨_, instability_natCast ca ce, within_efferentShare ca ce⟩

/-- The sum of two shares is at most two, so that its distance from one is at most one. -/
theorem within_normalizedDistance {abstractness instability : Binary64}
    (ha : abstractness.Within unitsPerOne) (hi : instability.Within unitsPerOne) :
    (normalizedDistance abstractness instability).Within unitsPerOne := by
  have hsum : (abstractness + instability).Within (2 * unitsPerOne) := by
    apply ha.add hi gridPoint_two_mul_unitsPerOne two_mul_unitsPerOne_lt
    have haLe := ha.scaled_le
    have hiLe := hi.scaled_le
    omega
  apply hsum.abs_sub within_one gridPoint_unitsPerOne unitsPerOne_lt
  have hnonneg := hsum.scaled_nonneg
  have hle := hsum.scaled_le
  rw [scaled_one]
  omega

/-! ## Coupling of namespaces -/

/-- The coupling of a node of a graph: its degrees, and ratios in range. -/
structure NamespaceCoupling.IsRead (c : NamespaceCoupling) (g : Digraph) : Prop where
  ca : c.ca = g.inDegree c.name
  ce : c.ce = g.outDegree c.name
  instability : c.instability.IsProper
  abstractness : c.abstractness.IsProper
  normalizedDistance : c.normalizedDistance.IsProper

theorem exists_namespaceCoupling (g : Digraph) (name : String) (types : List TypeDecl) :
    ∃ c, namespaceCoupling g name types = .ok c ∧ c.IsRead g := by
  obtain ⟨x, hx, hwithin⟩ := exists_instability (g.inDegree name) (g.outDegree name)
  have habstractness := within_abstractness types
  refine ⟨⟨name, g.inDegree name, g.outDegree name, x, abstractness types,
    normalizedDistance (abstractness types) x⟩, ?_, rfl, rfl, hwithin.isProper,
    habstractness.isProper, (within_normalizedDistance habstractness hwithin).isProper⟩
  rw [namespaceCoupling, hx]
  rfl

/-- The coupling of the namespaces is there for every model, one record for every name. -/
theorem CodeModel.exists_outcome_namespaceCoupling (m : CodeModel) :
    ∃ couplings, m.namespaceCoupling.outcome = .ok couplings ∧
      couplings.map (·.name) = m.codebase.namespaceNames ∧
      ∀ c ∈ couplings, c.IsRead m.namespaceGraph := by
  obtain ⟨couplings, hcouplings, hread⟩ :=
    exists_mapM (l := m.codebase.typesByNamespace) fun group _ =>
      exists_namespaceCoupling m.namespaceGraph group.1 group.2
  rw [← outcome_namespaceCoupling] at hcouplings
  exact ⟨couplings, hcouplings, names_namespaceCoupling hcouplings, hread⟩

end DesignMetrics
