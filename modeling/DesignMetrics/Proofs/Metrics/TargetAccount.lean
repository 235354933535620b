import Mathlib.Algebra.BigOperators.Ring.Finset
import DesignMetrics.Proofs.Metrics.TypeCoupling

/-!
# Where the targets of a type go

A declaration counts the distinct names that it lists. The whole model counts them too, but takes
the declarations of one name together. The type graph counts only declared names, again for all
declarations of one name, and it does not leave out a blank name. The three counts fit together as
soon as every name is declared once and none is blank; otherwise the graph may lend a declaration
dependencies that are not among its own targets.
-/

namespace DesignMetrics.CodeModel

variable {m : CodeModel} {t : TypeDecl} {name : String}

/-! ## The targets of the whole model -/

/-- What the types of a name list, blanks left out. -/
def pooledTargets (m : CodeModel) (name : String) : Finset String :=
  ((m.codebase.types.filter (·.fullName = name)).flatMap (·.targets)).toFinset.filter fun target =>
    Text.isBlank target = false

theorem mem_pooledTargets {target : String} :
    target ∈ m.pooledTargets name ↔ m.Lists name target ∧ Text.isBlank target = false := by
  rw [pooledTargets, Finset.mem_filter, List.mem_toFinset, List.mem_flatMap, Lists]
  simp only [List.mem_filter, decide_eq_true_eq, TypeDecl.mem_targets, and_assoc]

/-- The pairs of a name and a target, as often as there are declarations to list them. -/
def listedPairs (m : CodeModel) : List (String × String) :=
  m.codebase.types.flatMap fun t => t.distinctTargets.names.map (t.fullName, ·)

theorem mem_listedPairs {source target : String} :
    (source, target) ∈ m.listedPairs ↔ target ∈ m.pooledTargets source := by
  rw [listedPairs, List.mem_flatMap, mem_pooledTargets, Lists]
  simp only [List.mem_map, Prod.mk.injEq, TypeDecl.mem_distinctTargets, TypeDecl.mem_namedTargets]
  constructor
  · rintro ⟨t, ht, _, ⟨hlists, hblank⟩, hname, rfl⟩
    exact ⟨⟨t, ht, hname, hlists⟩, hblank⟩
  · rintro ⟨⟨t, ht, hname, hlists⟩, hblank⟩
    exact ⟨t, ht, target, ⟨hlists, hblank⟩, hname, rfl⟩

theorem dependencyPairs_eq (m : CodeModel) :
    m.dependencyPairs = firstOccurrences m.listedPairs :=
  rfl

theorem filter_dependencyPairs (m : CodeModel) (name : String) :
    m.dependencyPairs.toFinset.filter (·.1 = name) =
      (m.pooledTargets name).image (Prod.mk name) := by
  ext ⟨source, target⟩
  rw [Finset.mem_filter, List.mem_toFinset, dependencyPairs_eq, mem_firstOccurrences,
    mem_listedPairs, Finset.mem_image]
  constructor
  · rintro ⟨htarget, rfl⟩
    exact ⟨target, htarget, rfl⟩
  · rintro ⟨_, htarget, heq⟩
    cases heq
    exact ⟨htarget, rfl⟩

theorem totalDependencies_eq_sum (m : CodeModel) :
    m.totalDependencies = ∑ name ∈ m.declaredNames, (m.pooledTargets name).card := by
  have hnodup : m.dependencyPairs.Nodup := nodup_firstOccurrences _
  have hdeclared : ∀ pair ∈ m.dependencyPairs.toFinset, pair.1 ∈ m.declaredNames := by
    intro pair hpair
    rw [List.mem_toFinset, dependencyPairs_eq, mem_firstOccurrences] at hpair
    exact (mem_pooledTargets.1 (mem_listedPairs.1 hpair)).1.declared
  rw [totalDependencies, ← List.toFinset_card_of_nodup hnodup,
    Finset.card_eq_sum_card_fiberwise hdeclared]
  apply Finset.sum_congr rfl
  intro name _
  rw [filter_dependencyPairs, Finset.card_image_of_injective _ (Prod.mk_right_injective name)]

theorem length_listedPairs (m : CodeModel) (g : Digraph) :
    (m.listedPairs.length : Int) = ((m.codebase.types.map (·.metrics g)).map (·.dep)).sum := by
  rw [listedPairs, List.length_flatMap, Nat.cast_list_sum, List.map_map, List.map_map]
  congr 1
  apply List.map_congr_left
  intro t _
  exact congrArg Int.ofNat (List.length_map _)

/-- Declarations of different names list different pairs. -/
theorem nodup_listedPairs (h : (m.codebase.types.map (·.fullName)).Nodup) :
    m.listedPairs.Nodup := by
  rw [listedPairs, List.nodup_flatMap]
  constructor
  · intro t _
    exact t.distinctTargets.nodup_names.map (Prod.mk_right_injective _)
  · refine (List.pairwise_map.1 h).imp fun hne => ?_
    intro pair hpair hpair'
    obtain ⟨_, -, rfl⟩ := List.mem_map.1 hpair
    obtain ⟨_, -, heq⟩ := List.mem_map.1 hpair'
    exact hne (congrArg Prod.fst heq).symm

/-! ## The targets of one declaration -/

/-- The targets that no type declares. -/
def externalTargets (m : CodeModel) (t : TypeDecl) : Finset String :=
  t.namedTargets.filter (· ∉ m.declaredNames)

/-- The dependencies of the name of a declaration that are targets of its own. -/
def ownDependencies (m : CodeModel) (t : TypeDecl) : Finset String :=
  (m.dependencies t.fullName).filter (· ∈ t.namedTargets)

/-- The dependencies of the name of a declaration that have a blank name or that only other
declarations of the name list. -/
def borrowedDependencies (m : CodeModel) (t : TypeDecl) : Finset String :=
  (m.dependencies t.fullName).filter fun target =>
    Text.isBlank target = true ∨ some target ∉ t.dependsOn

/-- A dependency that is not a target is a borrowed one. -/
theorem card_dependencies (m : CodeModel) (t : TypeDecl) :
    (m.dependencies t.fullName).card =
      (m.ownDependencies t).card + (m.borrowedDependencies t).card := by
  have hborrowed : m.borrowedDependencies t =
      (m.dependencies t.fullName).filter (· ∉ t.namedTargets) := by
    apply Finset.filter_congr
    intro target _
    rw [TypeDecl.mem_namedTargets, not_and_or, Bool.not_eq_false, or_comm]
  rw [hborrowed]
  exact (Finset.card_filter_add_card_filter_not _).symm

theorem ownDependencies_eq (ht : t ∈ m.codebase.types) :
    m.ownDependencies t =
      (t.namedTargets.filter (· ∈ m.declaredNames)).filter (¬ · = t.fullName) := by
  ext target
  rw [ownDependencies, dependencies, Finset.mem_filter, Finset.mem_filter, Finset.mem_filter,
    Finset.mem_filter]
  constructor
  · rintro ⟨⟨hdeclared, hne, -⟩, htarget⟩
    exact ⟨⟨htarget, hdeclared⟩, hne⟩
  · rintro ⟨⟨htarget, hdeclared⟩, hne⟩
    exact ⟨⟨hdeclared, hne, t, ht, rfl, (TypeDecl.mem_namedTargets.1 htarget).1⟩, htarget⟩

/-- Every target of a declaration is its own name, another declared name or external. -/
theorem card_namedTargets (ht : t ∈ m.codebase.types) :
    t.namedTargets.card = (m.ownDependencies t).card + (m.externalTargets t).card +
      if t.fullName ∈ t.namedTargets then 1 else 0 := by
  have hname : t.fullName ∈ m.declaredNames := List.mem_toFinset.2 (List.mem_map_of_mem ht)
  -- The external names go first, then the declaration's own name is split off the declared ones.
  have hdeclared := Finset.card_filter_add_card_filter_not (s := t.namedTargets)
    (· ∈ m.declaredNames)
  have hother := Finset.card_filter_add_card_filter_not
    (s := t.namedTargets.filter (· ∈ m.declaredNames)) (· = t.fullName)
  have hself : ((t.namedTargets.filter (· ∈ m.declaredNames)).filter (· = t.fullName)).card =
      if t.fullName ∈ t.namedTargets then 1 else 0 := by
    simp only [Finset.filter_eq', Finset.mem_filter, hname, and_true]
    split <;> rfl
  rw [← ownDependencies_eq ht, hself] at hother
  rw [externalTargets]
  omega

/-- Every type has a name to itself, and none of the names is blank. -/
structure HasProperNames (m : CodeModel) : Prop where
  nodup : (m.codebase.types.map (·.fullName)).Nodup
  not_blank : ∀ t ∈ m.codebase.types, Text.isBlank t.fullName = false

namespace HasProperNames

theorem borrowedDependencies (h : m.HasProperNames) (ht : t ∈ m.codebase.types) :
    m.borrowedDependencies t = ∅ := by
  rw [Finset.eq_empty_iff_forall_notMem]
  intro target htarget
  obtain ⟨hdep, hwhy⟩ := Finset.mem_filter.1 htarget
  obtain ⟨hdecl, -, t', ht', hname, hlists⟩ := Finset.mem_filter.1 hdep
  obtain ⟨u, hu, rfl⟩ := List.mem_map.1 (List.mem_toFinset.1 hdecl)
  -- Whoever lists it has the name of the declaration, so that it is the declaration.
  have hsame : t' = t := List.inj_on_of_nodup_map h.nodup ht' ht hname
  cases hwhy with
  | inl hblank =>
    rw [h.not_blank u hu] at hblank
    exact Bool.false_ne_true hblank
  | inr hnot => exact hnot (hsame ▸ hlists)

theorem mem_self_iff (h : m.HasProperNames) (ht : t ∈ m.codebase.types) :
    t.fullName ∈ t.namedTargets ↔ some t.fullName ∈ t.dependsOn := by
  rw [TypeDecl.mem_namedTargets, and_iff_left (h.not_blank t ht)]

/-- With proper names the targets of a declaration are its dependencies, the external names and, if
it lists itself, its own name. -/
theorem card_targets (h : m.HasProperNames) (ht : t ∈ m.codebase.types) :
    t.namedTargets.card = (m.dependencies t.fullName).card + (m.externalTargets t).card +
      if some t.fullName ∈ t.dependsOn then 1 else 0 := by
  rw [card_namedTargets ht, card_dependencies, h.borrowedDependencies ht, Finset.card_empty,
    Nat.add_zero, if_congr (h.mem_self_iff ht) rfl rfl]

end HasProperNames

/-- The dependencies of a record are its internal ones, the external names and its own name. -/
structure SplitsTargets (m : CodeModel) (t : TypeDecl) (figures : TypeMetrics) : Prop where
  name : figures.typeFullName = t.fullName
  dep : figures.dep = figures.iDep + (m.externalTargets t).card +
    if some t.fullName ∈ t.dependsOn then 1 else 0

/-- How the dependencies of the whole model and those of its types account for the targets. -/
structure AccountsForTargets (m : CodeModel) (d : DependencyMetrics) (figures : List TypeMetrics) :
    Prop where
  total : d.totalDependencies = (∑ name ∈ m.declaredNames, (m.pooledTargets name).card : Nat)
  total_le : d.totalDependencies ≤ (figures.map (·.dep)).sum
  total_eq : (m.codebase.types.map (·.fullName)).Nodup →
    d.totalDependencies = (figures.map (·.dep)).sum
  split : m.HasProperNames → List.Forall₂ m.SplitsTargets m.codebase.types figures

theorem splitsTargets (h : m.HasProperNames) (ht : t ∈ m.codebase.types) :
    m.SplitsTargets t (t.metrics m.typeGraph) := by
  have hcounts := counts_typeGraph ht
  refine ⟨hcounts.figures_name, ?_⟩
  rw [hcounts.dep, hcounts.iDep, h.card_targets ht]
  push_cast
  rfl

/-- Every target is accounted for. The total number of dependencies is the number of targets of
every declared name, at most the sum over the declarations, and the sum itself when no name is
declared twice. With proper names the dependencies of a type are the internal ones, those on names
that nobody declares and the one on itself. -/
theorem dependencies_account_for_targets (m : CodeModel) :
    ∃ figures d, m.typeMetrics.outcome = .ok figures ∧ m.dependencyMetrics.outcome = .ok d ∧
      m.AccountsForTargets d figures := by
  refine ⟨_, _, m.outcome_typeMetrics, m.outcome_dependencyMetrics, ?_⟩
  refine
    { total := congrArg Int.ofNat m.totalDependencies_eq_sum
      total_le := ?_
      total_eq := fun hnodup => ?_
      split := fun hproper => ?_ }
  · rw [← length_listedPairs]
    exact Int.ofNat_le.2 (length_firstOccurrences_le _)
  · rw [← length_listedPairs]
    exact congrArg Int.ofNat (congrArg List.length (firstOccurrences_of_nodup
      (nodup_listedPairs hnodup)))
  · rw [List.forall₂_map_right_iff, List.forall₂_same]
    exact fun t ht => splitsTargets hproper ht

/-- A type that lists another one, a name that nobody declares, nothing, a blank and itself. -/
def wired : CodeModel where
  codebase := ⟨[⟨"M", [⟨"N", [
    { fullName := "N.A", dependsOn := [some "N.B", some "log", none, some " ", some "N.A"] },
    { fullName := "N.B" }]⟩]⟩]⟩

theorem dependencies_account_for_wired :
    wired.HasProperNames ∧ ∃ figures, wired.typeMetrics.outcome = .ok figures ∧
      List.Forall₂ wired.SplitsTargets wired.codebase.types figures := by
  have hproper : wired.HasProperNames := ⟨by decide, by decide⟩
  obtain ⟨figures, _, hfigures, -, haccount⟩ := wired.dependencies_account_for_targets
  exact ⟨hproper, figures, hfigures, haccount.split hproper⟩

/-! ## Internal dependencies against all dependencies -/

/-- When the internal dependencies of a record are at most all of its dependencies. -/
structure BoundsInternal (m : CodeModel) (t : TypeDecl) (internal all : Int) : Prop where
  le_iff : internal ≤ all ↔ (m.borrowedDependencies t).card ≤
    (m.externalTargets t).card + if t.fullName ∈ t.namedTargets then 1 else 0
  le_of_properNames : m.HasProperNames → internal ≤ all

theorem boundsInternal (ht : t ∈ m.codebase.types) :
    m.BoundsInternal t (m.dependencies t.fullName).card t.namedTargets.card := by
  have hle : ((m.dependencies t.fullName).card : Int) ≤ t.namedTargets.card ↔
      (m.borrowedDependencies t).card ≤
        (m.externalTargets t).card + if t.fullName ∈ t.namedTargets then 1 else 0 := by
    rw [Int.ofNat_le, card_dependencies, card_namedTargets ht]
    omega
  refine ⟨hle, fun hproper => hle.2 ?_⟩
  rw [hproper.borrowedDependencies ht, Finset.card_empty]
  exact Nat.zero_le _

/-- The internal dependencies of a record outnumber all of its dependencies exactly when it borrows
more of them than it has external targets and itself for a target. With proper names it borrows
none. -/
theorem internal_le_iff_borrowed (m : CodeModel) :
    ∃ figures, m.typeMetrics.outcome = .ok figures ∧
      List.Forall₂ (fun t r => m.BoundsInternal t r.iDep r.dep) m.codebase.types figures ∧
      List.Forall₂ (fun t c => m.BoundsInternal t c.internalDependencies c.dependencies)
        m.codebase.types m.typeCoupling := by
  refine ⟨_, m.outcome_typeMetrics, ?_, ?_⟩
  · rw [List.forall₂_map_right_iff, List.forall₂_same]
    intro t ht
    rw [(counts_typeGraph ht).dep, (counts_typeGraph ht).iDep]
    exact boundsInternal ht
  · rw [typeCoupling, List.forall₂_map_right_iff, List.forall₂_same]
    intro t ht
    rw [(counts_typeGraph ht).dependencies, (counts_typeGraph ht).internalDependencies]
    exact boundsInternal ht

/-- A type that depends on one with a blank name. -/
def nameless : CodeModel where
  codebase := ⟨[⟨"M", [⟨"N", [{ fullName := "N.A", dependsOn := [some " "] },
    { fullName := " " }]⟩]⟩]⟩

/-- A name that is declared twice, the first time without dependencies. -/
def redeclared : CodeModel where
  codebase := ⟨[⟨"M", [⟨"N", [{ fullName := "N.A" },
    { fullName := "N.A", dependsOn := [some "N.B"] }, { fullName := "N.B" }]⟩]⟩]⟩

theorem internal_exceeds_all :
    (nameless.codebase.types.map (·.fullName)).Nodup ∧
    (∃ figures, nameless.typeMetrics.outcome = .ok figures ∧
      figures.map (fun r => (r.typeFullName, r.dep, r.iDep)) = [("N.A", 0, 1), (" ", 0, 0)]) ∧
    nameless.typeCoupling.map (fun c => (c.dependencies, c.internalDependencies)) =
      [(0, 1), (0, 0)] ∧
    (∃ figures, redeclared.typeMetrics.outcome = .ok figures ∧
      figures.map (fun r => (r.typeFullName, r.dep, r.iDep)) =
        [("N.A", 0, 1), ("N.A", 1, 1), ("N.B", 0, 0)]) ∧
    redeclared.typeCoupling.map (fun c => (c.dependencies, c.internalDependencies)) =
      [(0, 1), (1, 1), (0, 0)] := by
  refine ⟨by decide, ⟨_, nameless.outcome_typeMetrics, ?_⟩, ?_,
    ⟨_, redeclared.outcome_typeMetrics, ?_⟩, ?_⟩
  all_goals rfl

end DesignMetrics.CodeModel
