import Mathlib.Data.Finset.Card
import DesignMetrics.Metrics.Request
import DesignMetrics.Proofs.Digraph.Degrees
import DesignMetrics.Proofs.Metrics.Sections
import DesignMetrics.Proofs.Metrics.TypeGraph

/-!
# What the coupling of a type means

The coupling of a type is reported three times: among the figures of all types, among the figures of
one type that is looked up by itself, and in the section on coupling. All three count the same sets.
Types of one name depend together, so that their targets are pooled, while the dependencies of a
declaration are counted for that declaration alone.
-/

namespace DesignMetrics

/-- The dependencies of a declaration that name something. -/
def TypeDecl.namedTargets (t : TypeDecl) : Finset String :=
  (t.targets.filter fun name => !Text.isBlank name).toFinset

theorem TypeDecl.mem_namedTargets {t : TypeDecl} {name : String} :
    name ∈ t.namedTargets ↔ some name ∈ t.dependsOn ∧ Text.isBlank name = false := by
  rw [namedTargets, List.mem_toFinset, List.mem_filter, mem_targets, Bool.not_eq_true']

theorem TypeDecl.mem_distinctTargets {t : TypeDecl} {name : String} :
    name ∈ t.distinctTargets.names ↔ name ∈ t.namedTargets := by
  rw [namedTargets, List.mem_toFinset]
  exact NameSet.mem_ofList

theorem TypeDecl.length_distinctTargets (t : TypeDecl) :
    t.distinctTargets.names.length = t.namedTargets.card := by
  rw [← List.toFinset_card_of_nodup t.distinctTargets.nodup_names]
  congr 1
  ext name
  rw [List.mem_toFinset, mem_distinctTargets]

namespace CodeModel

/-- Some type of one name lists another name. -/
def Lists (m : CodeModel) (source target : String) : Prop :=
  ∃ t ∈ m.codebase.types, t.fullName = source ∧ some target ∈ t.dependsOn

instance (m : CodeModel) (source target : String) : Decidable (m.Lists source target) :=
  inferInstanceAs (Decidable (∃ t ∈ m.codebase.types, _))

def declaredNames (m : CodeModel) : Finset String := (m.codebase.types.map (·.fullName)).toFinset

/-- The other declared names that the types of a name list. -/
def dependencies (m : CodeModel) (name : String) : Finset String :=
  m.declaredNames.filter fun target => target ≠ name ∧ m.Lists name target

/-- The other declared names whose types list a name. -/
def dependents (m : CodeModel) (name : String) : Finset String :=
  m.declaredNames.filter fun source => source ≠ name ∧ m.Lists source name

variable {m : CodeModel} {name : String}

theorem mem_declaredNames : name ∈ m.declaredNames ↔ name ∈ m.codebase.typeNames := by
  rw [declaredNames, List.mem_toFinset, Codebase.typeNames, mem_firstOccurrences]

theorem Lists.declared {target : String} (h : m.Lists name target) : name ∈ m.declaredNames := by
  obtain ⟨t, ht, rfl, -⟩ := h
  exact List.mem_toFinset.2 (List.mem_map_of_mem ht)

theorem draws_typeGraph (m : CodeModel) : m.typeGraph.Draws m.Lists := by
  intro source target
  rw [nodes_typeGraph]
  exact mem_arcs_typeGraph

theorem mem_nodes_typeGraph : name ∈ m.typeGraph.nodes ↔ name ∈ m.declaredNames := by
  rw [nodes_typeGraph, mem_declaredNames]

theorem outDegree_typeGraph (hname : name ∈ m.declaredNames) :
    m.typeGraph.outDegree name = (m.dependencies name).card :=
  m.draws_typeGraph.outDegree_eq_card (fun _ => mem_nodes_typeGraph) hname

theorem inDegree_typeGraph (hname : name ∈ m.declaredNames) :
    m.typeGraph.inDegree name = (m.dependents name).card :=
  m.draws_typeGraph.inDegree_eq_card (fun _ => mem_nodes_typeGraph) hname

/-- The figures and the coupling of a type count the sets they stand for. -/
structure Counts (m : CodeModel) (t : TypeDecl) (figures : TypeMetrics) (coupling : TypeCoupling) :
    Prop where
  figures_name : figures.typeFullName = t.fullName
  coupling_name : coupling.typeFullName = t.fullName
  dep : figures.dep = t.namedTargets.card
  dependencies : coupling.dependencies = t.namedTargets.card
  iDep : figures.iDep = (m.dependencies t.fullName).card
  internalDependencies : coupling.internalDependencies = (m.dependencies t.fullName).card
  figures_fanOut : figures.fanOut = (m.dependencies t.fullName).card
  coupling_fanOut : coupling.fanOut = (m.dependencies t.fullName).card
  figures_fanIn : figures.fanIn = (m.dependents t.fullName).card
  coupling_fanIn : coupling.fanIn = (m.dependents t.fullName).card

theorem counts_typeGraph {t : TypeDecl} (ht : t ∈ m.codebase.types) :
    m.Counts t (t.metrics m.typeGraph) (t.coupling m.typeGraph) := by
  have hname : t.fullName ∈ m.declaredNames := List.mem_toFinset.2 (List.mem_map_of_mem ht)
  have hdep := congrArg Int.ofNat t.length_distinctTargets
  have hout := congrArg Int.ofNat (outDegree_typeGraph hname)
  have hin := congrArg Int.ofNat (inDegree_typeGraph hname)
  exact ⟨rfl, rfl, hdep, hdep, hout, hout, hout, hout, hin, hin⟩

theorem outcome_ofModel {α : Type} (figures : CodeModel → Recorded α) (m : CodeModel) :
    (Request.ofModel figures (some m)).outcome = (figures m).outcome :=
  rfl

theorem outcome_ofType (m : CodeModel) (t : TypeDecl) :
    (Request.ofType (some t) (some m)).outcome = .ok (t.metrics m.typeGraph) := by
  show (m.reportedTypeGraph >>= fun g => pure (t.metrics g) : Recorded TypeMetrics).outcome = _
  rw [Recorded.outcome_bind, reportedTypeGraph]
  split <;> rfl

/-- Coupling has one meaning. The figures of all types and their coupling are there, one of each for
every type in its place; the figures of a type are the ones that are found when it is looked up by
itself, and all of them count the same sets. -/
theorem typeCoupling_one_meaning (m : CodeModel) :
    ∃ figures couplings,
      (Request.ofModel typeMetrics (some m)).outcome = .ok figures ∧
      (Request.ofModel (fun m => pure m.typeCoupling) (some m)).outcome = .ok couplings ∧
      figures.length = m.codebase.types.length ∧ couplings.length = m.codebase.types.length ∧
      ∀ i : Fin m.codebase.types.length, ∃ r c,
        figures[i]? = some r ∧ couplings[i]? = some c ∧
        (Request.ofType (some m.codebase.types[i]) (some m)).outcome = .ok r ∧
        m.Counts m.codebase.types[i] r c := by
  refine ⟨_, m.typeCoupling, (outcome_ofModel _ m).trans m.outcome_typeMetrics, outcome_ofModel _ m,
    List.length_map _, List.length_map _, fun i => ?_⟩
  refine ⟨m.codebase.types[i].metrics m.typeGraph, m.codebase.types[i].coupling m.typeGraph,
    ?_, ?_, m.outcome_ofType _, counts_typeGraph (List.getElem_mem i.isLt)⟩
  · simp
  · simp [typeCoupling]

end CodeModel

end DesignMetrics
