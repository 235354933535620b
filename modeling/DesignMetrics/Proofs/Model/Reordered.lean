import Mathlib.Data.List.Perm.Basic
import DesignMetrics.Proofs.Model.Groups

/-!
# Code bases in another order

The modules of a code base may be listed in another order, and so may the namespaces of each module
and the types of each namespace. What is declared stays the same: the same names of namespaces, and
under each of them the same types, all as often as before.
-/

namespace DesignMetrics

/-- The entries of two lists correspond to each other in some order. -/
def Corresponding {α : Type} (R : α → α → Prop) (l l' : List α) : Prop :=
  ∃ between, l.Perm between ∧ List.Forall₂ R between l'

theorem Corresponding.flatMap_perm {α β : Type} {R : α → α → Prop} {l l' : List α}
    {f : α → List β} (h : Corresponding R l l') (hf : ∀ a a', R a a' → (f a).Perm (f a')) :
    (l.flatMap f).Perm (l'.flatMap f) := by
  obtain ⟨between, hperm, hentries⟩ := h
  refine (hperm.flatMap_right f).trans ?_
  clear hperm
  induction hentries with
  | nil => exact .nil
  | cons hentry _ ih => exact (hf _ _ hentry).append ih

/-- The same namespace with its types in another order. -/
def Namespace.Reordered (n n' : Namespace) : Prop := n.name = n'.name ∧ n.types.Perm n'.types

/-- The same module with its namespaces, and their types, in another order. -/
def Module.Reordered (m m' : Module) : Prop :=
  m.name = m'.name ∧ Corresponding Namespace.Reordered m.namespaces m'.namespaces

namespace Codebase

/-- The same code base with its modules, their namespaces and the types of these in another
order. -/
def Reordered (c c' : Codebase) : Prop := Corresponding Module.Reordered c.modules c'.modules

variable {c c' : Codebase}

theorem Reordered.flatMap_namespaces {β : Type} {f : Namespace → List β} (h : c.Reordered c')
    (hf : ∀ n n', Namespace.Reordered n n' → (f n).Perm (f n')) :
    (c.namespaces.flatMap f).Perm (c'.namespaces.flatMap f) := by
  rw [namespaces, namespaces, List.flatMap_assoc, List.flatMap_assoc]
  exact h.flatMap_perm fun _ _ hmodule => hmodule.2.flatMap_perm hf

theorem Reordered.namespaceNames (h : c.Reordered c') :
    c.namespaceNames.Perm c'.namespaceNames := by
  have hnames : (c.namespaces.map (·.name)).Perm (c'.namespaces.map (·.name)) := by
    rw [List.map_eq_flatMap, List.map_eq_flatMap]
    exact h.flatMap_namespaces fun _ _ hns => by rw [hns.1]
  exact firstOccurrences_perm fun _ => hnames.mem_iff

theorem Reordered.members (h : c.Reordered c') : c.members.Perm c'.members :=
  h.flatMap_namespaces fun n n' hns => by
    rw [hns.1]
    exact hns.2.map _

theorem Reordered.types (h : c.Reordered c') : c.types.Perm c'.types := by
  rw [types_eq, types_eq]
  exact h.members.map _

theorem Reordered.typeNames (h : c.Reordered c') : c.typeNames.Perm c'.typeNames :=
  firstOccurrences_perm fun _ => (h.types.map _).mem_iff

theorem Reordered.methods (h : c.Reordered c') : c.methods.Perm c'.methods :=
  h.types.flatMap_right _

theorem Reordered.typesUnder (h : c.Reordered c') (name : String) :
    (typesUnder name c.members).Perm (typesUnder name c'.members) :=
  (h.members.filter _).map _

end Codebase

end DesignMetrics
