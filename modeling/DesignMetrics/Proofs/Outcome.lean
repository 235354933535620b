import Mathlib.Data.List.Perm.Basic

/-!
# Computations that may fail

A computation that has a value has got it from values of its parts. When a list is gone through
entry by entry, the values stand in the order of the entries, so that going through it in another
order gives the same values in another order.
-/

namespace DesignMetrics

variable {ε α β : Type}

theorem bind_eq_ok {x : Except ε α} {f : α → Except ε β} {b : β} :
    (x >>= f) = .ok b ↔ ∃ a, x = .ok a ∧ f a = .ok b := by
  cases x with
  | error fault => simp [bind, Except.bind]
  | ok a => simp [bind, Except.bind]

theorem map_eq_ok {x : Except ε α} {f : α → β} {b : β} :
    x.map f = .ok b ↔ ∃ a, x = .ok a ∧ f a = b := by
  cases x with
  | error fault => simp [Except.map]
  | ok a => simp [Except.map]

theorem exists_eq_ok {x : Except ε α} (h : x.isOk) : ∃ a, x = .ok a := by
  cases x with
  | error fault => cases h
  | ok a => exact ⟨a, rfl⟩

theorem forall₂_of_mapM {f : α → Except ε β} {l : List α} {values : List β}
    (h : l.mapM f = .ok values) : List.Forall₂ (fun a b => f a = .ok b) l values := by
  induction l generalizing values with
  | nil =>
    cases h
    exact .nil
  | cons a rest ih =>
    rw [List.mapM_cons] at h
    obtain ⟨b, hb, h⟩ := bind_eq_ok.1 h
    obtain ⟨others, hothers, h⟩ := bind_eq_ok.1 h
    cases h
    exact .cons hb (ih hothers)

theorem exists_mapM {f : α → Except ε β} {P : β → Prop} {l : List α}
    (h : ∀ a ∈ l, ∃ b, f a = .ok b ∧ P b) :
    ∃ values, l.mapM f = .ok values ∧ ∀ b ∈ values, P b := by
  induction l with
  | nil => exact ⟨[], rfl, by simp⟩
  | cons a rest ih =>
    obtain ⟨b, hb, hfirst⟩ := h a List.mem_cons_self
    obtain ⟨values, hvalues, hrest⟩ := ih fun c hc => h c (List.mem_cons_of_mem a hc)
    refine ⟨b :: values, ?_, List.forall_mem_cons.2 ⟨hfirst, hrest⟩⟩
    rw [List.mapM_cons, hb, hvalues]
    rfl

theorem mapM_congr_left {f g : α → Except ε β} {l : List α} (h : ∀ a ∈ l, f a = g a) :
    l.mapM f = l.mapM g := by
  induction l with
  | nil => rfl
  | cons a rest ih =>
    rw [List.mapM_cons, List.mapM_cons, h a List.mem_cons_self,
      ih fun b hb => h b (List.mem_cons_of_mem a hb)]

theorem perm_of_mapM {f : α → Except ε β} {l l' : List α} {values values' : List β}
    (hperm : l.Perm l') (h : l.mapM f = .ok values) (h' : l'.mapM f = .ok values') :
    values.Perm values' := by
  obtain ⟨others, hothers, hvalues⟩ := List.perm_comp_forall₂ hperm (forall₂_of_mapM h')
  have hunique : Relator.RightUnique fun a b => f a = .ok b := fun a b c hb hc =>
    Except.ok.inj (hb.symm.trans hc)
  exact hunique.forall₂ (forall₂_of_mapM h) hothers ▸ hvalues

end DesignMetrics
