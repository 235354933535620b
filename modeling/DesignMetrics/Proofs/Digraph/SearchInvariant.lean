import DesignMetrics.Digraph.Search
import DesignMetrics.Proofs.Digraph.Reachability
import Mathlib.Data.List.Chain
import Mathlib.Data.List.TakeWhile

/-!
# The invariant of the component search

An open node reaches every node numbered after it that is in no component yet, and a waiting node
leads back to its low number. So when the low number of a closing node is its own one, the waiting
nodes above it are together with it, and no edge leaves them but into components.

`Valid` says what holds of the numbers, the path and the waiting nodes between two steps, and
`Scanned` what the open nodes have looked at.
-/

namespace DesignMetrics.Search

open Relation

variable {α : Type} [DecidableEq α] {graph : List (α × List α)} {s : Search α}

/-- An edge of a graph that is given by lists of successors. -/
def Edge (graph : List (α × List α)) (a b : α) : Prop :=
  ∃ successors, graph.lookup a = some successors ∧ b ∈ successors

def IsNode (graph : List (α × List α)) (a : α) : Prop :=
  ∃ successors, graph.lookup a = some successors

def IsClosed (graph : List (α × List α)) : Prop := ∀ a b, Edge graph a b → IsNode graph b

def openNodes (s : Search α) : List α := s.path.map (·.node)

def num (s : Search α) (a : α) : Nat := (s.number? a).getD 0

def low (s : Search α) (a : α) : Nat := (s.low? a).getD 0

/-- Numbered, and in no component yet. -/
def IsActive (s : Search α) (a : α) : Prop := a ∈ s.openNodes ∨ a ∈ s.waiting

theorem number?_eq_num {a : α} (h : s.isNumbered a) : s.number? a = some (s.num a) := by
  obtain ⟨number, hnumber⟩ := Option.isSome_iff_exists.1 h
  simp [num, hnumber]

omit [DecidableEq α] in
theorem isFound_iff {a : α} : s.IsFound a ↔ a ∈ s.found.flatten := by
  simp [IsFound, List.mem_flatten]

/-- The active nodes are the numbered nodes in no component, and their numbers tell them apart. -/
structure Numbering (graph : List (α × List α)) (s : Search α) : Prop where
  isNumbered_iff : ∀ a, s.isNumbered a ↔ s.IsActive a ∨ s.IsFound a
  num_le : ∀ a, s.num a ≤ s.numbers.length
  num_injective : ∀ a b, s.IsActive a → s.IsActive b → s.num a = s.num b → a = b
  isNode_source : ∀ a ∈ s.sources, IsNode graph a
  isNode_numbered : ∀ a, s.isNumbered a → IsNode graph a
  covered : ∀ a, IsNode graph a → a ∈ s.sources ∨ s.isNumbered a
  active_not_found : ∀ a, s.IsActive a → ¬ s.IsFound a

/-- The open nodes are a path, and each reaches all active nodes numbered after it. -/
structure Opening (graph : List (α × List α)) (s : Search α) : Prop where
  open_not_waiting : ∀ a ∈ s.openNodes, a ∉ s.waiting
  open_descending : s.openNodes.Pairwise fun upper lower => s.num lower < s.num upper
  open_chain : s.openNodes.IsChain fun upper lower => Edge graph lower upper
  open_reach : ∀ q ∈ s.openNodes, ∀ a, s.IsActive a → s.num q ≤ s.num a →
    ReflTransGen (Edge graph) q a

/-- A waiting node leads back to its low number, and none of its edges leads further back. -/
structure Waiting (graph : List (α × List α)) (s : Search α) : Prop where
  waiting_nodup : s.waiting.Nodup
  /-- What was closed after a node numbered above an open one is numbered above it, too. -/
  waiting_nested : s.waiting.Pairwise fun later earlier =>
    ∀ q ∈ s.openNodes, s.num q < s.num earlier → s.num q < s.num later
  low_lt : ∀ w ∈ s.waiting, (s.low? w).isSome ∧ s.low w < s.num w
  low_reach : ∀ w ∈ s.waiting, ∃ a, s.IsActive a ∧ s.num a = s.low w ∧
    ReflTransGen (Edge graph) w a
  low_le : ∀ w ∈ s.waiting, ∀ a, Edge graph w a → s.IsFound a ∨ s.IsActive a ∧
    (s.num a ≤ s.num w → s.low w ≤ s.num a) ∧
    (s.num w < s.num a → a ∈ s.waiting ∧ s.low w ≤ s.low a)
  /-- The node from which a waiting node was opened. -/
  parent : ∀ w ∈ s.waiting, ∃ p, s.IsActive p ∧ Edge graph p w ∧ s.num p < s.num w ∧
    ∀ q ∈ s.openNodes, s.num q < s.num w → s.num q ≤ s.num p

/-- What holds of a search between two steps, the successors left to look at apart. -/
structure Valid (graph : List (α × List α)) (s : Search α) : Prop extends
    Numbering graph s, Opening graph s, Waiting graph s where
  completed : Completed (Edge graph) s.found

/-- What the open nodes have left to look at are successors, and all their other successors are
numbered. -/
def Scanned (graph : List (α × List α)) (s : Search α) : Prop :=
  ∀ top ∈ s.path, ∀ a, (a ∈ top.left → Edge graph top.node a) ∧
    (Edge graph top.node a → a ∈ top.left ∨ s.isNumbered a)

theorem valid_start (graph : List (α × List α)) :
    Valid graph { sources := graph.map (·.1) } where
  isNumbered_iff := by simp [isNumbered, number?, IsActive, openNodes, IsFound]
  num_le := by simp [num, number?]
  num_injective := by simp [IsActive, openNodes]
  isNode_source a ha := by
    rw [IsNode, ← Option.isSome_iff_exists, List.lookup_isSome_iff]
    obtain ⟨entry, hentry, rfl⟩ := List.mem_map.1 ha
    exact ⟨entry, hentry, by simp⟩
  isNode_numbered := by simp [isNumbered, number?]
  covered a ha := by
    left
    rw [IsNode, ← Option.isSome_iff_exists, List.lookup_isSome_iff] at ha
    obtain ⟨entry, hentry, heq⟩ := ha
    exact List.mem_map.2 ⟨entry, hentry, (beq_iff_eq.1 heq).symm⟩
  active_not_found := by simp [IsActive, openNodes]
  open_not_waiting := by simp
  open_descending := by simp [openNodes]
  open_chain := by simp [openNodes]
  waiting_nodup := by simp
  waiting_nested := by simp
  open_reach := by simp [openNodes]
  low_lt := by simp
  low_reach := by simp
  low_le := by simp
  parent := by simp
  completed := trivial

namespace Valid

/-- Every waiting node is numbered after some open one. -/
theorem exists_open_lt (h : Valid graph s) {w : α} (hw : w ∈ s.waiting) :
    ∃ q ∈ s.openNodes, s.num q < s.num w := by
  induction hn : s.num w using Nat.strong_induction_on generalizing w with
  | _ n ih =>
    obtain ⟨p, hp, -, hlt, -⟩ := h.parent w hw
    rcases hp with hp | hp
    · exact ⟨p, hp, by omega⟩
    · obtain ⟨q, hq, hqp⟩ := ih (s.num p) (by omega) hp rfl
      exact ⟨q, hq, by omega⟩

theorem isNumbered_of_active (h : Valid graph s) {a : α} (ha : s.IsActive a) : s.isNumbered a :=
  (h.isNumbered_iff a).2 (Or.inl ha)

theorem isActive_of_not_isFound (h : Valid graph s) {a : α} (ha : s.isNumbered a)
    (hfound : ¬ s.IsFound a) : s.IsActive a :=
  ((h.isNumbered_iff a).1 ha).resolve_right hfound

end Valid

/-! ## What a closing node leads back to -/

/-- What an edge leads back to, if all is there. -/
def back (s : Search α) (own : Nat) (a : α) : Nat := if own < s.num a then s.low a else s.num a

theorem back?_eq_back {own : Nat} {a : α} (ha : s.isNumbered a)
    (hlow : own < s.num a → (s.low? a).isSome) : s.back? own a = some (s.back own a) := by
  simp only [back?, number?_eq_num ha, Option.bind_eq_bind, Option.bind_some, back]
  split
  · rename_i hlt
    obtain ⟨value, hvalue⟩ := Option.isSome_iff_exists.1 (hlow hlt)
    simp [low, hvalue]
  · rfl

theorem lowest?_spec (own start : Nat) (successors : List α)
    (h : ∀ b ∈ successors, ¬ s.IsFound b →
      s.isNumbered b ∧ (own < s.num b → (s.low? b).isSome)) :
    ∃ low, s.lowest? own start successors = some low ∧ low ≤ start ∧
      (∀ b ∈ successors, ¬ s.IsFound b → low ≤ s.back own b) ∧
      (low = start ∨ ∃ b ∈ successors, ¬ s.IsFound b ∧ low = s.back own b) := by
  induction successors generalizing start with
  | nil => exact ⟨start, rfl, le_rfl, by simp, Or.inl rfl⟩
  | cons first rest ih =>
    have hrest := fun b hb => h b (List.mem_cons_of_mem first hb)
    by_cases hfound : s.IsFound first
    · obtain ⟨low, hlow, hstart, hle, heq⟩ := ih start hrest
      refine ⟨low, by simp [lowest?, hfound, hlow], hstart, fun b hb hnot => ?_, ?_⟩
      · rcases List.mem_cons.1 hb with rfl | hb
        · exact absurd hfound hnot
        · exact hle b hb hnot
      · exact heq.imp_right fun ⟨b, hb, hback⟩ => ⟨b, List.mem_cons_of_mem first hb, hback⟩
    · obtain ⟨hnumbered, hlowSome⟩ := h first List.mem_cons_self hfound
      obtain ⟨low, hlow, hstart, hle, heq⟩ := ih (min start (s.back own first)) hrest
      refine ⟨low, ?_, by omega, fun b hb hnot => ?_, ?_⟩
      · simp [lowest?, hfound, back?_eq_back hnumbered hlowSome, hlow]
      · rcases List.mem_cons.1 hb with rfl | hb
        · omega
        · exact hle b hb hnot
      · rcases heq with heq | ⟨b, hb, hback⟩
        · rcases Nat.le_total start (s.back own first) with hmin | hmin
          · exact Or.inl (by omega)
          · exact Or.inr ⟨first, List.mem_cons_self, hfound, by omega⟩
        · exact Or.inr ⟨b, List.mem_cons_of_mem first hb, hback⟩

theorem splitAbove?_eq {own : Nat} {l : List α} (h : ∀ b ∈ l, s.isNumbered b) :
    s.splitAbove? own l = some (l.takeWhile (own < s.num ·), l.dropWhile (own < s.num ·)) := by
  induction l with
  | nil => rfl
  | cons first rest ih =>
    have hfirst := number?_eq_num (h first List.mem_cons_self)
    have hrest := ih fun b hb => h b (List.mem_cons_of_mem first hb)
    by_cases hlt : own < s.num first <;> simp [splitAbove?, hfirst, hrest, hlt]

theorem takeWhile_eq_filter {β : Type} {p : β → Bool} {l : List β}
    (h : l.Pairwise fun a b => p b → p a) : l.takeWhile p = l.filter p := by
  induction l with
  | nil => rfl
  | cons first rest ih =>
    rw [List.pairwise_cons] at h
    by_cases hfirst : p first
    · simp [hfirst, ih h.2]
    · have hnone : rest.filter p = [] :=
        List.filter_eq_nil_iff.2 fun b hb hpb => hfirst (h.1 b hb hpb)
      simp [hfirst, hnone]

theorem dropWhile_eq_filter {β : Type} {p : β → Bool} {l : List β}
    (h : l.Pairwise fun a b => p b → p a) : l.dropWhile p = l.filter (!p ·) := by
  induction l with
  | nil => rfl
  | cons first rest ih =>
    rw [List.pairwise_cons] at h
    by_cases hfirst : p first
    · simp [hfirst, ih h.2]
    · have hall : rest.filter (!p ·) = rest :=
        List.filter_eq_self.2 fun b hb => by simpa using fun hpb => hfirst (h.1 b hb hpb)
      simp [hfirst, hall]

/-- The waiting nodes numbered after an open node are those closed last. -/
theorem Valid.splitAbove?_waiting (h : Valid graph s) {v : α} (hv : v ∈ s.openNodes) :
    s.splitAbove? (s.num v) s.waiting =
      some (s.waiting.filter (s.num v < s.num ·), s.waiting.filter (s.num · ≤ s.num v)) := by
  have hnested : s.waiting.Pairwise fun later earlier =>
      decide (s.num v < s.num earlier) = true → decide (s.num v < s.num later) = true :=
    h.waiting_nested.imp fun hab hlt => by simpa using hab v hv (by simpa using hlt)
  rw [splitAbove?_eq fun b hb => h.isNumbered_of_active (Or.inr hb), takeWhile_eq_filter hnested,
    dropWhile_eq_filter hnested]
  simp only [← decide_not, Nat.not_lt]

/-! ## Closing the top of the path -/

/-- The top of the path and the waiting nodes numbered after it. -/
def InRing (s : Search α) (v a : α) : Prop := a = v ∨ a ∈ s.waiting ∧ s.num v < s.num a

namespace Valid

variable {v : α} {below : List α}

theorem num_lt_top (h : Valid graph s) (hopen : s.openNodes = v :: below) {q : α}
    (hq : q ∈ below) : s.num q < s.num v := by
  have hdescending := h.open_descending
  rw [hopen] at hdescending
  exact (List.pairwise_cons.1 hdescending).1 q hq

theorem inRing_iff (h : Valid graph s) (hopen : s.openNodes = v :: below) {a : α} :
    s.InRing v a ↔ s.IsActive a ∧ s.num v ≤ s.num a := by
  have hv : s.IsActive v := Or.inl (by simp [hopen])
  constructor
  · rintro (rfl | ⟨ha, hlt⟩)
    · exact ⟨hv, le_rfl⟩
    · exact ⟨Or.inr ha, hlt.le⟩
  · rintro ⟨ha, hle⟩
    by_cases hav : a = v
    · exact Or.inl hav
    have hlt : s.num v < s.num a := by
      refine lt_of_le_of_ne hle fun heq => hav (h.num_injective a v ha hv heq.symm)
    rcases ha with ha | ha
    · rw [hopen, List.mem_cons] at ha
      have := h.num_lt_top hopen (ha.resolve_left hav)
      omega
    · exact Or.inr ⟨ha, hlt⟩

/-- An active node numbered after the top of the path waits. -/
theorem waiting_of_num_lt (h : Valid graph s) (hopen : s.openNodes = v :: below) {a : α}
    (ha : s.IsActive a) (hlt : s.num v < s.num a) : a ∈ s.waiting := by
  rcases (h.inRing_iff hopen).2 ⟨ha, hlt.le⟩ with rfl | ⟨hwaiting, -⟩
  · omega
  · exact hwaiting

/-- What an edge from the top leads back to is the number of an active node. -/
theorem exists_active_back (h : Valid graph s) (hopen : s.openNodes = v :: below) {b : α}
    (hedge : Edge graph v b) (hb : s.IsActive b) :
    ∃ a, s.IsActive a ∧ s.num a = s.back (s.num v) b ∧ ReflTransGen (Edge graph) v a := by
  unfold back
  split
  · rename_i hlt
    obtain ⟨a, ha, hnum, hreach⟩ := h.low_reach b (h.waiting_of_num_lt hopen hb hlt)
    exact ⟨a, ha, hnum, .head hedge hreach⟩
  · exact ⟨b, hb, rfl, .single hedge⟩

/-- An active node numbered before the top is there only if some open node is below the top. -/
theorem below_ne_nil (h : Valid graph s) (hopen : s.openNodes = v :: below) {a : α}
    (ha : s.IsActive a) (hlt : s.num a < s.num v) : below ≠ [] := by
  rintro rfl
  rcases ha with ha | ha
  · rw [hopen, List.mem_singleton] at ha
    rw [ha] at hlt
    omega
  · obtain ⟨q, hq, hqa⟩ := h.exists_open_lt ha
    rw [hopen, List.mem_singleton] at hq
    rw [hq] at hqa
    omega

/-- If no edge from the top leads back below it, no waiting node above it leads back below it. -/
theorem top_le_low (h : Valid graph s) (hopen : s.openNodes = v :: below)
    (hback : ∀ b, Edge graph v b → ¬ s.IsFound b → s.num v ≤ s.back (s.num v) b)
    {w : α} (hw : w ∈ s.waiting) (hlt : s.num v < s.num w) : s.num v ≤ s.low w := by
  induction hn : s.num w using Nat.strong_induction_on generalizing w with
  | _ n ih =>
    obtain ⟨p, hp, hedge, hpw, hopenp⟩ := h.parent w hw
    have hring : s.InRing v p := (h.inRing_iff hopen).2 ⟨hp, hopenp v (by simp [hopen]) hlt⟩
    rcases hring with rfl | ⟨hpwait, hvp⟩
    · have := hback w hedge (h.active_not_found w (Or.inr hw))
      rwa [back, if_pos hlt] at this
    · have hlowp := ih (s.num p) (by omega) hpwait hvp rfl
      rcases h.low_le p hpwait w hedge with hfound | ⟨-, -, hgt⟩
      · exact absurd hfound (h.active_not_found w (Or.inr hw))
      · exact hlowp.trans (hgt hpw).2

theorem ring_reach_top (h : Valid graph s) (hopen : s.openNodes = v :: below)
    (hback : ∀ b, Edge graph v b → ¬ s.IsFound b → s.num v ≤ s.back (s.num v) b)
    {a : α} (ha : s.InRing v a) : ReflTransGen (Edge graph) a v := by
  induction hn : s.num a using Nat.strong_induction_on generalizing a with
  | _ n ih =>
    rcases ha with rfl | ⟨ha, hlt⟩
    · exact .refl
    · obtain ⟨b, hb, hnum, hreach⟩ := h.low_reach a ha
      have hle := h.top_le_low hopen hback ha hlt
      have := (h.low_lt a ha).2
      exact hreach.trans
        (ih (s.num b) (by omega) ((h.inRing_iff hopen).2 ⟨hb, by omega⟩) rfl)

theorem edge_of_ring (h : Valid graph s) (hopen : s.openNodes = v :: below)
    (hscanned : ∀ b, Edge graph v b → s.isNumbered b)
    (hback : ∀ b, Edge graph v b → ¬ s.IsFound b → s.num v ≤ s.back (s.num v) b)
    {a b : α} (ha : s.InRing v a) (hab : Edge graph a b) : s.InRing v b ∨ s.IsFound b := by
  by_cases hfound : s.IsFound b
  · exact Or.inr hfound
  refine Or.inl ((h.inRing_iff hopen).2 ?_)
  rcases ha with rfl | ⟨ha, hlt⟩
  · refine ⟨h.isActive_of_not_isFound (hscanned b hab) hfound, ?_⟩
    have := hback b hab hfound
    unfold back at this
    split at this <;> omega
  · have hlow := h.top_le_low hopen hback ha hlt
    obtain ⟨hb, hle, -⟩ := (h.low_le a ha b hab).resolve_left hfound
    refine ⟨hb, ?_⟩
    rcases Nat.lt_or_ge (s.num a) (s.num b) with hgt | hle'
    · omega
    · have := hle hle'
      omega

/-- The ring of a top that leads back to nothing below it is a component. -/
theorem isComponent_ring (h : Valid graph s) (hopen : s.openNodes = v :: below)
    (hscanned : ∀ b, Edge graph v b → s.isNumbered b)
    (hback : ∀ b, Edge graph v b → ¬ s.IsFound b → s.num v ≤ s.back (s.num v) b) :
    IsComponent (Edge graph) (v :: s.waiting.filter (s.num v < s.num ·)) := by
  have hmem : ∀ a, a ∈ v :: s.waiting.filter (s.num v < s.num ·) ↔ s.InRing v a := by
    simp [InRing]
  have htogether : ∀ a, s.InRing v a → Together (Edge graph) a v := fun a ha => by
    obtain ⟨hactive, hle⟩ := (h.inRing_iff hopen).1 ha
    exact ⟨h.ring_reach_top hopen hback ha, h.open_reach v (by simp [hopen]) a hactive hle⟩
  have hleave : ∀ a b, s.InRing v a → ReflTransGen (Edge graph) a b →
      s.InRing v b ∨ s.IsFound b := fun a b ha hab => by
    induction hab with
    | refl => exact Or.inl ha
    | tail _ hedge ih =>
      rcases ih with hring | hfound
      · exact h.edge_of_ring hopen hscanned hback hring hedge
      · exact Or.inr (isFound_iff.2 (h.completed.closed (isFound_iff.1 hfound) hedge))
  refine ⟨by simp, ?_, fun a ha b => ?_⟩
  · have hv : v ∉ s.waiting := h.open_not_waiting v (by simp [hopen])
    exact List.nodup_cons.2 ⟨by simp [hv], h.waiting_nodup.filter _⟩
  · rw [hmem] at ha ⊢
    constructor
    · exact fun hb => (htogether a ha).trans (htogether b hb).symm
    · rintro ⟨hab, hba⟩
      refine (hleave a b ha hab).resolve_right fun hfound => ?_
      have hfounda := h.completed.closed_of_reach (isFound_iff.1 hfound) hba
      exact h.active_not_found a ((h.inRing_iff hopen).1 ha).1 (isFound_iff.2 hfounda)

end Valid

end DesignMetrics.Search
