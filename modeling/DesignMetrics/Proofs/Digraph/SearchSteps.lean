import DesignMetrics.Proofs.Digraph.SearchInvariant

/-!
# The steps of the component search

Each step finds what it looks up and keeps the invariant. Opening a node changes nothing but the top
of the path. A node that closes with its own number as the low one takes the waiting nodes above it
into a component; any other one is left to wait for the node that it leads back to.
-/

namespace DesignMetrics.Search

open Relation

variable {α : Type} [DecidableEq α] {graph : List (α × List α)} {s : Search α}

/-! ## Opening a node -/

section Opening

variable {x : α} {successors : List α}

theorem isNumbered_iff_eq_or {a : α} : (s.numbered x).isNumbered a ↔ a = x ∨ s.isNumbered a := by
  rw [isNumbered_numbered]
  simp

theorem numbered_eq (hx : s.isNumbered x = false) :
    s.numbered x = { s with numbers := (x, s.numbers.length + 1) :: s.numbers } := by
  simp [numbered, hx]

theorem opened_eq (hx : s.isNumbered x = false) :
    s.opened x successors =
      { s with
        numbers := (x, s.numbers.length + 1) :: s.numbers
        path := ⟨x, successors⟩ :: s.path } := by
  rw [opened, numbered_eq hx]

theorem isActive_opened {a : α} (hx : s.isNumbered x = false) :
    (s.opened x successors).IsActive a ↔ a = x ∨ s.IsActive a := by
  simp [IsActive, openNodes, opened_eq hx, or_assoc]

theorem low?_opened (hx : s.isNumbered x = false) (a : α) :
    (s.opened x successors).low? a = s.low? a := by
  simp [low?, opened_eq hx]

theorem low_opened (hx : s.isNumbered x = false) (a : α) :
    (s.opened x successors).low a = s.low a := by
  rw [low, low, low?_opened hx]

theorem num_opened_self (hx : s.isNumbered x = false) :
    (s.opened x successors).num x = s.numbers.length + 1 := by
  have hnone : s.number? x = none := by simpa [isNumbered] using hx
  show (s.numbered x).num x = _
  simp [num, number?_numbered, hnone]

theorem num_opened_of_ne {a : α} (hne : a ≠ x) : (s.opened x successors).num a = s.num a := by
  show (s.numbered x).num a = _
  simp [num, number?_numbered, hne]

namespace Valid

theorem ne_of_active (h : Valid graph s) (hx : s.isNumbered x = false) {a : α}
    (ha : s.IsActive a) : a ≠ x := by
  rintro rfl
  rw [h.isNumbered_of_active ha] at hx
  cases hx

theorem num_opened (h : Valid graph s) (hx : s.isNumbered x = false) {a : α}
    (ha : s.IsActive a) : (s.opened x successors).num a = s.num a :=
  num_opened_of_ne (h.ne_of_active hx ha)

/-- A node that is opened is numbered after all others. -/
theorem num_lt_opened (h : Valid graph s) (hx : s.isNumbered x = false) (a : α) :
    s.num a < (s.opened x successors).num x := by
  have := h.num_le a
  rw [num_opened_self hx]
  omega

/-- All open nodes reach a node that is opened from the top of the path. -/
theorem reach_opened (h : Valid graph s) (htop : ∀ top ∈ s.openNodes.head?, Edge graph top x)
    {q : α} (hq : q ∈ s.openNodes) : ReflTransGen (Edge graph) q x := by
  obtain ⟨top, below, hopen⟩ := List.exists_cons_of_ne_nil (List.ne_nil_of_mem hq)
  have hqtop : ReflTransGen (Edge graph) q top := by
    refine h.open_reach q hq top (Or.inl (by simp [hopen])) ?_
    rw [hopen, List.mem_cons] at hq
    rcases hq with rfl | hq
    · exact le_rfl
    · exact (h.num_lt_top hopen hq).le
  exact hqtop.tail (htop top (by simp [hopen]))

theorem numbering_opened (h : Valid graph s) (hx : s.isNumbered x = false)
    (hnode : graph.lookup x = some successors) : Numbering graph (s.opened x successors) := by
  have hactive : ∀ a, (s.opened x successors).IsActive a ↔ a = x ∨ s.IsActive a := fun a =>
    isActive_opened hx
  have hfound : ∀ a, (s.opened x successors).IsFound a ↔ s.IsFound a := by
    simp [IsFound, opened_eq hx]
  have hnumbered : ∀ a, (s.opened x successors).isNumbered a ↔ a = x ∨ s.isNumbered a := fun a =>
    isNumbered_iff_eq_or (s := s)
  constructor
  case isNumbered_iff =>
    intro a
    rw [hnumbered, h.isNumbered_iff, hactive, hfound, or_assoc]
  case num_le =>
    intro a
    have hlength : (s.opened x successors).numbers.length = s.numbers.length + 1 := by
      simp [opened_eq hx]
    rw [hlength]
    by_cases ha : a = x
    · rw [ha, num_opened_self hx]
    · have := h.num_le a
      rw [num_opened_of_ne ha]
      omega
  case num_injective =>
    intro a b ha hb heq
    rcases (hactive a).1 ha with rfl | ha' <;> rcases (hactive b).1 hb with rfl | hb'
    · rfl
    · have : s.num b < (s.opened a successors).num a := h.num_lt_opened hx b
      rw [h.num_opened hx hb'] at heq
      omega
    · have : s.num a < (s.opened b successors).num b := h.num_lt_opened hx a
      rw [h.num_opened hx ha'] at heq
      omega
    · rw [h.num_opened hx ha', h.num_opened hx hb'] at heq
      exact h.num_injective a b ha' hb' heq
  case isNode_source =>
    intro a ha
    exact h.isNode_source a (by simpa [opened_eq hx] using ha)
  case isNode_numbered =>
    intro a ha
    rcases (hnumbered a).1 ha with rfl | ha
    · exact ⟨successors, hnode⟩
    · exact h.isNode_numbered a ha
  case covered =>
    intro a ha
    rcases h.covered a ha with hsource | ha
    · exact Or.inl (by simpa [opened_eq hx] using hsource)
    · exact Or.inr ((hnumbered a).2 (Or.inr ha))
  case active_not_found =>
    intro a ha
    rw [hfound]
    rcases (hactive a).1 ha with rfl | ha
    · intro hfound
      have := (h.isNumbered_iff a).2 (Or.inr hfound)
      simp [hx] at this
    · exact h.active_not_found a ha

theorem opening_opened (h : Valid graph s) (hx : s.isNumbered x = false)
    (htop : ∀ top ∈ s.openNodes.head?, Edge graph top x) :
    Opening graph (s.opened x successors) := by
  have hopen : (s.opened x successors).openNodes = x :: s.openNodes := rfl
  have hwaiting : (s.opened x successors).waiting = s.waiting := by simp [opened_eq hx]
  constructor
  case open_not_waiting =>
    intro a ha
    rw [hwaiting]
    rcases List.mem_cons.1 ha with rfl | ha
    · exact fun hw => h.ne_of_active hx (Or.inr hw) rfl
    · exact h.open_not_waiting a ha
  case open_descending =>
    rw [hopen, List.pairwise_cons]
    refine ⟨fun a ha => ?_, h.open_descending.imp_of_mem fun {a b} ha hb hab => ?_⟩
    · rw [h.num_opened hx (Or.inl ha)]
      exact h.num_lt_opened hx a
    · rw [h.num_opened hx (Or.inl ha), h.num_opened hx (Or.inl hb)]
      exact hab
  case open_chain =>
    rw [hopen, List.isChain_cons]
    exact ⟨htop, h.open_chain⟩
  case open_reach =>
    intro q hq a ha hqa
    rcases List.mem_cons.1 hq with rfl | hq' <;> rcases (isActive_opened hx).1 ha with rfl | ha'
    · exact .refl
    · have : s.num a < (s.opened q successors).num q := h.num_lt_opened hx a
      rw [h.num_opened hx ha'] at hqa
      omega
    · exact h.reach_opened htop hq'
    · rw [h.num_opened hx (Or.inl hq'), h.num_opened hx ha'] at hqa
      exact h.open_reach q hq' a ha' hqa

theorem waiting_opened (h : Valid graph s) (hx : s.isNumbered x = false) :
    Waiting graph (s.opened x successors) := by
  have hwaiting : (s.opened x successors).waiting = s.waiting := by simp [opened_eq hx]
  have hactive : ∀ a, s.IsActive a → (s.opened x successors).IsActive a := fun a ha =>
    (isActive_opened hx).2 (Or.inr ha)
  have hfound : ∀ a, (s.opened x successors).IsFound a ↔ s.IsFound a := by
    simp [IsFound, opened_eq hx]
  -- the node that is opened is numbered after all waiting ones, so that it is above none of them
  have hold : ∀ q ∈ (s.opened x successors).openNodes, ∀ w ∈ s.waiting,
      (s.opened x successors).num q < s.num w → q ∈ s.openNodes ∧ s.num q < s.num w := by
    intro q hq w hw hlt
    rcases List.mem_cons.1 hq with rfl | hq
    · have : s.num w < (s.opened q successors).num q := h.num_lt_opened hx w
      omega
    · rw [h.num_opened hx (Or.inl hq)] at hlt
      exact ⟨hq, hlt⟩
  constructor
  case waiting_nodup => rw [hwaiting]; exact h.waiting_nodup
  case waiting_nested =>
    rw [hwaiting]
    refine h.waiting_nested.imp_of_mem fun {a b} ha hb hab q hq hqb => ?_
    rw [h.num_opened hx (Or.inr hb)] at hqb
    obtain ⟨hq, hqb⟩ := hold q hq b hb hqb
    rw [h.num_opened hx (Or.inl hq), h.num_opened hx (Or.inr ha)]
    exact hab q hq hqb
  case low_lt =>
    intro w hw
    rw [hwaiting] at hw
    rw [low?_opened hx, low_opened hx, h.num_opened hx (Or.inr hw)]
    exact h.low_lt w hw
  case low_reach =>
    intro w hw
    rw [hwaiting] at hw
    obtain ⟨a, ha, hnum, hreach⟩ := h.low_reach w hw
    exact ⟨a, hactive a ha, by rw [h.num_opened hx ha, low_opened hx, hnum], hreach⟩
  case low_le =>
    intro w hw a hedge
    rw [hwaiting] at hw
    rcases h.low_le w hw a hedge with hfounda | ⟨ha, hle, hgt⟩
    · exact Or.inl ((hfound a).2 hfounda)
    · rw [hwaiting, low_opened hx, low_opened hx, h.num_opened hx ha, h.num_opened hx (Or.inr hw)]
      exact Or.inr ⟨hactive a ha, hle, hgt⟩
  case parent =>
    intro w hw
    rw [hwaiting] at hw
    obtain ⟨p, hp, hedge, hpw, hopenp⟩ := h.parent w hw
    rw [h.num_opened hx (Or.inr hw)]
    refine ⟨p, hactive p hp, hedge, ?_, fun q hq hqw => ?_⟩
    · rw [h.num_opened hx hp]
      exact hpw
    · obtain ⟨hq, hqw⟩ := hold q hq w hw hqw
      rw [h.num_opened hx (Or.inl hq), h.num_opened hx hp]
      exact hopenp q hq hqw

/-- Opening a node without a number, from the top of the path if there is one. -/
protected theorem opened (h : Valid graph s) (hx : s.isNumbered x = false)
    (hnode : graph.lookup x = some successors)
    (htop : ∀ top ∈ s.openNodes.head?, Edge graph top x) :
    Valid graph (s.opened x successors) where
  toNumbering := h.numbering_opened hx hnode
  toOpening := h.opening_opened hx htop
  toWaiting := h.waiting_opened hx
  completed := by
    rw [opened_eq hx]
    exact h.completed

end Valid

end Opening

/-! ## Closing the top of the path -/

/-- The state after the closed top of the path has made a component. -/
def emitted (s : Search α) (v : α) (low : Nat) (below : List (OpenNode α)) : Search α :=
  { s with
    path := below
    lows := (v, low) :: s.lows
    waiting := s.waiting.filter (s.num · ≤ s.num v)
    found := (v :: s.waiting.filter (s.num v < s.num ·)) :: s.found }

/-- The state after the closed top of the path has been left to wait. -/
def postponed (s : Search α) (v : α) (low : Nat) (below : List (OpenNode α)) : Search α :=
  { s with path := below, lows := (v, low) :: s.lows, waiting := v :: s.waiting }

section Closing

variable {v : α} {value : Nat} {left : List α} {below : List (OpenNode α)}

omit [DecidableEq α] in
theorem openNodes_of_path (hpath : s.path = ⟨v, left⟩ :: below) :
    s.openNodes = v :: below.map (·.node) := by
  simp [openNodes, hpath]

omit [DecidableEq α] in
theorem isOpen_top (hpath : s.path = ⟨v, left⟩ :: below) : v ∈ s.openNodes := by
  simp [openNodes_of_path hpath]

omit [DecidableEq α] in
theorem isOpen_below (hpath : s.path = ⟨v, left⟩ :: below) {q : α}
    (hq : q ∈ below.map (·.node)) : q ∈ s.openNodes := by
  rw [openNodes_of_path hpath]
  exact List.mem_cons_of_mem v hq

theorem lookup_cons_of_ne {a : α} (hne : a ≠ v) (entries : List (α × Nat)) :
    ((v, value) :: entries).lookup a = entries.lookup a := by
  have : (a == v) = false := by simpa using hne
  simp [List.lookup_cons, this]

namespace Valid

theorem waiting_ne_top (h : Valid graph s) (hpath : s.path = ⟨v, left⟩ :: below) {w : α}
    (hw : w ∈ s.waiting) : w ≠ v := by
  rintro rfl
  exact h.open_not_waiting w (isOpen_top hpath) hw

theorem descending_below (h : Valid graph s) (hpath : s.path = ⟨v, left⟩ :: below) :
    (below.map (·.node)).Pairwise fun upper lower => s.num lower < s.num upper := by
  have hdescending := h.open_descending
  rw [openNodes_of_path hpath] at hdescending
  exact (List.pairwise_cons.1 hdescending).2

theorem chain_below (h : Valid graph s) (hpath : s.path = ⟨v, left⟩ :: below) :
    (below.map (·.node)).IsChain fun upper lower => Edge graph lower upper := by
  have hchain := h.open_chain
  rw [openNodes_of_path hpath] at hchain
  exact hchain.tail

/-! ### With a component -/

theorem isActive_emitted (h : Valid graph s) (hpath : s.path = ⟨v, left⟩ :: below) {a : α} :
    (s.emitted v value below).IsActive a ↔ s.IsActive a ∧ s.num a < s.num v := by
  have hopen := openNodes_of_path hpath
  simp only [IsActive, hopen, List.mem_cons]
  show a ∈ below.map (·.node) ∨ a ∈ s.waiting.filter (s.num · ≤ s.num v) ↔ _
  rw [List.mem_filter, decide_eq_true_eq]
  constructor
  · rintro (ha | ⟨ha, hle⟩)
    · exact ⟨Or.inl (Or.inr ha), h.num_lt_top hopen ha⟩
    · refine ⟨Or.inr ha, lt_of_le_of_ne hle fun heq => h.waiting_ne_top hpath ha ?_⟩
      exact h.num_injective a v (Or.inr ha) (Or.inl (isOpen_top hpath)) heq
  · rintro ⟨(rfl | ha) | ha, hlt⟩
    · omega
    · exact Or.inl ha
    · exact Or.inr ⟨ha, hlt.le⟩

theorem isFound_emitted (h : Valid graph s) (hpath : s.path = ⟨v, left⟩ :: below) {a : α} :
    (s.emitted v value below).IsFound a ↔ s.IsActive a ∧ s.num v ≤ s.num a ∨ s.IsFound a := by
  rw [← h.inRing_iff (openNodes_of_path hpath)]
  simp [emitted, IsFound, InRing]

theorem low?_emitted (h : Valid graph s) (hpath : s.path = ⟨v, left⟩ :: below) {w : α}
    (hw : w ∈ s.waiting) : (s.emitted v value below).low? w = s.low? w :=
  lookup_cons_of_ne (h.waiting_ne_top hpath hw) s.lows

theorem low_emitted (h : Valid graph s) (hpath : s.path = ⟨v, left⟩ :: below) {w : α}
    (hw : w ∈ s.waiting) : (s.emitted v value below).low w = s.low w := by
  rw [low, low, h.low?_emitted hpath hw]

theorem numbering_emitted (h : Valid graph s) (hpath : s.path = ⟨v, left⟩ :: below) :
    Numbering graph (s.emitted v value below) where
  isNumbered_iff a := by
    have hnumbered := h.isNumbered_iff a
    rw [h.isActive_emitted hpath, h.isFound_emitted hpath]
    show s.isNumbered a ↔ _
    rw [hnumbered]
    have := Nat.lt_or_ge (s.num a) (s.num v)
    tauto
  num_le := h.num_le
  num_injective a b ha hb := h.num_injective a b ((h.isActive_emitted hpath).1 ha).1
    ((h.isActive_emitted hpath).1 hb).1
  isNode_source := h.isNode_source
  isNode_numbered := h.isNode_numbered
  covered := h.covered
  active_not_found a ha := by
    obtain ⟨ha, hlt⟩ := (h.isActive_emitted hpath).1 ha
    rw [h.isFound_emitted hpath]
    rintro (⟨-, hle⟩ | hfound)
    · omega
    · exact h.active_not_found a ha hfound

theorem opening_emitted (h : Valid graph s) (hpath : s.path = ⟨v, left⟩ :: below) :
    Opening graph (s.emitted v value below) where
  open_not_waiting a ha hw :=
    h.open_not_waiting a (isOpen_below hpath ha) (List.mem_of_mem_filter hw)
  open_descending := h.descending_below hpath
  open_chain := h.chain_below hpath
  open_reach q hq a ha :=
    h.open_reach q (isOpen_below hpath hq) a ((h.isActive_emitted hpath).1 ha).1

theorem waiting_emitted (h : Valid graph s) (hpath : s.path = ⟨v, left⟩ :: below) :
    Waiting graph (s.emitted v value below) := by
  have hwaiting : ∀ w, w ∈ (s.emitted v value below).waiting ↔
      w ∈ s.waiting ∧ s.num w ≤ s.num v := fun w => by simp [emitted]
  constructor
  case waiting_nodup => exact h.waiting_nodup.filter _
  case waiting_nested =>
    exact (h.waiting_nested.filter _).imp fun hab q hq => hab q (isOpen_below hpath hq)
  case low_lt =>
    intro w hw
    obtain ⟨hw, -⟩ := (hwaiting w).1 hw
    rw [h.low?_emitted hpath hw, h.low_emitted hpath hw]
    exact h.low_lt w hw
  case low_reach =>
    intro w hw
    obtain ⟨hw, hle⟩ := (hwaiting w).1 hw
    obtain ⟨a, ha, hnum, hreach⟩ := h.low_reach w hw
    have := (h.low_lt w hw).2
    rw [h.low_emitted hpath hw]
    exact ⟨a, (h.isActive_emitted hpath).2 ⟨ha, by omega⟩, hnum, hreach⟩
  case low_le =>
    intro w hw a hedge
    obtain ⟨hw, hle⟩ := (hwaiting w).1 hw
    rw [h.isFound_emitted hpath, h.isActive_emitted hpath, hwaiting, h.low_emitted hpath hw]
    rcases h.low_le w hw a hedge with hfound | ⟨ha, hleft, hright⟩
    · exact Or.inl (Or.inr hfound)
    rcases Nat.lt_or_ge (s.num a) (s.num v) with hlt | hge
    · refine Or.inr ⟨⟨ha, hlt⟩, hleft, fun hwa => ?_⟩
      obtain ⟨hawait, hlowa⟩ := hright hwa
      rw [h.low_emitted hpath hawait]
      exact ⟨⟨hawait, hlt.le⟩, hlowa⟩
    · exact Or.inl (Or.inl ⟨ha, hge⟩)
  case parent =>
    intro w hw
    obtain ⟨hw, hle⟩ := (hwaiting w).1 hw
    obtain ⟨p, hp, hedge, hpw, hopenp⟩ := h.parent w hw
    have hplt : s.num p < s.num v := hpw.trans_le hle
    exact ⟨p, (h.isActive_emitted hpath).2 ⟨hp, hplt⟩, hedge, hpw,
      fun q hq => hopenp q (isOpen_below hpath hq)⟩

/-- A node that leads back to nothing before it makes a component when it closes. -/
protected theorem emitted (h : Valid graph s) (hpath : s.path = ⟨v, left⟩ :: below)
    (hscanned : ∀ b, Edge graph v b → s.isNumbered b)
    (hback : ∀ b, Edge graph v b → ¬ s.IsFound b → s.num v ≤ s.back (s.num v) b) :
    Valid graph (s.emitted v value below) where
  toNumbering := h.numbering_emitted hpath
  toOpening := h.opening_emitted hpath
  toWaiting := h.waiting_emitted hpath
  completed := by
    have hopen := openNodes_of_path hpath
    have hmem : ∀ a, a ∈ v :: s.waiting.filter (s.num v < s.num ·) ↔ s.InRing v a := by
      simp [InRing]
    refine ⟨h.isComponent_ring hopen hscanned hback, fun a ha hflat => ?_, fun a ha b hab => ?_,
      h.completed⟩
    · have hactive := ((h.inRing_iff hopen).1 ((hmem a).1 ha)).1
      exact h.active_not_found a hactive (isFound_iff.2 hflat)
    · rw [hmem] at ha ⊢
      exact (h.edge_of_ring hopen hscanned hback ha hab).imp_right isFound_iff.1

/-! ### Without a component -/

omit [DecidableEq α] in
theorem isActive_postponed (hpath : s.path = ⟨v, left⟩ :: below) {a : α} :
    (s.postponed v value below).IsActive a ↔ s.IsActive a := by
  rw [IsActive, IsActive, openNodes_of_path hpath]
  show a ∈ below.map (·.node) ∨ a ∈ v :: s.waiting ↔ _
  simp only [List.mem_cons]
  tauto

theorem low?_postponed (h : Valid graph s) (hpath : s.path = ⟨v, left⟩ :: below) {w : α}
    (hw : w ∈ s.waiting) : (s.postponed v value below).low? w = s.low? w :=
  lookup_cons_of_ne (h.waiting_ne_top hpath hw) s.lows

theorem low_postponed (h : Valid graph s) (hpath : s.path = ⟨v, left⟩ :: below) {w : α}
    (hw : w ∈ s.waiting) : (s.postponed v value below).low w = s.low w := by
  rw [low, low, h.low?_postponed hpath hw]

theorem low_postponed_self : (s.postponed v value below).low? v = some value ∧
    (s.postponed v value below).low v = value := by
  have hlow : (s.postponed v value below).low? v = some value := by simp [postponed, low?]
  exact ⟨hlow, by rw [low, hlow]; rfl⟩

theorem numbering_postponed (h : Valid graph s) (hpath : s.path = ⟨v, left⟩ :: below) :
    Numbering graph (s.postponed v value below) where
  isNumbered_iff a := by
    rw [isActive_postponed hpath]
    exact h.isNumbered_iff a
  num_le := h.num_le
  num_injective a b ha hb := h.num_injective a b ((isActive_postponed hpath).1 ha)
    ((isActive_postponed hpath).1 hb)
  isNode_source := h.isNode_source
  isNode_numbered := h.isNode_numbered
  covered := h.covered
  active_not_found a ha := h.active_not_found a ((isActive_postponed hpath).1 ha)

theorem opening_postponed (h : Valid graph s) (hpath : s.path = ⟨v, left⟩ :: below) :
    Opening graph (s.postponed v value below) where
  open_not_waiting a ha hw := by
    rcases List.mem_cons.1 hw with rfl | hw
    · have := h.num_lt_top (openNodes_of_path hpath) ha
      omega
    · exact h.open_not_waiting a (isOpen_below hpath ha) hw
  open_descending := h.descending_below hpath
  open_chain := h.chain_below hpath
  open_reach q hq a ha :=
    h.open_reach q (isOpen_below hpath hq) a ((isActive_postponed hpath).1 ha)

/-- A top that leads back before itself was opened from the node below it. -/
theorem parent_top (h : Valid graph s) (hpath : s.path = ⟨v, left⟩ :: below) {target : α}
    (htarget : s.IsActive target) (hlt : s.num target < s.num v) :
    ∃ p, s.IsActive p ∧ Edge graph p v ∧ s.num p < s.num v ∧
      ∀ q ∈ below.map (·.node), s.num q ≤ s.num p := by
  have hopen := openNodes_of_path hpath
  obtain ⟨p, rest, hbelow⟩ : ∃ p rest, below.map (·.node) = p :: rest :=
    List.exists_cons_of_ne_nil (h.below_ne_nil hopen htarget hlt)
  have hp : p ∈ below.map (·.node) := by rw [hbelow]; exact List.mem_cons_self
  have hchain := h.open_chain
  rw [hopen, hbelow, List.isChain_cons_cons] at hchain
  have hdescending := h.descending_below hpath
  rw [hbelow, List.pairwise_cons] at hdescending
  refine ⟨p, Or.inl (isOpen_below hpath hp), hchain.1, h.num_lt_top hopen hp, fun q hq => ?_⟩
  rw [hbelow, List.mem_cons] at hq
  rcases hq with rfl | hq
  · exact le_rfl
  · exact (hdescending.1 q hq).le

/-- What the edges of a closing top lead back to bounds its low number. -/
theorem low_le_top (h : Valid graph s) (hpath : s.path = ⟨v, left⟩ :: below)
    (hle : ∀ b, Edge graph v b → ¬ s.IsFound b → value ≤ s.back (s.num v) b) {b : α}
    (hedge : Edge graph v b) (hfound : ¬ s.IsFound b) (hb : s.IsActive b) :
    (s.num b ≤ s.num v → value ≤ s.num b) ∧
      (s.num v < s.num b → b ∈ s.waiting ∧ value ≤ s.low b) := by
  have hback := hle b hedge hfound
  unfold back at hback
  refine ⟨fun hnum => ?_, fun hnum => ?_⟩
  · rwa [if_neg (by omega)] at hback
  · rw [if_pos hnum] at hback
    exact ⟨h.waiting_of_num_lt (openNodes_of_path hpath) hb hnum, hback⟩

theorem waiting_postponed (h : Valid graph s) (hpath : s.path = ⟨v, left⟩ :: below)
    (hscanned : ∀ b, Edge graph v b → s.isNumbered b) (hlt : value < s.num v)
    (hle : ∀ b, Edge graph v b → ¬ s.IsFound b → value ≤ s.back (s.num v) b) {target : α}
    (htarget : s.IsActive target) (hnum : s.num target = value)
    (hreach : ReflTransGen (Edge graph) v target) :
    Waiting graph (s.postponed v value below) := by
  have hwaiting : (s.postponed v value below).waiting = v :: s.waiting := rfl
  have hactive : ∀ a, s.IsActive a → (s.postponed v value below).IsActive a := fun a ha =>
    (isActive_postponed hpath).2 ha
  obtain ⟨hlowv?, hlowv⟩ : (s.postponed v value below).low? v = some value ∧
      (s.postponed v value below).low v = value := low_postponed_self
  constructor
  case waiting_nodup =>
    exact List.nodup_cons.2 ⟨h.open_not_waiting v (isOpen_top hpath), h.waiting_nodup⟩
  case waiting_nested =>
    rw [hwaiting, List.pairwise_cons]
    exact ⟨fun w hw q hq hqw => h.num_lt_top (openNodes_of_path hpath) hq,
      h.waiting_nested.imp fun hab q hq => hab q (isOpen_below hpath hq)⟩
  case low_lt =>
    intro w hw
    rcases List.mem_cons.1 hw with rfl | hw
    · rw [hlowv?, hlowv]
      exact ⟨rfl, hlt⟩
    · rw [h.low?_postponed hpath hw, h.low_postponed hpath hw]
      exact h.low_lt w hw
  case low_reach =>
    intro w hw
    rcases List.mem_cons.1 hw with rfl | hw
    · rw [hlowv]
      exact ⟨target, hactive target htarget, hnum, hreach⟩
    · obtain ⟨a, ha, hnum, hreach⟩ := h.low_reach w hw
      rw [h.low_postponed hpath hw]
      exact ⟨a, hactive a ha, hnum, hreach⟩
  case low_le =>
    intro w hw b hedge
    show s.IsFound b ∨ _
    by_cases hfound : s.IsFound b
    · exact Or.inl hfound
    right
    have hmem : ∀ {low : Nat}, b ∈ s.waiting ∧ low ≤ s.low b →
        b ∈ v :: s.waiting ∧ low ≤ (s.postponed v value below).low b := fun hb => by
      rw [h.low_postponed hpath hb.1]
      exact ⟨List.mem_cons_of_mem v hb.1, hb.2⟩
    rcases List.mem_cons.1 hw with rfl | hw
    · have hb := h.isActive_of_not_isFound (hscanned b hedge) hfound
      obtain ⟨hleft, hright⟩ := h.low_le_top hpath hle hedge hfound hb
      rw [hlowv]
      exact ⟨hactive b hb, hleft, fun hgt => hmem (hright hgt)⟩
    · obtain ⟨hb, hleft, hright⟩ := (h.low_le w hw b hedge).resolve_left hfound
      rw [h.low_postponed hpath hw]
      exact ⟨hactive b hb, hleft, fun hgt => hmem (hright hgt)⟩
  case parent =>
    intro w hw
    rcases List.mem_cons.1 hw with rfl | hw
    · obtain ⟨p, hp, hedge, hpw, hopenp⟩ := h.parent_top hpath htarget (hnum ▸ hlt)
      exact ⟨p, hactive p hp, hedge, hpw, fun q hq _ => hopenp q hq⟩
    · obtain ⟨p, hp, hedge, hpw, hopenp⟩ := h.parent w hw
      exact ⟨p, hactive p hp, hedge, hpw, fun q hq => hopenp q (isOpen_below hpath hq)⟩

/-- A node that leads back to one before it waits when it closes. -/
protected theorem postponed (h : Valid graph s) (hpath : s.path = ⟨v, left⟩ :: below)
    (hscanned : ∀ b, Edge graph v b → s.isNumbered b) (hlt : value < s.num v)
    (hle : ∀ b, Edge graph v b → ¬ s.IsFound b → value ≤ s.back (s.num v) b)
    (heq : ∃ b, Edge graph v b ∧ ¬ s.IsFound b ∧ value = s.back (s.num v) b) :
    Valid graph (s.postponed v value below) := by
  obtain ⟨b, hedge, hfound, rfl⟩ := heq
  obtain ⟨target, htarget, hnum, hreach⟩ := h.exists_active_back (openNodes_of_path hpath) hedge
    (h.isActive_of_not_isFound (hscanned b hedge) hfound)
  exact {
    toNumbering := h.numbering_postponed hpath
    toOpening := h.opening_postponed hpath
    toWaiting := h.waiting_postponed hpath hscanned hlt hle htarget hnum hreach
    completed := h.completed }

end Valid

end Closing

/-! ## Steps -/

/-- What the open nodes have left to look at does not count, and a source can be dropped when it is
numbered. -/
theorem Valid.of_openNodes_eq (h : Valid graph s) {sources : List α} {path : List (OpenNode α)}
    (hopen : path.map (·.node) = s.openNodes) (hsub : sources ⊆ s.sources)
    (hcovered : ∀ a ∈ s.sources, a ∈ sources ∨ s.isNumbered a) :
    Valid graph { s with sources, path } := by
  have hopen' : openNodes { s with sources, path } = s.openNodes := hopen
  have hactive : ∀ a, IsActive { s with sources, path } a ↔ s.IsActive a := by
    simp [IsActive, hopen']
  exact {
    isNumbered_iff := fun a => by rw [hactive]; exact h.isNumbered_iff a
    num_le := h.num_le
    num_injective := fun a b ha hb => h.num_injective a b ((hactive a).1 ha) ((hactive b).1 hb)
    isNode_source := fun a ha => h.isNode_source a (hsub ha)
    isNode_numbered := h.isNode_numbered
    covered := fun a ha => (h.covered a ha).elim (hcovered a) Or.inr
    active_not_found := fun a ha => h.active_not_found a ((hactive a).1 ha)
    open_not_waiting := hopen'.symm ▸ h.open_not_waiting
    open_descending := hopen'.symm ▸ h.open_descending
    open_chain := hopen'.symm ▸ h.open_chain
    open_reach := fun q hq a ha => h.open_reach q (hopen' ▸ hq) a ((hactive a).1 ha)
    waiting_nodup := h.waiting_nodup
    waiting_nested := hopen'.symm ▸ h.waiting_nested
    low_lt := h.low_lt
    low_reach := fun w hw => by simp only [hactive]; exact h.low_reach w hw
    low_le := fun w hw a hedge => by rw [hactive]; exact h.low_le w hw a hedge
    parent := fun w hw => by simp only [hactive, hopen']; exact h.parent w hw
    completed := h.completed }

theorem edge_iff {v : α} {successors : List α} (hnode : graph.lookup v = some successors) {b : α} :
    Edge graph v b ↔ b ∈ successors := by
  constructor
  · rintro ⟨successors', hnode', hb⟩
    rw [hnode] at hnode'
    exact Option.some.inj hnode' ▸ hb
  · exact fun hb => ⟨successors, hnode, hb⟩

theorem Valid.close?_eq (h : Valid graph s) {v : α} {left : List α} {below : List (OpenNode α)}
    (hpath : s.path = ⟨v, left⟩ :: below) (hscanned : ∀ b, Edge graph v b → s.isNumbered b) :
    ∃ s', close? graph s v below = some s' ∧ Valid graph s' ∧ s'.path = below ∧
      s'.numbers = s.numbers := by
  have hopen := openNodes_of_path hpath
  have hv : s.isNumbered v := h.isNumbered_of_active (Or.inl (isOpen_top hpath))
  obtain ⟨successors, hnode⟩ := h.isNode_numbered v hv
  have hlookups : ∀ b ∈ successors, ¬ s.IsFound b →
      s.isNumbered b ∧ (s.num v < s.num b → (s.low? b).isSome) := fun b hb hfound => by
    have hnumbered := hscanned b ((edge_iff hnode).2 hb)
    refine ⟨hnumbered, fun hlt => ?_⟩
    have hactive := h.isActive_of_not_isFound hnumbered hfound
    exact (h.low_lt b (h.waiting_of_num_lt hopen hactive hlt)).1
  obtain ⟨value, hvalue, hstart, hle, heq⟩ := lowest?_spec (s.num v) (s.num v) successors hlookups
  have hback : ∀ b, Edge graph v b → ¬ s.IsFound b → value ≤ s.back (s.num v) b := fun b hb =>
    hle b ((edge_iff hnode).1 hb)
  by_cases hown : value = s.num v
  · refine ⟨s.emitted v value below, ?_, h.emitted hpath hscanned (hown ▸ hback), rfl, rfl⟩
    simp [close?, number?_eq_num hv, hnode, hvalue, hown,
      h.splitAbove?_waiting (isOpen_top hpath), emitted]
  · obtain ⟨b, hb, hfound, hvalueb⟩ := heq.resolve_left hown
    refine ⟨s.postponed v value below, ?_, h.postponed hpath hscanned (by omega) hback
      ⟨b, (edge_iff hnode).2 hb, hfound, hvalueb⟩, rfl, rfl⟩
    simp [close?, number?_eq_num hv, hnode, hvalue, hown, postponed]

theorem Scanned.opened {x : α} {successors : List α} (hs : ∀ top ∈ s.path, ∀ a,
      (a ∈ top.left → Edge graph top.node a) ∧
        (Edge graph top.node a → a ∈ top.left ∨ a = x ∨ s.isNumbered a))
    (hnode : graph.lookup x = some successors) : Scanned graph (s.opened x successors) := by
  intro top htop a
  have hnumbered : (s.opened x successors).isNumbered a ↔ a = x ∨ s.isNumbered a :=
    isNumbered_iff_eq_or
  rw [hnumbered]
  rcases List.mem_cons.1 htop with rfl | htop
  · exact ⟨(edge_iff hnode).2, fun ha => Or.inl ((edge_iff hnode).1 ha)⟩
  · exact hs top htop a

namespace Valid

variable {v : α} {left : List α} {below : List (OpenNode α)}

/-- The top has looked at all its successors. -/
theorem step_close (h : Valid graph s) (hs : Scanned graph s)
    (hpath : s.path = ⟨v, left⟩ :: below) (hleft : left.dropWhile s.isNumbered = []) :
    ∃ s', step? graph s = some s' ∧ Valid graph s' ∧ Scanned graph s' := by
  have hall : ∀ a ∈ left, s.isNumbered a := List.dropWhile_eq_nil_iff.1 hleft
  have hscanned : ∀ b, Edge graph v b → s.isNumbered b := fun b hb =>
    ((hs ⟨v, left⟩ (by simp [hpath]) b).2 hb).elim (hall b) id
  obtain ⟨s', hclose, hvalid, hpath', hnumbers⟩ := h.close?_eq hpath hscanned
  refine ⟨s', by simp [step?, hpath, hleft, hclose], hvalid, fun top htop a => ?_⟩
  have hnumbered : s'.isNumbered a = s.isNumbered a := by simp [isNumbered, number?, hnumbers]
  rw [hpath'] at htop
  rw [hnumbered]
  exact hs top (by simp [hpath, htop]) a

/-- The top comes to a successor without a number. -/
theorem step_open (hclosed : IsClosed graph) (h : Valid graph s) (hs : Scanned graph s)
    (hpath : s.path = ⟨v, left⟩ :: below) {x : α} {rest : List α}
    (hleft : left.dropWhile s.isNumbered = x :: rest) :
    ∃ s', step? graph s = some s' ∧ Valid graph s' ∧ Scanned graph s' := by
  have htop := hs ⟨v, left⟩ (by simp [hpath])
  have hx : s.isNumbered x = false := by
    have hhead := List.head?_dropWhile_not s.isNumbered left
    rwa [hleft] at hhead
  have hsplit : left = left.takeWhile s.isNumbered ++ x :: rest := by
    rw [← hleft, List.takeWhile_append_dropWhile]
  have hedge : Edge graph v x := (htop x).1 (by rw [hsplit]; simp)
  obtain ⟨successors, hnode⟩ := hclosed v x hedge
  set s₁ : Search α := { s with path := ⟨v, rest⟩ :: below } with hs₁
  have hvalid : Valid graph s₁ :=
    h.of_openNodes_eq (by simp [openNodes, hpath]) (List.Subset.refl _) fun a ha => Or.inl ha
  refine ⟨s₁.opened x successors, by simp [step?, hpath, hleft, open?, hnode, hs₁],
    hvalid.opened hx hnode (by simp [hs₁, openNodes, hedge]), Scanned.opened ?_ hnode⟩
  intro top htop' a
  rcases List.mem_cons.1 htop' with rfl | htop'
  · refine ⟨fun ha => (htop a).1 (by rw [hsplit]; simp [ha]), fun ha => ?_⟩
    rcases (htop a).2 ha with hmem | hnumbered
    · rw [hsplit, List.mem_append, List.mem_cons] at hmem
      rcases hmem with hmem | rfl | hmem
      · exact Or.inr (Or.inr (List.mem_takeWhile_imp hmem))
      · exact Or.inr (Or.inl rfl)
      · exact Or.inl hmem
    · exact Or.inr (Or.inr hnumbered)
  · have hold := hs top (by simp [hpath, htop']) a
    exact ⟨hold.1, fun ha => (hold.2 ha).imp_right Or.inr⟩

/-- When no node is open, a numbered node is in a component. -/
theorem isFound_of_path_nil (h : Valid graph s) (hpath : s.path = []) {a : α}
    (ha : s.isNumbered a) : s.IsFound a := by
  refine ((h.isNumbered_iff a).1 ha).resolve_left ?_
  rintro (hopen | hwaiting)
  · simp [openNodes, hpath] at hopen
  · obtain ⟨q, hq, -⟩ := h.exists_open_lt hwaiting
    simp [openNodes, hpath] at hq

/-- No node is open, and a source is looked at. -/
theorem step_source (h : Valid graph s) (hpath : s.path = []) {x : α} {rest : List α}
    (hsources : s.sources = x :: rest) :
    ∃ s', step? graph s = some s' ∧ Valid graph s' ∧ Scanned graph s' := by
  by_cases hfound : s.IsFound x
  · refine ⟨{ s with sources := rest }, by simp [step?, hpath, hsources, hfound], ?_,
      by simp [Scanned, hpath]⟩
    refine h.of_openNodes_eq rfl (by simp [hsources]) fun a ha => ?_
    rw [hsources, List.mem_cons] at ha
    rcases ha with rfl | ha
    · exact Or.inr ((h.isNumbered_iff a).2 (Or.inr hfound))
    · exact Or.inl ha
  · have hx : s.isNumbered x = false := by
      simpa using fun hx => hfound (h.isFound_of_path_nil hpath hx)
    obtain ⟨successors, hnode⟩ := h.isNode_source x (by simp [hsources])
    have hvalid := h.opened hx hnode (by simp [openNodes, hpath])
    refine ⟨{ s.opened x successors with sources := rest }, ?_, ?_, ?_⟩
    · have hx' : isNumbered { s with sources := rest } x = false := hx
      rw [opened_eq hx]
      simp only [step?, hpath, hsources, hfound, if_false, open?, hnode, opened,
        Option.bind_eq_bind, Option.bind_some, Option.pure_def]
      rw [numbered_eq (by rw [← hpath]; exact hx')]
    · refine hvalid.of_openNodes_eq rfl ?_ fun a ha => ?_
      · simp [opened, hsources]
      · have ha : a ∈ s.sources := by simpa [opened] using ha
        rw [hsources, List.mem_cons] at ha
        exact ha.symm.imp_right fun heq => isNumbered_iff_eq_or.2 (Or.inl heq)
    · exact Scanned.opened (by simp [hpath]) hnode

/-- A step finds all that it looks up, and what holds between two steps holds after it. -/
theorem step (hclosed : IsClosed graph) (h : Valid graph s) (hs : Scanned graph s) :
    ∃ s', step? graph s = some s' ∧ Valid graph s' ∧ Scanned graph s' := by
  cases hpath : s.path with
  | cons top below =>
    obtain ⟨v, left⟩ := top
    cases hleft : left.dropWhile s.isNumbered with
    | nil => exact h.step_close hs hpath hleft
    | cons x rest => exact h.step_open hclosed hs hpath hleft
  | nil =>
    cases hsources : s.sources with
    | nil => exact ⟨s, by simp [step?, hpath, hsources], h, hs⟩
    | cons x rest => exact h.step_source hpath hsources

/-- A search from such a state comes to an end in such a state. -/
theorem run (hclosed : IsClosed graph) (h : Valid graph s) (hs : Scanned graph s) :
    ∃ s', run? graph s = some s' ∧ Valid graph s' ∧ s'.isOver := by
  induction hn : s.cost graph using Nat.strong_induction_on generalizing s with
  | _ n ih =>
    unfold run?
    by_cases hover : s.isOver = true
    · exact ⟨s, by simp [hover], h, hover⟩
    · obtain ⟨next, hstep, hvalid, hscanned⟩ := h.step hclosed hs
      have hlt := cost_step? (by simpa using hover) hstep
      obtain ⟨s', hrun, hfinal⟩ := ih (next.cost graph) (by omega) hvalid hscanned rfl
      refine ⟨s', ?_, hfinal⟩
      rw [dif_neg hover]
      split
      · rename_i hnone
        rw [hstep] at hnone
        cases hnone
      · rename_i other hother
        rw [hstep] at hother
        cases hother
        exact hrun

end Valid

end DesignMetrics.Search
