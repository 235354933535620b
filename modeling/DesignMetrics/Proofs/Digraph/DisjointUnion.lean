import DesignMetrics.Proofs.Digraph.Components

/-!
# Searching two graphs that have no node in common

The search of two such graphs, put one after the other, is the search of the first followed by that
of the second. While nodes of the first are looked at, the nodes of the second are only more sources
to come. When the first is through, no node is open and none waits, so that the second search goes
on as it would from the start: all its numbers are higher by the number of nodes found before, and
that changes none of its comparisons. So the components of the whole are those of the first graph
and then those of the second, in the order of the separate searches.
-/

namespace DesignMetrics

open Relation

namespace Search

variable {α : Type} [DecidableEq α] {graph graph' whole : List (α × List α)} {s t t' : Search α}

/-! ## Runs from states that correspond -/

theorem run?_of_isOver (hover : s.isOver) : run? graph s = some s := by
  rw [run?, dif_pos hover]

theorem run?_of_step? (hover : s.isOver = false) (h : step? graph s = some t) :
    run? graph s = run? graph t := by
  rw [run?, dif_neg (by simp [hover])]
  split
  · rename_i hnone
    rw [h] at hnone
    cases hnone
  · rename_i next hnext
    rw [h] at hnext
    cases hnext
    rfl

theorem exists_step?_of_run? (hover : s.isOver = false) (h : run? graph s = some t) :
    ∃ next, step? graph s = some next ∧ run? graph next = some t := by
  rw [run?, dif_neg (by simp [hover])] at h
  split at h
  · cases h
  · rename_i next hnext
    exact ⟨next, hnext, h⟩

/-- When every step has a counterpart from the corresponding state, so has a run to its end. -/
theorem run?_lift {P : Search α → Prop} (lift : Search α → Search α)
    (hstep : ∀ s t, P s → s.isOver = false → step? graph s = some t →
      (lift s).isOver = false ∧ step? whole (lift s) = some (lift t) ∧ P t)
    (hs : P s) (h : run? graph s = some t) : run? whole (lift s) = run? whole (lift t) := by
  induction hn : s.cost graph using Nat.strong_induction_on generalizing s with
  | _ n ih =>
    by_cases hover : s.isOver
    · rw [run?_of_isOver hover] at h
      cases h
      rfl
    · have hover : s.isOver = false := by simpa using hover
      obtain ⟨next, hnext, hrest⟩ := exists_step?_of_run? hover h
      obtain ⟨hlift, hwhole, hP⟩ := hstep s next hs hover hnext
      have hlt := cost_step? hover hnext
      rw [run?_of_step? hlift hwhole]
      exact ih (next.cost graph) (by omega) hP hrest rfl

/-! ## Steps -/

theorem step?_source {source : α} {rest : List α} (hpath : s.path = [])
    (hsources : s.sources = source :: rest) :
    step? graph s = if s.IsFound source then some { s with sources := rest }
      else open? graph { s with sources := rest } source := by
  simp only [step?, hpath, hsources]

theorem step?_open {node successor : α} {left rest : List α} {below : List (OpenNode α)}
    (hpath : s.path = ⟨node, left⟩ :: below)
    (hleft : left.dropWhile s.isNumbered = successor :: rest) :
    step? graph s = open? graph { s with path := ⟨node, rest⟩ :: below } successor := by
  simp only [step?, hpath, hleft]

theorem step?_close {node : α} {left : List α} {below : List (OpenNode α)}
    (hpath : s.path = ⟨node, left⟩ :: below) (hleft : left.dropWhile s.isNumbered = []) :
    step? graph s = close? graph s node below := by
  simp only [step?, hpath, hleft]

/-! ## A search between another one and more sources -/

/-- The state of a search that goes on after another one and has more sources to come. -/
def between (s before : Search α) (later : List α) : Search α where
  sources := s.sources ++ later
  path := s.path
  numbers := s.numbers.map (fun entry => (entry.1, entry.2 + before.numbers.length))
    ++ before.numbers
  lows := s.lows.map (fun entry => (entry.1, entry.2 + before.numbers.length)) ++ before.lows
  waiting := s.waiting
  found := s.found ++ before.found

/-- A node that the search has not come to. -/
def IsNew (s : Search α) (a : α) : Prop := s.number? a = none ∧ ¬ s.IsFound a

theorem lookup_map_value {β γ : Type} (f : β → γ) (a : α) (entries : List (α × β)) :
    (entries.map fun entry => (entry.1, f entry.2)).lookup a = (entries.lookup a).map f := by
  induction entries with
  | nil => rfl
  | cons entry rest ih =>
    rw [List.map_cons, List.lookup_cons, List.lookup_cons, ih]
    cases a == entry.1 <;> rfl

section Between

variable {before : Search α} {later : List α} {a : α} {own : Nat}

theorem number?_between (s before : Search α) (later : List α) (a : α) :
    (s.between before later).number? a =
      ((s.number? a).map (· + before.numbers.length)).or (before.number? a) := by
  show List.lookup a (_ ++ _) = _
  rw [List.lookup_append, lookup_map_value (· + before.numbers.length)]
  rfl

theorem low?_between (s before : Search α) (later : List α) (a : α) :
    (s.between before later).low? a =
      ((s.low? a).map (· + before.numbers.length)).or (before.low? a) := by
  show List.lookup a (_ ++ _) = _
  rw [List.lookup_append, lookup_map_value (· + before.numbers.length)]
  rfl

theorem isNumbered_between (hnew : before.IsNew a) :
    (s.between before later).isNumbered a = s.isNumbered a := by
  rw [isNumbered, isNumbered, number?_between, hnew.1]
  cases s.number? a <;> rfl

theorem isFound_between (hnew : before.IsNew a) :
    (s.between before later).IsFound a ↔ s.IsFound a := by
  have hbefore := hnew.2
  simp only [IsFound, between, List.mem_append, or_and_right, exists_or] at hbefore ⊢
  exact or_iff_left hbefore

theorem back?_between {value : Nat} (h : s.back? own a = some value) :
    (s.between before later).back? (own + before.numbers.length) a =
      some (value + before.numbers.length) := by
  obtain ⟨number, hnumber, h⟩ := Option.bind_eq_some_iff.1 h
  have hbetween := number?_between s before later a
  rw [hnumber] at hbetween
  rw [back?, hbetween]
  simp only [Option.map_some, Option.some_or, Option.bind_eq_bind, Option.bind_some,
    Nat.add_lt_add_iff_right]
  by_cases hlt : own < number
  · rw [if_pos hlt] at h ⊢
    rw [low?_between, h]
    rfl
  · rw [if_neg hlt] at h ⊢
    cases h
    rfl

theorem lowest?_between (later : List α) {low value : Nat} {successors : List α}
    (hnew : ∀ b ∈ successors, before.IsNew b)
    (h : s.lowest? own low successors = some value) :
    (s.between before later).lowest? (own + before.numbers.length) (low + before.numbers.length)
      successors = some (value + before.numbers.length) := by
  induction successors generalizing low with
  | nil =>
    cases h
    rfl
  | cons first rest ih =>
    have hrest := fun b hb => hnew b (List.mem_cons_of_mem first hb)
    rw [lowest?] at h ⊢
    simp only [isFound_between (hnew first List.mem_cons_self)]
    by_cases hfound : s.IsFound first
    · rw [if_pos hfound] at h ⊢
      exact ih hrest h
    · rw [if_neg hfound] at h ⊢
      obtain ⟨back, hback, h⟩ := Option.bind_eq_some_iff.1 h
      rw [back?_between hback]
      have hmin : min (low + before.numbers.length) (back + before.numbers.length) =
          min low back + before.numbers.length := by omega
      rw [Option.bind_eq_bind, Option.bind_some, hmin]
      exact ih hrest h

theorem splitAbove?_between (before : Search α) (later : List α) {nodes : List α}
    {parts : List α × List α}
    (h : s.splitAbove? own nodes = some parts) :
    (s.between before later).splitAbove? (own + before.numbers.length) nodes = some parts := by
  induction nodes generalizing parts with
  | nil => exact h
  | cons first rest ih =>
    obtain ⟨number, hnumber, h⟩ := Option.bind_eq_some_iff.1 h
    have hbetween := number?_between s before later first
    rw [hnumber] at hbetween
    rw [splitAbove?, hbetween]
    simp only [Option.map_some, Option.some_or, Option.bind_eq_bind, Option.bind_some,
      Nat.add_lt_add_iff_right]
    by_cases hlt : own < number
    · rw [if_pos hlt] at h ⊢
      obtain ⟨parts', hparts, h⟩ := Option.bind_eq_some_iff.1 h
      rw [ih hparts]
      exact h
    · rw [if_neg hlt] at h ⊢
      exact h

theorem numbered_between (hnew : before.IsNew a) :
    (s.between before later).numbered a = (s.numbered a).between before later := by
  rw [numbered, numbered, isNumbered_between hnew]
  split
  · rfl
  · simp [between, Nat.add_right_comm]

theorem open?_between (hlookup : ∀ successors, graph.lookup a = some successors →
      whole.lookup a = some successors) (hnew : before.IsNew a)
    (h : open? graph s a = some t) :
    open? whole (s.between before later) a = some (t.between before later) := by
  obtain ⟨successors, hsuccessors, h⟩ := Option.bind_eq_some_iff.1 h
  cases h
  rw [open?, hlookup successors hsuccessors]
  simp only [opened, numbered_between hnew, Option.bind_eq_bind, Option.bind_some, Option.pure_def]
  rfl

theorem close?_between {below : List (OpenNode α)}
    (hlookup : ∀ successors, graph.lookup a = some successors →
      whole.lookup a = some successors)
    (hnew : ∀ b, Edge graph a b → before.IsNew b) (h : close? graph s a below = some t) :
    close? whole (s.between before later) a below = some (t.between before later) := by
  obtain ⟨own, hown, h⟩ := Option.bind_eq_some_iff.1 h
  obtain ⟨successors, hsuccessors, h⟩ := Option.bind_eq_some_iff.1 h
  obtain ⟨low, hlow, h⟩ := Option.bind_eq_some_iff.1 h
  have hnumber := number?_between s before later a
  rw [hown] at hnumber
  have hlowest := lowest?_between later (fun b hb => hnew b ⟨successors, hsuccessors, hb⟩) hlow
  rw [close?, hnumber, hlookup successors hsuccessors]
  simp only [Option.map_some, Option.some_or, Option.bind_eq_bind, Option.bind_some, hlowest,
    Nat.add_right_cancel_iff]
  by_cases heq : low = own
  · rw [if_pos heq] at h ⊢
    obtain ⟨parts, hparts, h⟩ := Option.bind_eq_some_iff.1 h
    cases h
    have hsplit := splitAbove?_between before later hparts
    show ((s.between before later).splitAbove? _ s.waiting).bind _ = _
    rw [hsplit]
    rfl
  · rw [if_neg heq] at h ⊢
    cases h
    rfl

theorem dropWhile_congr {β : Type} {p q : β → Bool} {l : List β} (h : ∀ b ∈ l, p b = q b) :
    l.dropWhile p = l.dropWhile q := by
  induction l with
  | nil => rfl
  | cons first rest ih =>
    rw [List.dropWhile_cons, List.dropWhile_cons, h first List.mem_cons_self,
      ih fun b hb => h b (List.mem_cons_of_mem first hb)]

/-- Each step of a search of new nodes is a step of the search that goes on after another one. -/
theorem step?_between (hlookup : ∀ a successors, graph.lookup a = some successors →
      whole.lookup a = some successors) (hnew : ∀ a, IsNode graph a → before.IsNew a)
    (hclosed : IsClosed graph) (hs : Valid graph s) (hscanned : Scanned graph s)
    (hover : s.isOver = false) (h : step? graph s = some t) :
    step? whole (s.between before later) = some (t.between before later) := by
  cases hpath : s.path with
  | nil =>
    cases hsources : s.sources with
    | nil => simp [isOver, hpath, hsources] at hover
    | cons source rest =>
      have hsource := hnew source (hs.isNode_source source (by simp [hsources]))
      have hsources' : (s.between before later).sources = source :: (rest ++ later) := by
        simp [between, hsources]
      rw [step?_source hpath hsources] at h
      rw [step?_source (s := s.between before later) hpath hsources']
      simp only [isFound_between hsource]
      by_cases hfound : s.IsFound source
      · rw [if_pos hfound] at h ⊢
        cases h
        rfl
      · rw [if_neg hfound] at h ⊢
        exact open?_between (hlookup source) hsource h
  | cons top below =>
    obtain ⟨node, left⟩ := top
    have hedge : ∀ b ∈ left, Edge graph node b := fun b hb =>
      (hscanned ⟨node, left⟩ (by simp [hpath]) b).1 hb
    have hleft : left.dropWhile (s.between before later).isNumbered =
        left.dropWhile s.isNumbered :=
      dropWhile_congr fun b hb => isNumbered_between (hnew b (hclosed node b (hedge b hb)))
    cases hnext : left.dropWhile s.isNumbered with
    | nil =>
      rw [step?_close hpath hnext] at h
      rw [step?_close (s := s.between before later) hpath (hleft.trans hnext)]
      exact close?_between (hlookup node) (fun b hb => hnew b (hclosed node b hb)) h
    | cons successor rest =>
      have hmem : successor ∈ left.dropWhile s.isNumbered := by simp [hnext]
      rw [step?_open hpath hnext] at h
      rw [step?_open (s := s.between before later) hpath (hleft.trans hnext)]
      exact open?_between (hlookup successor)
        (hnew successor (hclosed node successor (hedge successor (List.dropWhile_subset _ hmem)))) h

theorem run?_between (before : Search α) (later : List α)
    (hlookup : ∀ a successors, graph.lookup a = some successors →
      whole.lookup a = some successors) (hnew : ∀ a, IsNode graph a → before.IsNew a)
    (hclosed : IsClosed graph) (hs : Valid graph s) (hscanned : Scanned graph s)
    (h : run? graph s = some t) :
    run? whole (s.between before later) = run? whole (t.between before later) := by
  refine run?_lift (P := fun s => Valid graph s ∧ Scanned graph s)
    (fun s => s.between before later) ?_ ⟨hs, hscanned⟩ h
  rintro s t ⟨hs, hscanned⟩ hover hstep
  obtain ⟨next, hnext, hvalid⟩ := hs.step hclosed hscanned
  rw [hstep] at hnext
  cases hnext
  refine ⟨?_, step?_between hlookup hnew hclosed hs hscanned hover hstep, hvalid⟩
  simp only [isOver, Bool.and_eq_false_iff, List.isEmpty_eq_false_iff] at hover ⊢
  exact hover.imp_right fun hsources => by simp [between, hsources]

end Between

/-- The search of a whole graph comes to an end with nothing open and nothing waiting. -/
theorem exists_run?_eq (hclosed : IsClosed graph) :
    ∃ s, run? graph { sources := graph.map (·.1) } = some s ∧ Valid graph s ∧
      s.path = [] ∧ s.sources = [] ∧ s.waiting = [] := by
  obtain ⟨s, hrun, hs, hover⟩ := (valid_start graph).run hclosed (by simp [Scanned])
  simp only [isOver, Bool.and_eq_true, List.isEmpty_iff] at hover
  refine ⟨s, hrun, hs, hover.1, hover.2, List.eq_nil_iff_forall_not_mem.2 fun w hw => ?_⟩
  obtain ⟨q, hq, -⟩ := hs.exists_open_lt hw
  simp [openNodes, hover.1] at hq

theorem Valid.isNew (hs : Valid graph s) {a : α} (ha : ¬ IsNode graph a) : s.IsNew a := by
  have hnumbered : ¬ s.isNumbered a := fun hnumbered => ha (hs.isNode_numbered a hnumbered)
  constructor
  · simpa [isNumbered] using hnumbered
  · intro hfound
    exact hnumbered ((hs.isNumbered_iff a).2 (Or.inr hfound))

omit [DecidableEq α] in
theorem between_start (later : List α) :
    between { sources := graph.map (·.1) } { sources := [] } later =
      { sources := graph.map (·.1) ++ later } := by
  simp [between]

omit [DecidableEq α] in
/-- Where the first search ends, the second one starts. -/
theorem between_end (hpath : s.path = []) (hsources : s.sources = []) (hwaiting : s.waiting = [])
    (later : List α) : s.between { sources := [] } later = between { sources := later } s [] := by
  obtain ⟨sources, path, numbers, lows, waiting, found⟩ := s
  cases hpath
  cases hsources
  cases hwaiting
  simp [between]

/-- The components of two graphs without a common node are those of the first and then those of the
second. -/
theorem components?_append (hclosed : IsClosed graph) (hclosed' : IsClosed graph')
    (hdisjoint : ∀ a, IsNode graph a → ¬ IsNode graph' a) :
    ∃ components components', components? graph = some components ∧
      components? graph' = some components' ∧
      components? (graph ++ graph') = some (components ++ components') := by
  obtain ⟨s, hrun, hs, hpath, hsources, hwaiting⟩ := exists_run?_eq hclosed
  obtain ⟨t, hrun', -, hpath', hsources', hwaiting'⟩ := exists_run?_eq hclosed'
  have hlookup : ∀ a successors, graph.lookup a = some successors →
      (graph ++ graph').lookup a = some successors := by
    intro a successors h
    rw [List.lookup_append, h, Option.some_or]
  have hlookup' : ∀ a successors, graph'.lookup a = some successors →
      (graph ++ graph').lookup a = some successors := by
    intro a successors h
    have hnone : graph.lookup a = none := by
      rw [Option.eq_none_iff_forall_ne_some]
      intro other hother
      exact hdisjoint a ⟨other, hother⟩ ⟨successors, h⟩
    rw [List.lookup_append, hnone, Option.none_or, h]
  have hnew : ∀ a, IsNode graph' a → s.IsNew a := by
    intro a ha
    exact hs.isNew fun hnode => hdisjoint a hnode ha
  have hfirst := run?_between { sources := [] } (graph'.map (·.1)) hlookup
    (fun a _ => ⟨rfl, by simp [IsFound]⟩) hclosed (valid_start graph) (by simp [Scanned]) hrun
  have hsecond := run?_between s [] hlookup' hnew hclosed' (valid_start graph') (by simp [Scanned])
    hrun'
  rw [between_start, between_end hpath hsources hwaiting, hsecond] at hfirst
  have hover : (t.between s []).isOver := by simp [isOver, between, hpath', hsources']
  rw [run?_of_isOver hover, ← List.map_append] at hfirst
  refine ⟨s.found.reverse, t.found.reverse, by simp [components?, hrun],
    by simp [components?, hrun'], ?_⟩
  simp only [components?, hfirst]
  simp [between]

end Search

namespace Digraph

/-- Names of one part of a graph are put in the same order by the part and by the whole. -/
theorem mapM_inNodeOrder?_of_part {g part : Digraph}
    (hpart : g.nodes.filter (· ∈ part.nodes) = part.nodes) {found : List (List String)}
    (hfound : Search.components? part.adjacency = some found) :
    found.mapM g.inNodeOrder? = some part.components := by
  obtain ⟨other, hother, -, hmem⟩ := Search.exists_components?_eq part.isClosed_adjacency
  rw [hfound] at hother
  cases hother
  have hnames : ∀ names ∈ found, ∀ name ∈ names, name ∈ part.nodes := fun names hnames name hname =>
    isNode_adjacency.1 ((hmem name).1 (List.mem_flatten.2 ⟨names, hnames, hname⟩))
  have hwhole : ∀ names ∈ found, ∀ name ∈ names, name ∈ g.nodes := by
    intro names hmem name hname
    have hname := hnames names hmem name hname
    rw [← hpart] at hname
    exact List.mem_of_mem_filter hname
  have hsame : ∀ names ∈ found,
      g.nodes.filter (· ∈ names) = part.nodes.filter (· ∈ names) := by
    intro names hmem
    rw [← hpart, List.filter_filter]
    refine List.filter_congr fun name _ => ?_
    by_cases hname : name ∈ names
    · simp [hname, hnames names hmem name hname]
    · simp [hname]
  have hcomponents : part.components? = found.mapM part.inNodeOrder? := by
    rw [components?, hfound]
    rfl
  rw [← part.components?_eq_some, hcomponents, mapM_inNodeOrder? hnames, mapM_inNodeOrder? hwhole,
    List.map_congr_left hsame]

/-- The nodes of one graph and then those of another, each with the successors that it has there. -/
structure IsUnion (g first second : Digraph) : Prop where
  nodes : g.nodes = first.nodes ++ second.nodes
  successors_first : ∀ node ∈ first.nodes, g.successors node = first.successors node
  successors_second : ∀ node ∈ second.nodes, g.successors node = second.successors node

namespace IsUnion

variable {g first second : Digraph}

theorem disjoint (h : g.IsUnion first second) : first.nodes.Disjoint second.nodes := by
  have hnodup := g.nodup_nodes
  rw [h.nodes] at hnodup
  exact List.disjoint_of_nodup_append hnodup

theorem adjacency (h : g.IsUnion first second) :
    g.adjacency = first.adjacency ++ second.adjacency := by
  rw [Digraph.adjacency, h.nodes, List.map_append]
  congr 1
  · exact List.map_congr_left fun node hnode => by rw [h.successors_first node hnode]
  · exact List.map_congr_left fun node hnode => by rw [h.successors_second node hnode]

theorem components (h : g.IsUnion first second) :
    g.components = first.components ++ second.components := by
  have hfilter_first : g.nodes.filter (· ∈ first.nodes) = first.nodes := by
    have hsecond : second.nodes.filter (· ∈ first.nodes) = [] := by
      rw [List.filter_eq_nil_iff]
      intro name hname hmem
      exact h.disjoint (of_decide_eq_true hmem) hname
    rw [h.nodes, List.filter_append, hsecond, List.append_nil]
    exact List.filter_eq_self.2 fun name hname => decide_eq_true hname
  have hfilter_second : g.nodes.filter (· ∈ second.nodes) = second.nodes := by
    have hfirst : first.nodes.filter (· ∈ second.nodes) = [] := by
      rw [List.filter_eq_nil_iff]
      intro name hname hmem
      exact h.disjoint hname (of_decide_eq_true hmem)
    rw [h.nodes, List.filter_append, hfirst, List.nil_append]
    exact List.filter_eq_self.2 fun name hname => decide_eq_true hname
  obtain ⟨found, found', hfound, hfound', hboth⟩ := Search.components?_append
    first.isClosed_adjacency second.isClosed_adjacency fun a ha ha' =>
      h.disjoint (isNode_adjacency.1 ha) (isNode_adjacency.1 ha')
  rw [← h.adjacency] at hboth
  have hfirst := mapM_inNodeOrder?_of_part hfilter_first hfound
  have hsecond := mapM_inNodeOrder?_of_part hfilter_second hfound'
  have hcomponents : g.components? = some (first.components ++ second.components) := by
    simp [components?, hboth, List.mapM_append, hfirst, hsecond]
  exact Option.some.inj (g.components?_eq_some.symm.trans hcomponents)

theorem cycles (h : g.IsUnion first second) : g.cycles = first.cycles ++ second.cycles := by
  rw [Digraph.cycles, h.components]
  exact List.filter_append _ _

end IsUnion

end Digraph

end DesignMetrics
