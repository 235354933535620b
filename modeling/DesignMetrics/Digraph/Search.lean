/-!
# Search for strongly connected components

A depth-first search over the lists of successors of a graph. Nodes are numbered in the order in
which the search comes to them, and a node stays open while it has successors left to look at. A
node with none left is closed: its low number is the least one among its own number and what its
successors lead back to. When the two are the same, the node and the closed nodes with greater
numbers that are in no component yet are a component; else the node waits. So a component is
complete before any component from which an edge leads into it.

A lookup of a node that is not there ends the search without a result.
-/

namespace DesignMetrics

/-- A node on the search path, with the successors left to look at. -/
structure OpenNode (α : Type) where
  node : α
  left : List α

/-- The state of a search. All lists but the sources have the latest entry first. -/
structure Search (α : Type) where
  /-- The nodes that the search has not been started from. -/
  sources : List α
  path : List (OpenNode α) := []
  numbers : List (α × Nat) := []
  lows : List (α × Nat) := []
  /-- The closed nodes that are in no component yet. -/
  waiting : List α := []
  found : List (List α) := []

namespace Search

variable {α : Type} [DecidableEq α]

def number? (s : Search α) (node : α) : Option Nat := s.numbers.lookup node

def low? (s : Search α) (node : α) : Option Nat := s.lows.lookup node

def isNumbered (s : Search α) (node : α) : Bool := (s.number? node).isSome

def IsFound (s : Search α) (node : α) : Prop := ∃ component ∈ s.found, node ∈ component

instance (s : Search α) (node : α) : Decidable (s.IsFound node) :=
  inferInstanceAs (Decidable (∃ component ∈ s.found, node ∈ component))

/-- Give a node the next number, unless it has one. -/
def numbered (s : Search α) (node : α) : Search α :=
  if s.isNumbered node then s
  else { s with numbers := (node, s.numbers.length + 1) :: s.numbers }

/-- Number a node and put it on the path with all its successors. -/
def opened (s : Search α) (node : α) (successors : List α) : Search α :=
  { s.numbered node with path := ⟨node, successors⟩ :: s.path }

def open? (graph : List (α × List α)) (s : Search α) (node : α) : Option (Search α) := do
  return s.opened node (← graph.lookup node)

/-- What an edge leads back to: the low number of its head if that was numbered after the tail,
whose number is given, and else the number of the head. -/
def back? (s : Search α) (own : Nat) (head : α) : Option Nat := do
  let number ← s.number? head
  if own < number then s.low? head else return number

/-- The least of a number and of what the edges to some successors lead back to. Successors in
components are left out. -/
def lowest? (s : Search α) (own low : Nat) : List α → Option Nat
  | [] => some low
  | node :: rest =>
    if s.IsFound node then lowest? s own low rest
    else do lowest? s own (min low (← s.back? own node)) rest

/-- Split a list before its first node whose number is not above the given one. -/
def splitAbove? (s : Search α) (own : Nat) : List α → Option (List α × List α)
  | [] => some ([], [])
  | node :: rest => do
    let number ← s.number? node
    if own < number then
      let (above, below) ← splitAbove? s own rest
      return (node :: above, below)
    else return ([], node :: rest)

def close? (graph : List (α × List α)) (s : Search α) (node : α) (below : List (OpenNode α)) :
    Option (Search α) := do
  let own ← s.number? node
  let low ← s.lowest? own own (← graph.lookup node)
  let closed := { s with path := below, lows := (node, low) :: s.lows }
  if low = own then
    let (above, waiting) ← s.splitAbove? own s.waiting
    return { closed with waiting, found := (node :: above) :: s.found }
  else return { closed with waiting := node :: s.waiting }

/-- One step: go on to the first successor without a number, close a node that has none left, or
look at the next source. -/
def step? (graph : List (α × List α)) (s : Search α) : Option (Search α) :=
  match s.path with
  | ⟨node, left⟩ :: below =>
    match left.dropWhile s.isNumbered with
    | successor :: left => open? graph { s with path := ⟨node, left⟩ :: below } successor
    | [] => close? graph s node below
  | [] =>
    match s.sources with
    | source :: sources =>
      if s.IsFound source then some { s with sources } else open? graph { s with sources } source
    | [] => some s

def isOver (s : Search α) : Bool := s.path.isEmpty && s.sources.isEmpty

/-! ## Every search ends -/

def freshCount (graph : List (α × List α)) (s : Search α) : Nat :=
  graph.countP fun entry => !s.isNumbered entry.1

/-- A bound on the number of steps left: every open node is closed once, and a node is opened for a
source or for want of a number. -/
def cost (graph : List (α × List α)) (s : Search α) : Nat :=
  2 * s.freshCount graph + 2 * s.sources.length + s.path.length

theorem number?_numbered (s : Search α) (node a : α) :
    (s.numbered node).number? a =
      if a = node ∧ s.number? node = none then some (s.numbers.length + 1) else s.number? a := by
  unfold numbered isNumbered
  cases h : s.number? node with
  | some number => simp
  | none =>
    by_cases ha : a = node
    · simp [number?, ha]
    · have hne : (a == node) = false := by simpa using ha
      simp [number?, ha, List.lookup_cons, hne]

@[simp] theorem sources_numbered (s : Search α) (node : α) :
    (s.numbered node).sources = s.sources := by
  unfold numbered; split <;> rfl

theorem isNumbered_numbered (s : Search α) (node a : α) :
    (s.numbered node).isNumbered a = (decide (a = node) || s.isNumbered a) := by
  unfold isNumbered
  rw [number?_numbered]
  by_cases ha : a = node
  · subst ha
    cases h : s.number? a <;> simp
  · simp [ha]

theorem countP_lt_of_imp {β : Type} {p q : β → Bool} (h : ∀ b, p b = true → q b = true)
    {l : List β} {b : β} (hb : b ∈ l) (hp : p b = false) (hq : q b = true) :
    l.countP p < l.countP q := by
  induction l with
  | nil => simp at hb
  | cons first rest ih =>
    rcases List.mem_cons.1 hb with rfl | hb
    · rw [List.countP_cons, List.countP_cons, hp, hq]
      have : rest.countP p ≤ rest.countP q := List.countP_mono_left fun b _ => h b
      simp
      omega
    · rw [List.countP_cons, List.countP_cons]
      have := ih hb
      have := h first
      cases hfirst : p first <;> simp_all
      split <;> omega

theorem freshCount_numbered_le (graph : List (α × List α)) (s : Search α) (node : α) :
    (s.numbered node).freshCount graph ≤ s.freshCount graph := by
  refine List.countP_mono_left fun entry _ h => ?_
  rw [isNumbered_numbered] at h
  simp at h ⊢
  exact h.2

theorem freshCount_numbered_lt {graph : List (α × List α)} {s : Search α} {node : α}
    {successors : List α} (hnode : graph.lookup node = some successors)
    (hfresh : s.isNumbered node = false) :
    (s.numbered node).freshCount graph < s.freshCount graph := by
  obtain ⟨before, after, rfl, _⟩ := List.lookup_eq_some_iff.1 hnode
  refine countP_lt_of_imp (fun entry h => ?_) (b := (node, successors)) (by simp) ?_ ?_
  · rw [isNumbered_numbered] at h
    simp at h ⊢
    exact h.2
  · simp [isNumbered_numbered]
  · simp [hfresh]

theorem cost_open? {graph : List (α × List α)} {s s' : Search α} {node : α}
    (h : open? graph s node = some s') :
    s'.sources = s.sources ∧ s'.path.length = s.path.length + 1 ∧
      s'.freshCount graph ≤ s.freshCount graph ∧
      (s.isNumbered node = false → s'.freshCount graph < s.freshCount graph) := by
  simp only [open?, opened, Option.bind_eq_bind, Option.bind_eq_some_iff, Option.pure_def,
    Option.some.injEq] at h
  obtain ⟨successors, hnode, rfl⟩ := h
  exact ⟨by simp, by simp, freshCount_numbered_le graph s node,
    fun hfresh => freshCount_numbered_lt hnode hfresh⟩

theorem cost_close? {graph : List (α × List α)} {s s' : Search α} {node : α}
    {below : List (OpenNode α)} (h : close? graph s node below = some s') :
    s'.sources = s.sources ∧ s'.path = below ∧ s'.numbers = s.numbers := by
  simp only [close?, Option.bind_eq_bind, Option.bind_eq_some_iff, Option.pure_def] at h
  obtain ⟨own, -, successors, -, low, -, h⟩ := h
  split at h
  · simp only [Option.bind_eq_some_iff, Option.some.injEq] at h
    obtain ⟨split, -, rfl⟩ := h
    exact ⟨rfl, rfl, rfl⟩
  · cases h
    exact ⟨rfl, rfl, rfl⟩

theorem cost_step? {graph : List (α × List α)} {s s' : Search α} (hover : s.isOver = false)
    (h : step? graph s = some s') : s'.cost graph < s.cost graph := by
  obtain ⟨sources, path, numbers, lows, waiting, found⟩ := s
  unfold step? at h
  dsimp only at h
  split at h
  · rename_i node left below
    split at h
    · rename_i successor rest hleft
      have hfresh := List.head?_dropWhile_not
        (isNumbered ⟨sources, ⟨node, left⟩ :: below, numbers, lows, waiting, found⟩) left
      rw [hleft] at hfresh
      obtain ⟨hsources, hpath, -, hlt⟩ := cost_open? h
      have hlt := hlt hfresh
      simp only [cost, hsources, hpath, List.length_cons] at hlt ⊢
      have : freshCount graph ⟨sources, ⟨node, rest⟩ :: below, numbers, lows, waiting, found⟩ =
        freshCount graph ⟨sources, ⟨node, left⟩ :: below, numbers, lows, waiting, found⟩ := rfl
      omega
    · obtain ⟨hsources, hpath, hnumbers⟩ := cost_close? h
      have : freshCount graph s' =
          freshCount graph ⟨sources, ⟨node, left⟩ :: below, numbers, lows, waiting, found⟩ := by
        simp only [freshCount, isNumbered, number?, hnumbers]
      simp only [cost, hsources, hpath, this, List.length_cons]
      omega
  · split at h
    · rename_i source rest
      split at h
      · cases h
        simp only [cost, freshCount, isNumbered, number?, List.length_cons]
        omega
      · obtain ⟨hsources, hpath, hle, -⟩ := cost_open? h
        simp only [cost, hsources, hpath, List.length_cons] at hle ⊢
        have : freshCount graph ⟨rest, [], numbers, lows, waiting, found⟩ =
          freshCount graph ⟨source :: rest, [], numbers, lows, waiting, found⟩ := rfl
        omega
    · simp [isOver] at hover

/-- The state in which the search is over, unless a lookup fails. -/
def run? (graph : List (α × List α)) (s : Search α) : Option (Search α) :=
  if _hover : s.isOver then some s
  else
    match _h : step? graph s with
    | none => none
    | some s' => run? graph s'
termination_by s.cost graph
decreasing_by exact cost_step? (by simpa using _hover) _h

/-- The components of a graph in the order in which the search completes them. -/
def components? (graph : List (α × List α)) : Option (List (List α)) := do
  let s ← run? graph { sources := graph.map (·.1) }
  return s.found.reverse

end Search

end DesignMetrics
