import DesignMetrics.Digraph.Basic
import DesignMetrics.Proofs.Model.EdgeMap

/-!
# The edges of a graph

A graph is made from its nodes by attempts to add edges. It keeps the admitted attempts, each at its
first place. So its views are views of a list of attempts: the successors of a node depend on the
attempts from that node alone, and the degrees on which attempts there are.
-/

namespace DesignMetrics.Digraph

def addAll (g : Digraph) (attempts : List (String × String)) : Digraph :=
  attempts.foldl (fun g attempt => g.addEdge attempt.1 attempt.2) g

def admitted (g : Digraph) (attempts : List (String × String)) : List (String × String) :=
  attempts.filter fun attempt => decide (g.Admits attempt.1 attempt.2)

@[simp] theorem addAll_nil (g : Digraph) : g.addAll [] = g := rfl

@[simp] theorem addAll_cons (g : Digraph) (attempt : String × String)
    (attempts : List (String × String)) :
    g.addAll (attempt :: attempts) = (g.addEdge attempt.1 attempt.2).addAll attempts :=
  rfl

theorem addAll_append (g : Digraph) (first second : List (String × String)) :
    g.addAll (first ++ second) = (g.addAll first).addAll second :=
  List.foldl_append

theorem addEdges_eq_addAll (g : Digraph) (source : String) (targets : List String) :
    g.addEdges source targets = g.addAll (targets.map (source, ·)) := by
  rw [addEdges, addAll, List.foldl_map]

/-- Attempts from several sources are attempts one after the other. -/
theorem foldl_addEdges {β : Type} (source : β → String) (targets : β → List String) (g : Digraph)
    (items : List β) :
    items.foldl (fun g item => g.addEdges (source item) (targets item)) g =
      g.addAll (items.flatMap fun item => (targets item).map (source item, ·)) := by
  induction items generalizing g with
  | nil => rfl
  | cons item rest ih =>
    rw [List.foldl_cons, ih, List.flatMap_cons, addAll_append, addEdges_eq_addAll]

theorem ofAdjacency_eq (names : List String) (m : EdgeMap) :
    ofAdjacency names m.adjacency = (ofNodes names).addAll m.pairs :=
  foldl_addEdges Prod.fst Prod.snd (ofNodes names) m.adjacency

@[simp] theorem nodes_ofNodes (names : List String) :
    (ofNodes names).nodes = firstOccurrences names :=
  rfl

@[simp] theorem nodes_addEdge (g : Digraph) (source target : String) :
    (g.addEdge source target).nodes = g.nodes := by
  unfold addEdge
  split
  · split <;> rfl
  · rfl

@[simp] theorem nodes_addAll (g : Digraph) (attempts : List (String × String)) :
    (g.addAll attempts).nodes = g.nodes := by
  induction attempts generalizing g with
  | nil => rfl
  | cons attempt rest ih => rw [addAll_cons, ih, nodes_addEdge]

theorem admits_iff_of_nodes {g g' : Digraph} (h : g.nodes = g'.nodes) (source target : String) :
    g.Admits source target ↔ g'.Admits source target := by
  rw [Admits, Admits, h]

theorem admitted_of_nodes {g g' : Digraph} (h : g.nodes = g'.nodes)
    (attempts : List (String × String)) : g.admitted attempts = g'.admitted attempts :=
  List.filter_congr fun attempt _ => by simp [admits_iff_of_nodes h]

theorem dropped_addEdge (g : Digraph) (source target : String) :
    (g.addEdge source target).dropped =
      if g.Admits source target then g.dropped else g.dropped + 1 := by
  unfold addEdge
  by_cases hadmits : g.Admits source target
  · by_cases hmem : (source, target) ∈ g.arcs <;> simp [hadmits, hmem]
  · simp [hadmits]

/-- The attempts that were not admitted are counted, each time they come. -/
theorem dropped_addAll (g : Digraph) (attempts : List (String × String)) :
    (g.addAll attempts).dropped =
      g.dropped + attempts.countP fun attempt => !decide (g.Admits attempt.1 attempt.2) := by
  induction attempts generalizing g with
  | nil => rfl
  | cons attempt rest ih =>
    have hrest : ∀ a : String × String,
        (g.addEdge attempt.1 attempt.2).Admits a.1 a.2 ↔ g.Admits a.1 a.2 := fun a =>
      admits_iff_of_nodes (nodes_addEdge g attempt.1 attempt.2) a.1 a.2
    rw [addAll_cons, ih, dropped_addEdge, List.countP_cons]
    simp only [hrest]
    by_cases hadmits : g.Admits attempt.1 attempt.2
    · simp [hadmits]
    · simp [hadmits]
      omega

theorem arcs_addEdge (g : Digraph) (source target : String) :
    (g.addEdge source target).arcs =
      if g.Admits source target ∧ (source, target) ∉ g.arcs then g.arcs ++ [(source, target)]
      else g.arcs := by
  unfold addEdge
  by_cases hadmits : g.Admits source target
  · by_cases hmem : (source, target) ∈ g.arcs <;> simp [hadmits, hmem]
  · simp [hadmits]

/-- The edges after some attempts: first those that were there, then the new ones as they came. -/
theorem arcs_addAll (g : Digraph) (attempts : List (String × String)) :
    (g.addAll attempts).arcs =
      g.arcs ++ (firstOccurrences (g.admitted attempts)).filter (· ∉ g.arcs) := by
  induction attempts generalizing g with
  | nil => simp [admitted, firstOccurrences]
  | cons attempt rest ih =>
    obtain ⟨source, target⟩ := attempt
    rw [addAll_cons, ih, admitted_of_nodes (nodes_addEdge g source target), arcs_addEdge]
    by_cases hadmits : g.Admits source target
    · have hadmitted :
          g.admitted ((source, target) :: rest) = (source, target) :: g.admitted rest :=
        List.filter_cons_of_pos (by simpa using hadmits)
      rw [hadmitted, firstOccurrences]
      by_cases hmem : (source, target) ∈ g.arcs
      · have hne : ∀ arc, arc ∉ g.arcs → arc ≠ (source, target) := fun arc harc heq =>
          harc (heq ▸ hmem)
        simp only [hmem, not_true_eq_false, and_false, if_false, List.filter_cons, decide_false,
          Bool.false_eq_true, List.filter_filter]
        congr 1
        refine List.filter_congr fun arc _ => ?_
        by_cases harc : arc ∈ g.arcs
        · simp [harc]
        · simp [harc, hne arc harc]
      · simp [hadmits, hmem, List.filter_filter]
    · have hadmitted : g.admitted ((source, target) :: rest) = g.admitted rest :=
        List.filter_cons_of_neg (by simpa using hadmits)
      simp [hadmits, hadmitted]

theorem arcs_ofNodes_addAll (names : List String) (attempts : List (String × String)) :
    ((ofNodes names).addAll attempts).arcs =
      firstOccurrences ((ofNodes names).admitted attempts) := by
  rw [arcs_addAll]
  simp [ofNodes]

theorem mem_arcs_addAll {names : List String} {attempts : List (String × String)}
    {source target : String} :
    (source, target) ∈ ((ofNodes names).addAll attempts).arcs ↔
      (source ≠ target ∧ source ∈ names ∧ target ∈ names) ∧ (source, target) ∈ attempts := by
  rw [arcs_ofNodes_addAll, mem_firstOccurrences, admitted, List.mem_filter]
  simp [Admits, and_comm]

theorem mem_successors {g : Digraph} {source target : String} :
    target ∈ g.successors source ↔ (source, target) ∈ g.arcs := by
  simp [successors]

theorem mem_predecessors {g : Digraph} {source target : String} :
    source ∈ g.predecessors target ↔ (source, target) ∈ g.arcs := by
  simp [predecessors]

/-- The successors of a node are its admitted attempts as they first came. -/
theorem successors_ofNodes_addAll (names : List String) (attempts : List (String × String))
    (node : String) :
    ((ofNodes names).addAll attempts).successors node =
      firstOccurrences ((((ofNodes names).admitted attempts).filter (·.1 = node)).map (·.2)) := by
  rw [successors, arcs_ofNodes_addAll]
  exact firstOccurrences_filter_map node fun _ _ hsource htarget => Prod.ext hsource htarget

theorem predecessors_ofNodes_addAll (names : List String) (attempts : List (String × String))
    (node : String) :
    ((ofNodes names).addAll attempts).predecessors node =
      firstOccurrences ((((ofNodes names).admitted attempts).filter (·.2 = node)).map (·.1)) := by
  rw [predecessors, arcs_ofNodes_addAll]
  exact firstOccurrences_filter_map node fun _ _ htarget hsource => Prod.ext hsource htarget

/-- In the graph of an edge map the successors of a node are its admitted targets, ascending. -/
theorem successors_ofAdjacency (names : List String) (m : EdgeMap) (node : String) :
    (ofAdjacency names m.adjacency).successors node =
      (m.targets node).names.filter fun target => decide ((ofNodes names).Admits node target) := by
  have hswap : ((ofNodes names).admitted m.pairs).filter (·.1 = node) =
      (ofNodes names).admitted (m.pairs.filter (·.1 = node)) := by
    simp only [admitted, List.filter_filter, Bool.and_comm]
  rw [ofAdjacency_eq, successors_ofNodes_addAll, hswap, EdgeMap.pairs_filter_source, admitted,
    List.filter_map, List.map_map]
  have hsnd : ((·.2) : String × String → String) ∘ (node, ·) = id := rfl
  rw [hsnd, List.map_id]
  exact firstOccurrences_of_nodup ((m.targets node).nodup_names.filter _)

/-! ## Degrees -/

theorem outDegree_eq_countP (g : Digraph) (node : String) :
    g.outDegree node = g.arcs.countP (·.1 = node) := by
  simp [outDegree, successors, List.countP_eq_length_filter]

theorem inDegree_eq_countP (g : Digraph) (node : String) :
    g.inDegree node = g.arcs.countP (·.2 = node) := by
  simp [inDegree, predecessors, List.countP_eq_length_filter]

/-- A node with the same number of edges out of it and into it in two graphs. -/
def SameDegreesAt (g g' : Digraph) (node : String) : Prop :=
  g.outDegree node = g'.outDegree node ∧ g.inDegree node = g'.inDegree node

/-- Two graphs in which every node has the same number of edges out of it and into it. -/
def SameDegrees (g g' : Digraph) : Prop :=
  ∀ node, g.outDegree node = g'.outDegree node ∧ g.inDegree node = g'.inDegree node

theorem SameDegrees.refl (g : Digraph) : g.SameDegrees g := fun _ => ⟨rfl, rfl⟩

theorem sameDegrees_of_arcs {g g' : Digraph} (h : ∀ arc, arc ∈ g.arcs ↔ arc ∈ g'.arcs) :
    g.SameDegrees g' := by
  intro node
  have hperm := (List.perm_ext_iff_of_nodup g.nodup_arcs g'.nodup_arcs).2 h
  simp only [outDegree_eq_countP, inDegree_eq_countP]
  exact ⟨hperm.countP_eq _, hperm.countP_eq _⟩

end DesignMetrics.Digraph
