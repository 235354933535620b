import DesignMetrics.Proofs.Digraph.Arcs

/-!
# Graphs and the calls that made them

A graph is changed by calls that add one edge, or the edges from one source to some targets. A call
comes down to attempts to add single edges, and of these the graph keeps the ones that join two
different nodes. All that can be read off a graph is read off the attempts of all its calls: the
nodes stay what they were, the two lists of neighbours hold the kept attempts as they first came,
the edges are the kept attempts without repeats, and the others are counted.
-/

namespace DesignMetrics

/-- A call that adds edges to a graph. -/
inductive Addition where
  | edge (source target : String)
  | edges (source : String) (targets : Targets)

/-- The single edges that a call tries to add, in order. -/
def Addition.attempts : Addition → List (String × String)
  | edge source target => [(source, target)]
  | edges source targets => targets.ordered.map (source, ·)

/-- How some targets are to be read: without gaps, and those of a set once each and ascending. -/
def Targets.ReadAs : Targets → List String → Prop
  | absent, names => names = []
  | sequence items, names => names.map some = items.filter Option.isSome
  | unordered items, names => names.Pairwise (· < ·) ∧ ∀ name, name ∈ names ↔ some name ∈ items

theorem Targets.readAs_ordered (targets : Targets) : targets.ReadAs targets.ordered := by
  cases targets with
  | absent => rfl
  | sequence items =>
    show (items.filterMap id).map some = items.filter Option.isSome
    induction items with
    | nil => rfl
    | cons item rest ih =>
      cases item with
      | none => exact ih
      | some name => exact congrArg (some name :: ·) ih
  | unordered items =>
    refine ⟨(NameSet.ofList (items.filterMap id)).ascending, fun name => ?_⟩
    have hmem : name ∈ NameSet.ofList (items.filterMap id) ↔ name ∈ items.filterMap id :=
      NameSet.mem_ofList
    exact hmem.trans (by simp)

/-- Whether an attempt joins two different ones of some names. -/
def Joins (names : List String) (attempt : String × String) : Prop :=
  attempt.1 ≠ attempt.2 ∧ attempt.1 ∈ names ∧ attempt.2 ∈ names

instance (names : List String) (attempt : String × String) : Decidable (Joins names attempt) :=
  inferInstanceAs (Decidable (_ ∧ _ ∧ _))

def joining (names : List String) (attempts : List (String × String)) : List (String × String) :=
  attempts.filter fun attempt => decide (Joins names attempt)

namespace Digraph

/-! ## Calls -/

def perform (g : Digraph) : Addition → Digraph
  | .edge source target => g.addEdge source target
  | .edges source targets => g.addEdges source targets.ordered

/-- What a call answers: how many edges it asked for are there afterwards. -/
def answer (g : Digraph) : Addition → Nat
  | .edge source target => if g.Admits source target then 1 else 0
  | .edges source targets => g.admittedCount source targets.ordered

def performAll (g : Digraph) (calls : List Addition) : Digraph := calls.foldl perform g

/-- The sum of the answers to some calls, each of them given by the graph as it is then. -/
def answerTotal (g : Digraph) : List Addition → Nat
  | [] => 0
  | call :: rest => g.answer call + (g.perform call).answerTotal rest

theorem perform_eq (g : Digraph) (call : Addition) : g.perform call = g.addAll call.attempts := by
  cases call with
  | edge source target => rfl
  | edges source targets => exact addEdges_eq_addAll g source targets.ordered

theorem answer_eq (g : Digraph) (call : Addition) :
    g.answer call = (g.admitted call.attempts).length := by
  cases call with
  | edge source target =>
    by_cases hadmits : g.Admits source target <;>
      simp [answer, admitted, Addition.attempts, hadmits]
  | edges source targets =>
    simp [answer, admitted, Addition.attempts, admittedCount, List.countP_eq_length_filter,
      List.filter_map, Function.comp_def]

theorem performAll_eq (g : Digraph) (calls : List Addition) :
    g.performAll calls = g.addAll (calls.flatMap Addition.attempts) := by
  induction calls generalizing g with
  | nil => rfl
  | cons call rest ih =>
    rw [List.flatMap_cons, addAll_append, ← perform_eq, ← ih]
    rfl

theorem answerTotal_eq (g : Digraph) (calls : List Addition) :
    g.answerTotal calls = (g.admitted (calls.flatMap Addition.attempts)).length := by
  induction calls generalizing g with
  | nil => rfl
  | cons call rest ih =>
    have hnodes : (g.perform call).nodes = g.nodes := by rw [perform_eq, nodes_addAll]
    rw [answerTotal, ih, answer_eq, admitted_of_nodes hnodes, List.flatMap_cons, admitted, admitted,
      admitted, List.filter_append, List.length_append]

/-! ## Edges in node order -/

theorem nodup_successors (g : Digraph) (node : String) : (g.successors node).Nodup := by
  refine (g.nodup_arcs.filter _).map_on fun a ha b hb htarget => ?_
  rw [List.mem_filter, decide_eq_true_eq] at ha hb
  exact Prod.ext (ha.2.trans hb.2.symm) htarget

theorem nodup_predecessors (g : Digraph) (node : String) : (g.predecessors node).Nodup := by
  refine (g.nodup_arcs.filter _).map_on fun a ha b hb hsource => ?_
  rw [List.mem_filter, decide_eq_true_eq] at ha hb
  exact Prod.ext hsource (ha.2.trans hb.2.symm)

theorem mem_edges {g : Digraph} {arc : String × String} : arc ∈ g.edges ↔ arc ∈ g.arcs := by
  obtain ⟨source, target⟩ := arc
  simp only [edges, List.mem_flatMap, List.mem_map, Prod.mk.injEq]
  constructor
  · rintro ⟨_, -, _, htarget, rfl, rfl⟩
    exact mem_successors.1 htarget
  · intro harc
    exact ⟨source, (g.ends _ harc).2.1, target, mem_successors.2 harc, rfl, rfl⟩

theorem nodup_edges (g : Digraph) : g.edges.Nodup := by
  rw [edges, List.nodup_flatMap]
  refine ⟨fun node _ => ?_, ?_⟩
  · exact (g.nodup_successors node).map fun a b h => (Prod.mk.inj h).2
  · refine g.nodup_nodes.imp fun {a b} hne arc ha hb => hne ?_
    obtain ⟨_, -, rfl⟩ := List.mem_map.1 ha
    obtain ⟨_, -, heq⟩ := List.mem_map.1 hb
    exact (Prod.mk.inj heq).1.symm

theorem edges_perm_arcs (g : Digraph) : g.edges.Perm g.arcs :=
  (List.perm_ext_iff_of_nodup g.nodup_edges g.nodup_arcs).2 fun _ => mem_edges

/-! ## The record of all calls -/

theorem admits_ofNodes {names : List String} {attempt : String × String} :
    (ofNodes names).Admits attempt.1 attempt.2 ↔ Joins names attempt := by
  simp [Admits, Joins]

theorem admitted_ofNodes (names : List String) (attempts : List (String × String)) :
    (ofNodes names).admitted attempts = joining names attempts :=
  List.filter_congr fun _ _ => by rw [decide_eq_decide, admits_ofNodes]

/-- What a graph on some names shows of the attempts to add edges to it. -/
structure Records (names : List String) (attempts : List (String × String)) (g : Digraph) :
    Prop where
  nodes : g.nodes = firstOccurrences names
  successors : ∀ node, g.successors node =
    firstOccurrences (((joining names attempts).filter (·.1 = node)).map (·.2))
  predecessors : ∀ node, g.predecessors node =
    firstOccurrences (((joining names attempts).filter (·.2 = node)).map (·.1))
  mem_successors_iff : ∀ source target,
    target ∈ g.successors source ↔ source ∈ g.predecessors target
  outDegree : ∀ node, g.outDegree node = (g.successors node).length
  inDegree : ∀ node, g.inDegree node = (g.predecessors node).length
  degrees_of_not_mem : ∀ node, node ∉ names → g.outDegree node = 0 ∧ g.inDegree node = 0
  edges : g.edges = g.nodes.flatMap fun node => (g.successors node).map (node, ·)
  mem_edges_iff : ∀ arc, arc ∈ g.edges ↔ arc ∈ joining names attempts
  nodup_edges : g.edges.Nodup
  edgeCount : g.edgeCount = g.edges.length
  dropped : g.dropped = attempts.countP fun attempt => ¬ Joins names attempt

theorem degrees_of_not_mem {g : Digraph} {node : String} (hnot : node ∉ g.nodes) :
    g.outDegree node = 0 ∧ g.inDegree node = 0 := by
  rw [outDegree_eq_countP, inDegree_eq_countP, List.countP_eq_zero, List.countP_eq_zero]
  constructor
  · intro arc harc hsource
    rw [decide_eq_true_eq] at hsource
    exact hnot (hsource ▸ (g.ends arc harc).2.1)
  · intro arc harc htarget
    rw [decide_eq_true_eq] at htarget
    exact hnot (htarget ▸ (g.ends arc harc).2.2)

theorem records_addAll (names : List String) (attempts : List (String × String)) :
    Records names attempts ((ofNodes names).addAll attempts) where
  nodes := by rw [nodes_addAll, nodes_ofNodes]
  successors node := by rw [successors_ofNodes_addAll, admitted_ofNodes]
  predecessors node := by rw [predecessors_ofNodes_addAll, admitted_ofNodes]
  mem_successors_iff _ _ := mem_successors.trans mem_predecessors.symm
  outDegree _ := rfl
  inDegree _ := rfl
  degrees_of_not_mem node hnot := by
    apply degrees_of_not_mem
    rwa [nodes_addAll, nodes_ofNodes, mem_firstOccurrences]
  edges := rfl
  mem_edges_iff arc := by
    rw [mem_edges, arcs_ofNodes_addAll, mem_firstOccurrences, admitted_ofNodes]
  nodup_edges := nodup_edges _
  edgeCount := (edges_perm_arcs _).length_eq.symm
  dropped := by
    rw [dropped_addAll]
    show 0 + _ = _
    rw [Nat.zero_add]
    exact List.countP_congr fun attempt _ => by simp [admits_ofNodes]

/-- After any calls a graph shows the attempts of these calls: it is known from the names it was
made with and from the calls, and each call has answered for the attempts it kept. The attempts
stand in the order in which the targets are to be read. -/
theorem records_performAll (names : List String) (calls : List Addition) :
    Records names (calls.flatMap Addition.attempts) ((ofNodes names).performAll calls) ∧
      (ofNodes names).answerTotal calls =
        (joining names (calls.flatMap Addition.attempts)).length ∧
      ∀ targets : Targets, targets.ReadAs targets.ordered := by
  rw [performAll_eq, answerTotal_eq, admitted_ofNodes]
  exact ⟨records_addAll names _, rfl, Targets.readAs_ordered⟩

end Digraph

end DesignMetrics
