import DesignMetrics.Yaml.Merge
import DesignMetrics.Yaml.Scalar

/-!
# Contents of nodes

What nodes stand for, with the nodes inside them still given by their numbers. Nodes are looked at
in order of their depth, level by level, and the first flaw that is met is the flaw of the document.
-/

namespace DesignMetrics.Yaml

inductive Content where
  /-- A value, and whether it is one key at all nodes that have it. NaN equals no number, so that it
  is one key only where it is written by its name. -/
  | scalar (value : Datum) (shared : Bool)
  | list (items : List Nat)
  | mapping (entries : List (Nat × Nat))
  | pairs (entries : List (Nat × Nat))
  | set (members : List Nat)

structure Survey where
  nodes : Nodes
  /-- The content of each node. That of a collection which waits is empty. -/
  contents : Array (Option Content)
  /-- The collections whose parts have not been looked at, last first. -/
  waiting : List Nat := []

namespace Survey

/-- The text of a node as a scalar: that of a mapping stands under its key for it. -/
def textOf (nodes : Nodes) : Nat → Nat → Except Flaw (List Char)
  | 0, _ => .error (.defective .tooDeep)
  | fuel + 1, number =>
    match nodes[number]? with
    | some ⟨_, .scalar text⟩ => .ok text
    | some ⟨_, .mapping entries⟩ =>
      match entries.find? fun entry => nodes.hasKind .default entry.1 with
      | some entry => textOf nodes fuel entry.2
      | none => .error .malformed
    | _ => .error .malformed

def scalar (nodes : Nodes) (number : Nat) (node : Node) : Except Flaw Content := do
  if node.kind.isUnreadable then throw .malformed
  let text ← textOf nodes (nodes.size + 1) number
  match node.kind, node.form with
  | .timestamp, .mapping _ => .error (.defective .timestampMapping)
  | kind, _ => do
    match ← kind.datum text with
    | .real .nan => return .scalar (.real .nan) (Number.namesNaN text)
    | value => return .scalar value true

def setContent (s : Survey) (number : Nat) (content : Content) : Survey :=
  { s with contents := s.contents.setIfInBounds number (some content) }

def isKnown (s : Survey) (number : Nat) : Bool := (s.contents[number]?).any Option.isSome

/-- Look at a node. The parts of a collection are looked at later. -/
def visit (s : Survey) (number : Nat) : Except Flaw Survey :=
  if s.isKnown number then .ok s
  else
    match s.nodes[number]? with
    | none => .error .malformed
    | some node =>
      if node.kind.isCollection then
        .ok { s.setContent number (.list []) with waiting := number :: s.waiting }
      else do return s.setContent number (← scalar s.nodes number node)

/-- Look at a key of a mapping, which must not be a collection. -/
def visitKey (s : Survey) (number : Nat) : Except Flaw Survey := do
  let s ← s.visit number
  match s.contents[number]? with
  | some (some (.scalar _ _)) => return s
  | _ => throw .malformed

def visitEntries (s : Survey) (entries : List (Nat × Nat)) : Except Flaw Survey :=
  entries.foldlM (fun s entry => do (← s.visitKey entry.1).visit entry.2) s

/-- The one entry of each mapping of a list, whose key may be a collection. -/
def visitPairs (s : Survey) : List Nat → Except Flaw (List (Nat × Nat) × Survey)
  | [] => .ok ([], s)
  | item :: rest =>
    match s.nodes[item]? with
    | some ⟨_, .mapping [entry]⟩ => do
      let s ← (← s.visit entry.1).visit entry.2
      let (entries, s) ← visitPairs s rest
      return (entry :: entries, s)
    | _ => .error .malformed

/-- The value that all nodes of a key have. -/
def sharedKey? (s : Survey) (number : Nat) : Option Datum :=
  match s.contents[number]? with
  | some (some (.scalar value true)) => some value
  | _ => none

def sameKey (s : Survey) (a b : Nat) : Bool :=
  a == b || (s.sharedKey? a).any fun x => (s.sharedKey? b).any x.sameKey

/-- Write an entry: a present key keeps its place and takes the new value, a new key goes to the
end. -/
def insertEntry (s : Survey) (entries : List (Nat × Nat)) (entry : Nat × Nat) :
    List (Nat × Nat) :=
  match entries with
  | [] => [entry]
  | (key, value) :: rest =>
    if s.sameKey key entry.1 then (key, entry.2) :: rest
    else (key, value) :: s.insertEntry rest entry

/-- Merge what a mapping takes over, and look at its entries. They are written one after the
other. -/
def visitMapping (s : Survey) (number : Nat) : Except Flaw (List (Nat × Nat) × Survey) := do
  let nodes ← s.nodes.merge number
  let entries := nodes.entries number
  let s ← { s with nodes }.visitEntries entries
  return (entries.foldl s.insertEntry [], s)

/-- Look at the parts of a collection, whose form has to suit its kind. -/
def fill (s : Survey) (number : Nat) : Except Flaw Survey :=
  match s.nodes[number]? with
  | some ⟨.sequence, .sequence items⟩ => do
    return (← items.foldlM visit s).setContent number (.list items)
  | some ⟨.pairs, .sequence items⟩ => do
    let (entries, s) ← s.visitPairs items
    return s.setContent number (.pairs entries)
  | some ⟨.mapping, .mapping _⟩ => do
    let (entries, s) ← s.visitMapping number
    return s.setContent number (.mapping entries)
  | some ⟨.set, .mapping _⟩ => do
    let (entries, s) ← s.visitMapping number
    return s.setContent number (.set (entries.map (·.1)))
  | _ => .error .malformed

/-- Fill the collections that wait, level by level. -/
def levels : Nat → Survey → Except Flaw Survey
  | 0, _ => .error .malformed
  | fuel + 1, s =>
    if s.waiting.isEmpty then .ok s
    else do levels fuel (← s.waiting.reverse.foldlM fill { s with waiting := [] })

/-- The contents of all nodes that the root leads to. No level is without a new node. -/
def ofGraph (graph : Graph) : Except Flaw Survey := do
  let start : Survey :=
    { nodes := graph.nodes, contents := Array.replicate graph.nodes.size none }
  levels (graph.nodes.size + 2) (← start.visit graph.root)

/-! ## Data -/

/-- The data of nodes that are known already. A node counts as null while its parts are found. -/
abbrev Found := Array (Option Datum)

/-- The datum of a node, put together once. -/
def datum (contents : Array (Option Content)) : Nat → Nat → StateM Found Datum
  | 0, _ => return .null
  | fuel + 1, number => do
    match (← get)[number]?.join, contents[number]?.join with
    | some found, _ => return found
    | none, none => return .null
    | none, some content =>
      let part := datum contents fuel
      let both (entry : Nat × Nat) : StateM Found (Datum × Datum) :=
        return (← part entry.1, ← part entry.2)
      modify (·.setIfInBounds number (some .null))
      let found : Datum ←
        match content with
        | .scalar value _ => pure value
        | .list items => .list <$> items.mapM part
        | .mapping entries => .mapping <$> entries.mapM both
        | .pairs entries => .pairs <$> entries.mapM both
        | .set members => .set <$> members.mapM part
      modify (·.setIfInBounds number (some found))
      return found

def rootDatum (s : Survey) (root : Nat) : Datum :=
  ((datum s.contents (s.nodes.size + 1) root).run (Array.replicate s.nodes.size none)).1

end Survey

end DesignMetrics.Yaml
