import DesignMetrics.Yaml.Graph

/-!
# Merged mappings

A mapping takes over the entries of the mappings under its merge keys. They come in front of its own
entries, so that those have precedence; of several mappings under one key the first has precedence.
The kinds of mappings that are merged do not matter.
-/

namespace DesignMetrics.Yaml

/-- The nodes of a document while entries are merged. -/
abbrev Nodes := Array Node

namespace Nodes

def entries (nodes : Nodes) (number : Nat) : List (Nat × Nat) :=
  ((nodes[number]?).map Node.entries).getD []

def setEntries (nodes : Nodes) (number : Nat) (entries : List (Nat × Nat)) : Nodes :=
  nodes.modify number fun node => { node with form := .mapping entries }

def hasKind (nodes : Nodes) (kind : Kind) (number : Nat) : Bool :=
  (nodes[number]?).any (·.kind == kind)

/-- The key for the value of a mapping is an ordinary text for the mapping that it stands in. -/
def withTextKeys (nodes : Nodes) (number : Nat) : Nodes :=
  ((nodes.entries number).filter fun entry => nodes.hasKind .default entry.1).foldl
    (fun nodes entry => nodes.modify entry.1 fun node => { node with kind := .text }) nodes

/-- The mappings that stand under a merge key, in order of their entries. -/
def mergedMappings (nodes : Nodes) (number : Nat) : Except Flaw (List Nat) :=
  match nodes[number]? with
  | some ⟨_, .mapping _⟩ => .ok [number]
  | some ⟨_, .sequence items⟩ => .ok items
  | _ => .error .malformed

/-- Merge entries into a mapping in which some have been found already. A merge key is removed
before the mappings under it are looked at, so that a mapping can be merged into itself. -/
def mergeFrom : Nat → List (Nat × Nat) → Nodes → Nat → Except Flaw Nodes
  | 0, _, _, _ => .error (.defective .tooDeep)
  | fuel + 1, found, nodes, number => do
    let own := nodes.entries number
    match own.find? fun entry => nodes.hasKind .merge entry.1 with
    | none =>
      return (nodes.withTextKeys number).setEntries number (found ++ own)
    | some (_, value) =>
      let nodes := nodes.setEntries number (own.eraseP fun entry => nodes.hasKind .merge entry.1)
      let (nodes, taken) ← (← nodes.mergedMappings value).foldlM
        (fun (nodes, taken) item => do
          match nodes[item]? with
          | some ⟨_, .mapping _⟩ => do
            let nodes ← mergeFrom fuel [] nodes item
            return (nodes, nodes.entries item ++ taken)
          | _ => throw .malformed)
        (nodes, [])
      mergeFrom fuel (found ++ taken) nodes number

/-- Merge the entries that a mapping takes over. Every step down removes a merge key, and every
other one ends a mapping. -/
def merge (nodes : Nodes) (number : Nat) : Except Flaw Nodes :=
  mergeFrom (2 * nodes.size + 2) [] nodes number

end Nodes

end DesignMetrics.Yaml
