import DesignMetrics.Yaml.Kind
import DesignMetrics.Yaml.Token

/-!
# Graphs of nodes

A document is a graph of nodes: scalars, sequences and mappings. Nodes are named by their number, so
an alias is the number of the node with its anchor, also inside that node. Every reader takes the
tokens from its node on and gives the number of the node with what is left.
-/

namespace DesignMetrics.Yaml

/-- A node, its parts given by their numbers. -/
inductive Form where
  | scalar (text : List Char)
  | sequence (items : List Nat)
  | mapping (entries : List (Nat × Nat))
deriving DecidableEq

structure Node where
  kind : Kind
  form : Form
deriving DecidableEq

namespace Node

/-- The node where none is written. -/
def missing : Node := ⟨.null, .scalar []⟩

def entries (n : Node) : List (Nat × Nat) :=
  match n.form with
  | .mapping entries => entries
  | _ => []

end Node

/-- The nodes of a document, each at its number. -/
structure Graph where
  nodes : Array Node
  root : Nat

def maxDepth : Nat := 490

/-- The nodes put together so far, and what is left to read. -/
structure Assembly where
  tokens : List Token
  /-- The meanings of handles. -/
  handles : List (String × String)
  nodes : Array Node := #[]
  anchors : List (String × Nat) := []
  /-- How many collections are open. -/
  depth : Nat := 0

namespace Assembly

def next (c : Assembly) : Assembly := { c with tokens := c.tokens.drop 1 }

/-- What is wrong with the next token where it must not stand. -/
def unexpected {α : Type} (c : Assembly) : Except Flaw α :=
  match c.tokens with
  | .broken flaw :: _ => .error flaw
  | _ => .error .malformed

def expect (c : Assembly) (token : Token) : Except Flaw Assembly :=
  if c.tokens.head? = some token then .ok c.next else c.unexpected

def addMissing (c : Assembly) : Nat × Assembly :=
  (c.nodes.size, { c with nodes := c.nodes.push .missing })

/-! ## Properties -/

/-- What stands in front of a node: its name and its full tag. -/
structure Properties where
  anchor : Option String := none
  tag : Option String := none

def fullTag (c : Assembly) (tag : Tag) : Except Flaw String := orMalformed (tag.full? c.handles)

/-- Properties in either order. Behind a lone tag the next token must have been made out before the
tag is looked at. -/
def properties (c : Assembly) : Except Flaw (Properties × Assembly) :=
  let found (anchor : Option String) (tag : Option Tag) (rest : List Token) := do
    let full ← tag.mapM c.fullTag
    return (⟨anchor, full⟩, { c with tokens := rest })
  match c.tokens with
  | .anchor a :: .tag t :: rest => found a t rest
  | .tag t :: .anchor a :: rest => found a t rest
  | .anchor a :: rest => found a none rest
  | .tag _ :: .broken flaw :: _ => .error flaw
  | .tag t :: rest => found none t rest
  | _ => .ok ({}, c)

namespace Properties

/-- The declared kind; a lone mark declares none. -/
def kind? (p : Properties) : Option Kind :=
  p.tag.bind fun tag => if tag = "!" then none else some (Kind.ofTag tag)

/-- The kind of a scalar. A lone mark lets its text decide even between quotes. -/
def scalarKind (p : Properties) (plain : Bool) (text : List Char) : Kind :=
  p.kind?.getD (if plain || p.tag.isSome then Kind.ofPlain text else .text)

end Properties

/-- Add a node with its properties. Names are given once. -/
def add (c : Assembly) (p : Properties) (node : Node) : Except Flaw (Nat × Assembly) :=
  let number := c.nodes.size
  let c := { c with nodes := c.nodes.push node }
  match p.anchor with
  | none => .ok (number, c)
  | some anchor =>
    if (c.anchors.lookup anchor).isSome then .error .malformed
    else .ok (number, { c with anchors := (anchor, number) :: c.anchors })

/-- Add a collection, whose parts are read with its number known. -/
def collection {α : Type} (c : Assembly) (p : Properties) (usual : Kind) (form : α → Form)
    (empty : α) (read : Assembly → Except Flaw (α × Assembly)) :
    Except Flaw (Nat × Assembly) := do
  let kind := p.kind?.getD usual
  let (number, inside) ← c.add p ⟨kind, form empty⟩
  if maxDepth ≤ c.depth then throw (.defective .tooDeep)
  let (parts, after) ← read { inside with depth := c.depth + 1 }
  let nodes := after.nodes.setIfInBounds number ⟨kind, form parts⟩
  return (number, { after with nodes, depth := c.depth })

/-! ## Nodes -/

/-- Where a node stands, which decides the collections it may be. -/
inductive Place where
  | flow
  | block
  /-- A part of a mapping entry, which may be a sequence that is not indented. -/
  | entry
deriving DecidableEq

/-- Whether a part that might stand in front of a token is missing. -/
def endsPart (place : Place) (token : Token) : Bool :=
  match place with
  | .flow => [.value, .comma, .flowSequenceEnd, .flowMappingEnd].contains token
  | .block => [.dash, .key, .value, .blockEnd].contains token
  | .entry => [.key, .value, .blockEnd].contains token

/-- The comma in front of an item of a flow collection, which the first item does not have. -/
def separator (first : Bool) (c : Assembly) : Except Flaw Assembly :=
  if first then .ok c else c.expect .comma

mutual

def node (place : Place) : Nat → Assembly → Except Flaw (Nat × Assembly)
  | 0, _ => .error .malformed
  | fuel + 1, c =>
    match c.tokens with
    | .alias name :: _ => do return (← orMalformed (c.anchors.lookup name), c.next)
    | _ => do
      let (p, c) ← c.properties
      let sequence := c.collection p .sequence .sequence []
      let mapping := c.collection p .mapping .mapping []
      match c.tokens, place with
      | .scalar plain text :: _, _ => c.next.add p ⟨p.scalarKind plain text, .scalar text⟩
      | .dash :: _, .entry => sequence (dashItems fuel)
      | .flowSequenceStart :: _, _ => sequence fun c => flowItems true fuel c.next
      | .flowMappingStart :: _, _ => mapping fun c => flowEntries true fuel c.next
      | .blockSequenceStart :: _, .block => sequence fun c => blockItems fuel c.next
      | .blockSequenceStart :: _, .entry => sequence fun c => blockItems fuel c.next
      | .blockMappingStart :: _, .block => mapping fun c => blockEntries fuel c.next
      | .blockMappingStart :: _, .entry => mapping fun c => blockEntries fuel c.next
      | .broken flaw :: _, _ => .error flaw
      | _, _ =>
        if p.anchor.isSome || p.tag.isSome then c.add p ⟨p.scalarKind true [], .scalar []⟩
        else c.unexpected

def part (place : Place) : Nat → Assembly → Except Flaw (Nat × Assembly)
  | 0, _ => .error .malformed
  | fuel + 1, c =>
    if c.tokens.head?.any (endsPart place) then .ok c.addMissing else node place fuel c

/-- The items behind dashes, as long as there are dashes. -/
def dashItems : Nat → Assembly → Except Flaw (List Nat × Assembly)
  | 0, _ => .error .malformed
  | fuel + 1, c =>
    if c.tokens.head? = some .dash then do
      let (item, c) ← part .block fuel c.next
      let (items, c) ← dashItems fuel c
      return (item :: items, c)
    else .ok ([], c)

def blockItems : Nat → Assembly → Except Flaw (List Nat × Assembly)
  | 0, _ => .error .malformed
  | fuel + 1, c => do
    let (items, c) ← dashItems fuel c
    return (items, ← c.expect .blockEnd)

/-- A key and its value, from behind the mark of the key on. -/
def pair (place : Place) : Nat → Assembly → Except Flaw ((Nat × Nat) × Assembly)
  | 0, _ => .error .malformed
  | fuel + 1, c => do
    let (key, c) ← part place fuel c
    let (value, c) ←
      if c.tokens.head? = some .value then part place fuel c.next else .ok c.addMissing
    return ((key, value), c)

def blockEntries : Nat → Assembly → Except Flaw (List (Nat × Nat) × Assembly)
  | 0, _ => .error .malformed
  | fuel + 1, c =>
    if c.tokens.head? = some .key then do
      let (entry, c) ← pair .entry fuel c.next
      let (entries, c) ← blockEntries fuel c
      return (entry :: entries, c)
    else do return ([], ← c.expect .blockEnd)

/-- The items up to the closing bracket; an item with a key is a mapping of one entry. -/
def flowItems (first : Bool) : Nat → Assembly → Except Flaw (List Nat × Assembly)
  | 0, _ => .error .malformed
  | fuel + 1, c =>
    if c.tokens.head? = some .flowSequenceEnd then .ok ([], c.next)
    else do
      let c ← separator first c
      if c.tokens.head? = some .flowSequenceEnd then return ([], c.next)
      else
        let (item, c) ←
          if c.tokens.head? = some .key then
            c.collection {} .mapping .mapping [] fun c => do
              let (entry, c) ← pair .flow fuel c.next
              return ([entry], c)
          else node .flow fuel c
        let (items, c) ← flowItems false fuel c
        return (item :: items, c)

/-- The entries up to the closing brace; an item without a colon is a key without a value. -/
def flowEntries (first : Bool) :
    Nat → Assembly → Except Flaw (List (Nat × Nat) × Assembly)
  | 0, _ => .error .malformed
  | fuel + 1, c =>
    if c.tokens.head? = some .flowMappingEnd then .ok ([], c.next)
    else do
      let c ← separator first c
      if c.tokens.head? = some .flowMappingEnd then return ([], c.next)
      else
        let (entry, c) ←
          if c.tokens.head? = some .key then pair .flow fuel c.next
          else do
            let (key, c) ← node .flow fuel c
            let (value, c) := c.addMissing
            pure ((key, value), c)
        let (entries, c) ← flowEntries false fuel c
        return (entry :: entries, c)

end

/-! ## Documents -/

/-- Directions to the reader end where a document is started. The version is given once at most, and
so is the meaning of a handle. -/
def directions (versionGiven : Bool) (c : Assembly) : List Token → Except Flaw Assembly
  | .directive .version :: rest =>
    if versionGiven then .error .malformed else directions true c rest
  | .directive (.handle name start) :: rest =>
    if (c.handles.lookup name).isSome then .error .malformed
    else directions versionGiven { c with handles := (name, start) :: c.handles } rest
  | .directive .other :: rest => directions versionGiven c rest
  | .documentStart :: rest =>
    .ok { c with tokens := rest, handles := c.handles ++ Tag.knownHandles }
  | tokens => { c with tokens }.unexpected

def startsDocument : Token → Bool
  | .directive _ => true
  | .documentStart => true
  | _ => false

/-- The node of a document whose start was marked, which may be missing. Every reading step either
takes a token or goes one level down, so three times the tokens are steps enough. -/
def content (c : Assembly) (marked : Bool) : Except Flaw (Nat × Assembly) :=
  if marked && c.tokens.head?.all fun token => startsDocument token || token = .documentEnd then
    .ok c.addMissing
  else node .block (3 * c.tokens.length + 3) c

/-- Nothing may follow a document but marks of its end. -/
def finish (c : Assembly) : Except Flaw Unit :=
  match c.tokens.dropWhile (· = .documentEnd) with
  | [] => .ok ()
  | tokens => do
    let _ ← directions false { tokens := [], handles := [] } tokens
    throw .malformed

/-- The node of the one document that tokens form, or nothing if there are none. -/
def document (tokens : List Token) : Except Flaw (Option Graph) := do
  if tokens.isEmpty then return none
  let marked := tokens.head?.any startsDocument
  let c ←
    if marked then directions false { tokens := [], handles := [] } tokens
    else .ok { tokens, handles := Tag.knownHandles }
  let (root, c) ← c.content marked
  c.finish
  return some ⟨c.nodes, root⟩

end Assembly

end DesignMetrics.Yaml
