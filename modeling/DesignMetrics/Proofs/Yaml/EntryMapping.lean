import DesignMetrics.Proofs.Outcome
import DesignMetrics.Proofs.Yaml.EntryLine
import DesignMetrics.Yaml.Document

/-!
# Mappings of two names to integers

Two lines that each give an integer to a name are read as the mapping that says so. Their tokens
are put together to five nodes, those are looked at from the root on, and the datum is built from
what was found.
-/

namespace DesignMetrics.Yaml

/-! ## Looking at an entry -/

namespace Survey

variable {s : Survey} {key number : Nat} {node : Node} {name text : List Char} {content : Content}
  {n : Int}

/-- The node has not been looked at. -/
structure Awaits (s : Survey) (number : Nat) (node : Node) : Prop where
  node_eq : s.nodes[number]? = some node
  content_eq : s.contents[number]? = some none

theorem Awaits.content_setContent (h : s.Awaits number node) :
    (s.setContent number content).contents[number]? = some (some content) := by
  obtain ⟨hlt, -⟩ := Array.getElem?_eq_some_iff.1 h.content_eq
  simp [setContent, hlt]

theorem Awaits.setContent (h : s.Awaits number node) (hne : key ≠ number) :
    (s.setContent key content).Awaits number node := by
  refine ⟨h.node_eq, ?_⟩
  rw [Survey.setContent, Array.getElem?_setIfInBounds_ne hne]
  exact h.content_eq

theorem visit_of_scalar (h : s.Awaits number node) (hkind : node.kind.isCollection = false)
    (hcontent : scalar s.nodes number node = .ok content) :
    s.visit number = .ok (s.setContent number content) := by
  have hunknown : s.isKnown number = false := by rw [isKnown, h.content_eq]; rfl
  rw [visit, hunknown, h.node_eq]
  simp only [Bool.false_eq_true, if_false, hkind, hcontent]
  rfl

theorem textOf_of_awaits {kind : Kind} (h : s.Awaits number ⟨kind, .scalar text⟩) :
    textOf s.nodes (s.nodes.size + 1) number = .ok text := by
  rw [textOf, h.node_eq]

theorem visit_text (h : s.Awaits number ⟨.text, .scalar text⟩) :
    s.visit number = .ok (s.setContent number (.scalar (.text (String.ofList text)) true)) := by
  refine visit_of_scalar h rfl ?_
  rw [scalar, textOf_of_awaits h]
  rfl

theorem visit_integer (h : s.Awaits number ⟨.integer, .scalar text⟩)
    (hvalue : Kind.datum .integer text = .ok (.integer n)) :
    s.visit number = .ok (s.setContent number (.scalar (.integer n) true)) := by
  have hscalar : scalar s.nodes number ⟨.integer, .scalar text⟩ =
      .ok (.scalar (.integer n) true) :=
    bind_eq_ok.2 ⟨_, textOf_of_awaits h, bind_eq_ok.2 ⟨_, hvalue, rfl⟩⟩
  exact visit_of_scalar h rfl hscalar

theorem visitKey_text (h : s.Awaits key ⟨.text, .scalar name⟩) :
    s.visitKey key = .ok (s.setContent key (.scalar (.text (String.ofList name)) true)) := by
  refine bind_eq_ok.2 ⟨_, visit_text h, ?_⟩
  simp only [h.content_setContent]
  rfl

/-- The name and the integer of an entry are known when it has been looked at. -/
theorem visitEntries_cons (hkey : s.Awaits key ⟨.text, .scalar name⟩)
    (hnumber : s.Awaits number ⟨.integer, .scalar text⟩) (hne : key ≠ number)
    (hvalue : Kind.datum .integer text = .ok (.integer n)) (rest : List (Nat × Nat)) :
    s.visitEntries ((key, number) :: rest) =
      ((s.setContent key (.scalar (.text (String.ofList name)) true)).setContent number
        (.scalar (.integer n) true)).visitEntries rest := by
  have hentry : (do (← s.visitKey key).visit number) =
      .ok ((s.setContent key (.scalar (.text (String.ofList name)) true)).setContent number
        (.scalar (.integer n) true)) :=
    bind_eq_ok.2 ⟨_, visitKey_text hkey, visit_integer (hnumber.setContent hne) hvalue⟩
  rw [visitEntries, List.foldlM_cons, hentry]
  rfl

theorem levels_of_waiting {next : Survey} {fuel : Nat} (hne : s.waiting ≠ [])
    (hfill : s.waiting.reverse.foldlM fill { s with waiting := [] } = .ok next) :
    levels (fuel + 1) s = levels fuel next := by
  have hwaiting : s.waiting.isEmpty = false := by simpa using hne
  rw [levels, hwaiting, hfill]
  rfl

theorem levels_of_not_waiting {fuel : Nat} (h : s.waiting = []) : levels (fuel + 1) s = .ok s := by
  rw [levels, h]
  rfl

end Survey

/-! ## Two lines -/

/-- The line gives the integer to a name. -/
structure EntryLine.Gives (line : EntryLine) (n : Int) : Prop where
  key_kind : Kind.ofPlain line.key = .text
  value_kind : Kind.ofPlain line.value = .integer
  value_datum : Kind.datum .integer line.value = .ok (.integer n)

def EntryLine.name (line : EntryLine) : String := String.ofList line.key

variable {first second : EntryLine} {x y : Int}

/-- The graph of two lines that give integers to names. -/
def pairGraph (first second : EntryLine) : Graph where
  nodes := #[⟨.mapping, .mapping [(1, 2), (3, 4)]⟩, ⟨.text, .scalar first.key⟩,
    ⟨.integer, .scalar first.value⟩, ⟨.text, .scalar second.key⟩, ⟨.integer, .scalar second.value⟩]
  root := 0

theorem document_pair (hfirst : first.Gives x) (hsecond : second.Gives y) :
    Assembly.document (.blockMappingStart :: [first, second].flatMap EntryLine.tokens ++
      [.blockEnd]) = .ok (some (pairGraph first second)) := by
  have hdocument : Assembly.document (.blockMappingStart ::
      [first, second].flatMap EntryLine.tokens ++ [.blockEnd]) =
      .ok (some ⟨#[⟨.mapping, .mapping [(1, 2), (3, 4)]⟩,
        ⟨Kind.ofPlain first.key, .scalar first.key⟩,
        ⟨Kind.ofPlain first.value, .scalar first.value⟩,
        ⟨Kind.ofPlain second.key, .scalar second.key⟩,
        ⟨Kind.ofPlain second.value, .scalar second.value⟩], 0⟩) := by
    rfl
  rw [hdocument, hfirst.key_kind, hfirst.value_kind, hsecond.key_kind, hsecond.value_kind]
  rfl

/-- The survey of the graph before its parts are looked at. -/
def pairOpened (first second : EntryLine) (waiting : List Nat) : Survey :=
  ⟨(pairGraph first second).nodes, #[some (.list []), none, none, none, none], waiting⟩

/-- The survey of the graph with all its parts known. -/
def pairKnown (first second : EntryLine) (x y : Int) (root : Content) : Survey :=
  ⟨(pairGraph first second).nodes, #[some root, some (.scalar (.text first.name) true),
    some (.scalar (.integer x) true), some (.scalar (.text second.name) true),
    some (.scalar (.integer y) true)], []⟩

theorem visitEntries_pairOpened (hfirst : first.Gives x) (hsecond : second.Gives y) :
    (pairOpened first second []).visitEntries [(1, 2), (3, 4)] =
      .ok (pairKnown first second x y (.list [])) := by
  rw [Survey.visitEntries_cons ⟨rfl, rfl⟩ ⟨rfl, rfl⟩ (by decide) hfirst.value_datum,
    Survey.visitEntries_cons ⟨rfl, rfl⟩ ⟨rfl, rfl⟩ (by decide) hsecond.value_datum]
  rfl

theorem sameKey_pairKnown (hne : first.key ≠ second.key) (root : Content) :
    (pairKnown first second x y root).sameKey 1 3 = false := by
  have hnames : first.name ≠ second.name := fun heq => hne (String.ofList_inj.1 heq)
  show (first.name == second.name) = false
  exact beq_false_of_ne hnames

theorem foldl_insertEntry_pairKnown (hne : first.key ≠ second.key) (root : Content) :
    [(1, 2), (3, 4)].foldl (pairKnown first second x y root).insertEntry [] = [(1, 2), (3, 4)] := by
  simp only [List.foldl_cons, List.foldl_nil, Survey.insertEntry, sameKey_pairKnown hne,
    Bool.false_eq_true, if_false]

theorem visitMapping_pairOpened (hfirst : first.Gives x) (hsecond : second.Gives y)
    (hne : first.key ≠ second.key) :
    (pairOpened first second []).visitMapping 0 =
      .ok ([(1, 2), (3, 4)], pairKnown first second x y (.list [])) := by
  have hmerge : (pairOpened first second []).nodes.merge 0 = .ok (pairGraph first second).nodes :=
    rfl
  refine bind_eq_ok.2 ⟨_, hmerge, bind_eq_ok.2 ⟨_, visitEntries_pairOpened hfirst hsecond, ?_⟩⟩
  exact congrArg (fun entries => Except.ok (entries, pairKnown first second x y (.list [])))
    (foldl_insertEntry_pairKnown hne (.list []))

theorem fill_pairOpened (hfirst : first.Gives x) (hsecond : second.Gives y)
    (hne : first.key ≠ second.key) :
    (pairOpened first second []).fill 0 =
      .ok (pairKnown first second x y (.mapping [(1, 2), (3, 4)])) :=
  bind_eq_ok.2 ⟨_, visitMapping_pairOpened hfirst hsecond hne, rfl⟩

/-- Two levels are looked at: the mapping with its parts, and nothing below them. -/
theorem ofGraph_pairGraph (hfirst : first.Gives x) (hsecond : second.Gives y)
    (hne : first.key ≠ second.key) :
    Survey.ofGraph (pairGraph first second) =
      .ok (pairKnown first second x y (.mapping [(1, 2), (3, 4)])) := by
  have hvisit : Survey.visit ⟨(pairGraph first second).nodes, Array.replicate 5 none, []⟩ 0 =
      .ok (pairOpened first second [0]) := rfl
  have hfill : [0].foldlM Survey.fill (pairOpened first second []) =
      .ok (pairKnown first second x y (.mapping [(1, 2), (3, 4)])) :=
    bind_eq_ok.2 ⟨_, fill_pairOpened hfirst hsecond hne, rfl⟩
  have hlevels : Survey.levels (5 + 2) (pairOpened first second [0]) =
      .ok (pairKnown first second x y (.mapping [(1, 2), (3, 4)])) := by
    rw [Survey.levels_of_waiting (s := pairOpened first second [0]) (List.cons_ne_nil 0 []) hfill,
      Survey.levels_of_not_waiting rfl]
  have hsize : (pairGraph first second).nodes.size = 5 := rfl
  rw [Survey.ofGraph, hsize]
  exact bind_eq_ok.2 ⟨_, hvisit, hlevels⟩

theorem datum_contents (a b c d : Datum) :
    ((Survey.datum #[some (.mapping [(1, 2), (3, 4)]), some (.scalar a true),
      some (.scalar b true), some (.scalar c true), some (.scalar d true)] 6 0).run
        (Array.replicate 5 none)).1 = .mapping [(a, b), (c, d)] := by
  rfl

theorem rootDatum_pairKnown (first second : EntryLine) (x y : Int) :
    (pairKnown first second x y (.mapping [(1, 2), (3, 4)])).rootDatum 0 =
      .mapping [(.text first.name, .integer x), (.text second.name, .integer y)] := by
  have hsize : (pairKnown first second x y (.mapping [(1, 2), (3, 4)])).nodes.size = 5 := rfl
  rw [Survey.rootDatum, hsize]
  exact datum_contents (.text first.name) (.integer x) (.text second.name) (.integer y)

/-- The graph of two lines stands for the mapping of their names to their integers. -/
theorem datum_pairGraph (hfirst : first.Gives x) (hsecond : second.Gives y)
    (hne : first.key ≠ second.key) :
    (pairGraph first second).datum =
      .ok (.mapping [(.text first.name, .integer x), (.text second.name, .integer y)]) := by
  rw [Graph.datum, ofGraph_pairGraph hfirst hsecond hne]
  exact congrArg Except.ok (rootDatum_pairKnown first second x y)

/-- Two lines that give integers to different names are read as the mapping that does so. -/
theorem read_pair (hfirst : first.Gives x) (hsecond : second.Gives y)
    (hne : first.key ≠ second.key) {text : String}
    (htext : text.toList = [first, second].flatMap EntryLine.text) :
    read text =
      .ok (.mapping [(.text first.name, .integer x), (.text second.name, .integer y)]) := by
  have htokens : tokensOf (withPlainBreaks text.toList) =
      .blockMappingStart :: [first, second].flatMap EntryLine.tokens ++ [.blockEnd] := by
    rw [htext, withPlainBreaks_lines, tokensOf_lines (List.cons_ne_nil _ _)]
  refine bind_eq_ok.2 ⟨some (pairGraph first second), ?_, datum_pairGraph hfirst hsecond hne⟩
  rw [htokens, document_pair hfirst hsecond]

end DesignMetrics.Yaml
