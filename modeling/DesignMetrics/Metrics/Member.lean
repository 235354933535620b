import DesignMetrics.Metrics.Record
import DesignMetrics.Model.Basic
import DesignMetrics.Digraph.Targets

/-!
# Figures of single declarations

What can be read off a method, a type or a namespace by itself. Reported counts below zero count as
zero.
-/

namespace DesignMetrics

/-- A reported count, never below zero. -/
def clampCount (count : Int) : Int := max count 0

/-- One path, and one more for each decision point. -/
def cyclomaticComplexity (decisionPoints : Int) : Int := 1 + clampCount decisionPoints

namespace Method

def complexity (m : Method) : Int := cyclomaticComplexity m.decisionPoints

def metrics (m : Method) : MethodMetrics where
  methodFullName := m.fullName
  mloc := clampCount m.sloc
  cyclo := m.complexity
  calls := clampCount m.calls
  nbd := clampCount m.maxNestingDepth
  parameters := clampCount m.parameters

/-- How many of the given names the method accesses, each counted once. -/
def accessCount (m : Method) (names : List String) : Nat :=
  names.countP fun name => decide (name ∈ m.accessedFields)

end Method

namespace TypeDecl

/-- The distinct dependencies that name something. -/
def distinctTargets (t : TypeDecl) : NameSet := (Targets.sequence t.dependsOn).distinct

def fieldNames (t : TypeDecl) : List String := firstOccurrences (t.fields.map (·.name))

/-- Over all methods, how many of the type's own fields the method accesses. -/
def accessTotal (t : TypeDecl) : Nat :=
  (t.methods.map fun m => m.accessCount t.fieldNames).foldr (· + ·) 0

/-- The share of the pairs of a method and a field in which the method accesses the field. -/
def accessShare (t : TypeDecl) (hpairs : 0 < t.methods.length * t.fields.length) : Binary64 :=
  .ofRatio t.accessTotal (t.methods.length * t.fields.length : Nat) (Int.natCast_pos.2 hpairs)

theorem pairs_pos {t : TypeDecl} (hmethods : 2 ≤ t.methods.length) (hfields : 2 ≤ t.fields.length) :
    0 < t.methods.length * t.fields.length :=
  Nat.mul_pos (by omega) (by omega)

/-- Lack of cohesion of methods: one less the share of the pairs of a method and a field in which
the method accesses the field. Fewer than two methods or fields are cohesive. -/
def lcom3 (t : TypeDecl) : Binary64 :=
  if h : t.methods.length ≤ 1 ∨ t.fields.length ≤ 1 then .zero
  else
    let raw := Binary64.one - t.accessShare (pairs_pos (by omega) (by omega))
    let floored := if Binary64.zero.below raw then raw else .zero
    if floored.below .one then floored else .one

def sloc (t : TypeDecl) : Int := (t.methods.map fun m => clampCount m.sloc).foldr (· + ·) 0

def publicMethodCount (t : TypeDecl) : Nat := t.methods.countP (·.isPublic)

def weightedMethods (t : TypeDecl) : Int := (t.methods.map (·.complexity)).foldr (· + ·) 0

end TypeDecl

/-- How many types of a list are abstract classes. -/
def abstractClassCount (types : List TypeDecl) : Nat := types.countP (·.isAbstractClass)

/-- The share of abstract types and interfaces in a list of types; zero without types. -/
def abstractness (types : List TypeDecl) : Binary64 :=
  if h : types = [] then .zero
  else .ofRatio (types.countP (·.isAbstraction)) types.length
    (Int.natCast_pos.2 (List.length_pos_iff.2 h))

/-- Abstractness looks at two counts. -/
theorem abstractness_congr {types types' : List TypeDecl}
    (hcount : types.countP (·.isAbstraction) = types'.countP (·.isAbstraction))
    (hlength : types.length = types'.length) : abstractness types = abstractness types' := by
  simp only [abstractness, ← List.length_eq_zero_iff, hcount, hlength]

namespace Namespace

def metrics (n : Namespace) : NamespaceMetrics where
  name := n.name
  noc := n.types.length
  nac := abstractClassCount n.types

end Namespace

end DesignMetrics
