import DesignMetrics.Fault

/-!
# Metric records

The figures of one run, one record per method, type and namespace, and their form as plain data.
Counts are integers of any size; ratios and averages are binary64 numbers.
-/

namespace DesignMetrics

/-- Method figures: lines of code, cyclomatic complexity, call sites, nested block depth,
parameters. -/
structure MethodMetrics where
  methodFullName : String
  mloc : Int := 0
  cyclo : Int := 1
  calls : Int := 0
  nbd : Int := 0
  parameters : Int := 0
deriving DecidableEq

/-- Type figures. `dep` counts the distinct dependencies of the declaration, `iDep` the declared
types the name depends on, `fanIn` the declared types that depend on it, `noa` the fields. -/
structure TypeMetrics where
  typeFullName : String
  sloc : Int := 0
  nom : Int := 0
  npm : Int := 0
  wmc : Int := 0
  dep : Int := 0
  iDep : Int := 0
  fanIn : Int := 0
  fanOut : Int := 0
  noa : Int := 0
  lcom3 : Binary64 := .zero
deriving DecidableEq

structure NamespaceMetrics where
  name : String
  noc : Int := 0
  nac : Int := 0
deriving DecidableEq

/-- Afferent and efferent coupling of a namespace and the ratios built on them. -/
structure NamespaceCoupling where
  name : String
  ca : Int := 0
  ce : Int := 0
  instability : Binary64 := .zero
  abstractness : Binary64 := .zero
  normalizedDistance : Binary64 := .zero
deriving DecidableEq

structure TypeCoupling where
  typeFullName : String
  dependencies : Int := 0
  internalDependencies : Int := 0
  fanIn : Int := 0
  fanOut : Int := 0
deriving DecidableEq

inductive CycleScope where
  | type
  | namespace
deriving DecidableEq, Repr

namespace CycleScope

def name : CycleScope → String
  | .type => "Type"
  | .namespace => "Namespace"

def named? (text : String) : Option CycleScope :=
  [.type, .namespace].find? (CycleScope.name · == text)

def parse (text : String) : Except Fault CycleScope :=
  match named? text with
  | some scope => .ok scope
  | none => .error (.unknownName text)

end CycleScope

structure DependencyCycle where
  nodes : List String
  scope : CycleScope
deriving DecidableEq

structure DependencyMetrics where
  totalDependencies : Int := 0
  internalDependencies : Int := 0
  cycles : List DependencyCycle := []
deriving DecidableEq

/-- Total, average, median and standard deviation of one count over all types. -/
structure Distribution where
  total : Int := 0
  average : Binary64 := .zero
  median : Binary64 := .zero
  deviation : Binary64 := .zero
deriving DecidableEq

structure Summary where
  totalNamespaces : Int := 0
  totalTypes : Int := 0
  meanTypesPerNamespace : Binary64 := .zero
  sloc : Distribution := {}
  methods : Distribution := {}
  complexity : Distribution := {}
deriving DecidableEq

structure MetricsReport where
  summary : Summary
  namespaces : List NamespaceMetrics
  types : List TypeMetrics
  methods : List MethodMetrics
  namespaceCoupling : List NamespaceCoupling
  typeCoupling : List TypeCoupling
  dependencies : DependencyMetrics
deriving DecidableEq

/-! ## Plain form -/

namespace Datum

def ofAll {α : Type} (toDatum : α → Datum) (items : List α) : Datum := .list (items.map toDatum)

end Datum

open Datum

def MethodMetrics.toDatum (m : MethodMetrics) : Datum :=
  record [("method_full_name", .text m.methodFullName), ("mloc", .integer m.mloc),
    ("cyclo", .integer m.cyclo), ("calls", .integer m.calls), ("nbd", .integer m.nbd),
    ("parameters", .integer m.parameters)]

def TypeMetrics.toDatum (t : TypeMetrics) : Datum :=
  record [("type_full_name", .text t.typeFullName), ("sloc", .integer t.sloc),
    ("nom", .integer t.nom), ("npm", .integer t.npm), ("wmc", .integer t.wmc),
    ("dep", .integer t.dep), ("i_dep", .integer t.iDep), ("fan_in", .integer t.fanIn),
    ("fan_out", .integer t.fanOut), ("noa", .integer t.noa), ("lcom3", .real t.lcom3)]

def NamespaceMetrics.toDatum (n : NamespaceMetrics) : Datum :=
  record [("namespace", .text n.name), ("noc", .integer n.noc), ("nac", .integer n.nac)]

def NamespaceCoupling.toDatum (n : NamespaceCoupling) : Datum :=
  record [("namespace", .text n.name), ("ca", .integer n.ca), ("ce", .integer n.ce),
    ("instability", .real n.instability), ("abstractness", .real n.abstractness),
    ("normalized_distance", .real n.normalizedDistance)]

def TypeCoupling.toDatum (t : TypeCoupling) : Datum :=
  record [("type_full_name", .text t.typeFullName), ("dependencies", .integer t.dependencies),
    ("internal_dependencies", .integer t.internalDependencies), ("fan_in", .integer t.fanIn),
    ("fan_out", .integer t.fanOut)]

def DependencyCycle.toDatum (c : DependencyCycle) : Datum :=
  record [("nodes", texts c.nodes), ("scope", .text c.scope.name)]

def DependencyMetrics.toDatum (d : DependencyMetrics) : Datum :=
  record [("total_dependencies", .integer d.totalDependencies),
    ("internal_dependencies", .integer d.internalDependencies),
    ("cycles", ofAll DependencyCycle.toDatum d.cycles)]

/-- The members of a distribution under the names of its total and of its three figures per type. -/
def Distribution.members (d : Distribution) (total perType : String) : List (String × Datum) :=
  [(total, .integer d.total), ("avg_" ++ perType ++ "_per_type", .real d.average),
    ("median_" ++ perType ++ "_per_type", .real d.median),
    ("stdev_" ++ perType ++ "_per_type", .real d.deviation)]

def Summary.toDatum (s : Summary) : Datum :=
  record ([("total_namespaces", .integer s.totalNamespaces), ("total_types", .integer s.totalTypes),
      ("mean_types_per_namespace", .real s.meanTypesPerNamespace)]
    ++ s.sloc.members "total_sloc" "sloc" ++ s.methods.members "total_methods" "methods"
    ++ s.complexity.members "total_complexity" "complexity")

def MetricsReport.toDatum (r : MetricsReport) : Datum :=
  record [("summary", r.summary.toDatum),
    ("namespaces", ofAll NamespaceMetrics.toDatum r.namespaces),
    ("types", ofAll TypeMetrics.toDatum r.types),
    ("methods", ofAll MethodMetrics.toDatum r.methods),
    ("namespace_coupling", ofAll NamespaceCoupling.toDatum r.namespaceCoupling),
    ("type_coupling", ofAll TypeCoupling.toDatum r.typeCoupling),
    ("dependencies", r.dependencies.toDatum)]

end DesignMetrics
