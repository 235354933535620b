import DesignMetrics.Names.Distinct
import DesignMetrics.Model.EdgeMap

/-!
# Code models

What is known about a code base, whatever language it is written in: modules hold namespaces,
namespaces hold types, types hold fields and methods. Names may repeat everywhere. Dependencies are
kept twice, as each type reports them and as edge maps between names.
-/

namespace DesignMetrics

structure Field where
  name : String
  typeName : String := ""
  isPublic : Bool := false
deriving DecidableEq

/-- Raw facts about a method; the counts are as reported and may be negative. -/
structure Method where
  fullName : String
  parameters : Int := 0
  sloc : Int := 0
  decisionPoints : Int := 0
  maxNestingDepth : Int := 0
  calls : Int := 0
  isPublic : Bool := false
  accessedFields : List String := []
deriving DecidableEq

inductive TypeKind where
  | ordinaryClass
  | struct
  | interface
  | enum
  | record
  | delegate
deriving DecidableEq, Repr

namespace TypeKind

def name : TypeKind → String
  | .ordinaryClass => "class"
  | .struct => "struct"
  | .interface => "interface"
  | .enum => "enum"
  | .record => "record"
  | .delegate => "delegate"

def all : List TypeKind := [.ordinaryClass, .struct, .interface, .enum, .record, .delegate]

def named? (text : String) : Option TypeKind := all.find? (·.name == text)

end TypeKind

/-- A declared type. `dependsOn` is as reported: it may name undeclared types, repeat names, name
the type itself or have gaps. -/
structure TypeDecl where
  fullName : String
  kind : TypeKind := .ordinaryClass
  isAbstract : Bool := false
  fields : List Field := []
  methods : List Method := []
  dependsOn : List (Option String) := []
deriving DecidableEq

namespace TypeDecl

/-- The names in the dependency list, in order. -/
def targets (t : TypeDecl) : List String := t.dependsOn.filterMap id

def isAbstraction (t : TypeDecl) : Bool := t.isAbstract || t.kind == .interface

def isAbstractClass (t : TypeDecl) : Bool :=
  t.isAbstract && (t.kind == .ordinaryClass || t.kind == .record)

end TypeDecl

structure Namespace where
  name : String
  types : List TypeDecl := []
deriving DecidableEq

structure Module where
  name : String
  namespaces : List Namespace := []
deriving DecidableEq

structure Codebase where
  modules : List Module := []
deriving DecidableEq

structure DependencyGraph where
  typeEdges : EdgeMap := ∅
  namespaceEdges : EdgeMap := ∅
deriving DecidableEq

structure CodeModel where
  codebase : Codebase := {}
  graph : DependencyGraph := {}
deriving DecidableEq

/-! ## Views of a code base -/

/-- Add types to the group of a namespace name; a new name opens a group at the end. -/
def addToGroup (name : String) (types : List TypeDecl) :
    List (String × List TypeDecl) → List (String × List TypeDecl)
  | [] => [(name, types)]
  | (first, members) :: rest =>
    if first = name then (first, members ++ types) :: rest
    else (first, members) :: addToGroup name types rest

namespace Codebase

def namespaces (c : Codebase) : List Namespace := c.modules.flatMap (·.namespaces)

def types (c : Codebase) : List TypeDecl := c.namespaces.flatMap (·.types)

def methods (c : Codebase) : List Method := c.types.flatMap (·.methods)

def typeNames (c : Codebase) : List String := firstOccurrences (c.types.map (·.fullName))

def namespaceNames (c : Codebase) : List String := firstOccurrences (c.namespaces.map (·.name))

/-- The types of each namespace name. Namespaces of one name are one namespace, in whatever modules
they stand. -/
def typesByNamespace (c : Codebase) : List (String × List TypeDecl) :=
  c.namespaces.foldl (fun groups ns => addToGroup ns.name ns.types groups) []

end Codebase

namespace CodeModel

def empty : CodeModel := {}

instance : Inhabited CodeModel := ⟨empty⟩

/-- Equality of models: the order of sources in an edge map does not count, every other order
does. -/
def same (a b : CodeModel) : Bool :=
  a.codebase == b.codebase && a.graph.typeEdges.same b.graph.typeEdges
    && a.graph.namespaceEdges.same b.graph.namespaceEdges

def sameOptional : Option CodeModel → Option CodeModel → Bool
  | none, none => true
  | some a, some b => a.same b
  | _, _ => false

end CodeModel

end DesignMetrics
