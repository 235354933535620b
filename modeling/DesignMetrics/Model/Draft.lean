import DesignMetrics.Fault
import DesignMetrics.Model.Basic

/-!
# Drafts of models

A draft is a model as it is handed in: lists may be missing, a kind is a text, and one text may
stand where a list of names belongs. Building checks a draft from its leaves up, so the first fault
is the one deepest and leftmost; everything missing takes its default.
-/

namespace DesignMetrics

inductive Listing (α : Type) where
  | absent
  | items (values : List α)
  | bareText (text : String)

namespace Listing

variable {α β : Type}

def build (f : α → Except Fault β) : Listing α → Except Fault (Listing β)
  | absent => .ok absent
  | items values => items <$> values.mapM f
  | bareText text => .ok (bareText text)

def toList (owner listing : String) : Listing α → Except Fault (List α)
  | absent => .ok []
  | items values => .ok values
  | bareText text => .error (.bareText owner listing text)

end Listing

structure MethodDraft where
  facts : Method
  accessedFields : Listing String

structure TypeDraft where
  fullName : String
  kind : String
  isAbstract : Bool
  fields : Listing Field
  methods : Listing MethodDraft
  dependsOn : Listing (Option String)

structure NamespaceDraft where
  name : String
  types : Listing TypeDraft

structure ModuleDraft where
  name : String
  namespaces : Listing NamespaceDraft

structure ModelDraft where
  modules : Listing ModuleDraft
  typeEdges : List (String × Listing (Option String))
  namespaceEdges : List (String × Listing (Option String))

def MethodDraft.build (d : MethodDraft) : Except Fault Method := do
  let accessedFields ← d.accessedFields.toList "Method" "accessed_fields"
  return { d.facts with accessedFields }

def TypeDraft.build (d : TypeDraft) : Except Fault TypeDecl := do
  let methods ← d.methods.build MethodDraft.build
  let some kind := TypeKind.named? d.kind | throw (.unknownName d.kind)
  let fields ← d.fields.toList "Type" "fields"
  let methods ← methods.toList "Type" "methods"
  let dependsOn ← d.dependsOn.toList "Type" "depends_on_types"
  return { fullName := d.fullName, kind, isAbstract := d.isAbstract, fields, methods, dependsOn }

def NamespaceDraft.build (d : NamespaceDraft) : Except Fault Namespace := do
  let types ← d.types.build TypeDraft.build
  return { name := d.name, types := ← types.toList "Namespace" "types" }

def ModuleDraft.build (d : ModuleDraft) : Except Fault Module := do
  let namespaces ← d.namespaces.build NamespaceDraft.build
  return { name := d.name, namespaces := ← namespaces.toList "Module" "namespaces" }

/-- The targets of one source: gaps are skipped, and one text is a fault. -/
def buildTargets (source : String) : Listing (Option String) → Except Fault NameSet
  | .absent => .ok ∅
  | .items values => .ok (NameSet.ofList (values.filterMap id))
  | .bareText text => .error (.bareTargets source text)

/-- An edge map. Of several listings for one source the last counts. -/
def buildEdges (edges : List (String × Listing (Option String))) : Except Fault EdgeMap := do
  let entries ← (lastOfEach edges).mapM fun entry => do
    return (entry.1, ← buildTargets entry.1 entry.2)
  return EdgeMap.ofList entries

def ModelDraft.build (d : ModelDraft) : Except Fault CodeModel := do
  let modules ← d.modules.build ModuleDraft.build
  let modules ← modules.toList "Codebase" "modules"
  let typeEdges ← buildEdges d.typeEdges
  let namespaceEdges ← buildEdges d.namespaceEdges
  return { codebase := { modules }, graph := { typeEdges, namespaceEdges } }

end DesignMetrics
