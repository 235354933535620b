import DesignMetrics.Digraph.Components
import DesignMetrics.Metrics.Member
import DesignMetrics.Recorded
import DesignMetrics.Statistics

/-!
# Coupling

Who depends on whom, for types and for namespaces. Instability is the efferent share of all
couplings of a namespace; its normalized distance from the main sequence says how far abstractness
and instability are from adding up to one.
-/

namespace DesignMetrics

/-- The efferent share of all couplings; zero when there are none. -/
def instability (ca ce : Int) : Except Fault Binary64 :=
  if h : 0 < ca + ce then Statistics.inRange (.ofRatio ce (ca + ce) h) else .ok .zero

/-- Distance from the main sequence. -/
def normalizedDistance (abstractness instability : Binary64) : Binary64 :=
  (abstractness + instability - .one).abs

namespace CodeModel

/-- The graph of the declared types with the dependencies that the types report. -/
def typeGraph (m : CodeModel) : Digraph :=
  m.codebase.types.foldl (fun g t => g.addEdges t.fullName t.targets)
    (.ofNodes (m.codebase.types.map (·.fullName)))

/-- The type graph, with a report on the dependencies it turned away. -/
def reportedTypeGraph (m : CodeModel) : Recorded Digraph := do
  let g := m.typeGraph
  if 0 < g.dropped then Recorded.report (.droppedReferences g.dropped)
  return g

end CodeModel

/-! ## Types -/

/-- All figures of a type, with its coupling read off a type graph. -/
def TypeDecl.metrics (t : TypeDecl) (g : Digraph) : TypeMetrics where
  typeFullName := t.fullName
  sloc := t.sloc
  nom := t.methods.length
  npm := t.publicMethodCount
  wmc := t.weightedMethods
  dep := t.distinctTargets.names.length
  iDep := g.outDegree t.fullName
  fanIn := g.inDegree t.fullName
  fanOut := g.outDegree t.fullName
  noa := t.fields.length
  lcom3 := t.lcom3

/-- The coupling of a type, read off a type graph. -/
def TypeDecl.coupling (t : TypeDecl) (g : Digraph) : TypeCoupling where
  typeFullName := t.fullName
  dependencies := t.distinctTargets.names.length
  internalDependencies := g.outDegree t.fullName
  fanIn := g.inDegree t.fullName
  fanOut := g.outDegree t.fullName

/-! ## Namespaces -/

/-- The coupling of a namespace name and its types, read off a namespace graph. -/
def namespaceCoupling (g : Digraph) (name : String) (types : List TypeDecl) :
    Except Fault NamespaceCoupling := do
  let ca := g.inDegree name
  let ce := g.outDegree name
  let instability ← instability ca ce
  let abstractness := abstractness types
  return {
    name
    ca := ca
    ce := ce
    instability
    abstractness
    normalizedDistance := normalizedDistance abstractness instability }

namespace CodeModel

def methodMetrics (m : CodeModel) : List MethodMetrics := m.codebase.methods.map Method.metrics

def typeMetrics (m : CodeModel) : Recorded (List TypeMetrics) := do
  let g ← m.reportedTypeGraph
  return m.codebase.types.map (·.metrics g)

/-- One record per namespace name, over the types of all namespaces of that name. -/
def namespaceMetrics (m : CodeModel) : List NamespaceMetrics :=
  m.codebase.typesByNamespace.map fun group => (Namespace.mk group.1 group.2).metrics

def namespaceCoupling (m : CodeModel) : Recorded (List NamespaceCoupling) := do
  let groups := m.codebase.typesByNamespace
  let g := Digraph.ofAdjacency (groups.map (·.1)) m.graph.namespaceEdges.adjacency
  if 0 < g.dropped then Recorded.report (.droppedNamespaceEdges g.dropped)
  groups.mapM fun group => DesignMetrics.namespaceCoupling g group.1 group.2

def typeCoupling (m : CodeModel) : List TypeCoupling :=
  let g := m.typeGraph
  m.codebase.types.map (·.coupling g)

end CodeModel

end DesignMetrics
