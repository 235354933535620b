import DesignMetrics.Engine.Run
import DesignMetrics.Engine.SettingsFile
import DesignMetrics.Metrics.Request
import DesignMetrics.Model.Draft
import DesignMetrics.Model.Merge
import DesignMetrics.Proofs.Digraph.Arcs
import DesignMetrics.Proofs.Digraph.Components
import DesignMetrics.Proofs.Digraph.History
import DesignMetrics.Proofs.Digraph.KeptEdge
import DesignMetrics.Proofs.Digraph.Reachability
import DesignMetrics.Proofs.Digraph.SearchInvariant
import DesignMetrics.Proofs.Digraph.SearchSteps
import DesignMetrics.Proofs.Engine.Pipeline
import DesignMetrics.Proofs.Engine.Pool
import DesignMetrics.Proofs.Engine.Run
import DesignMetrics.Proofs.Metrics.Content
import DesignMetrics.Proofs.Metrics.Cycles
import DesignMetrics.Proofs.Metrics.Merging
import DesignMetrics.Proofs.Metrics.Noise
import DesignMetrics.Proofs.Metrics.Sections
import DesignMetrics.Proofs.Model.EdgeMap
import DesignMetrics.Proofs.Names.Distinct
import DesignMetrics.Proofs.Metrics.Summary
import DesignMetrics.Proofs.Metrics.TypeCoupling
import DesignMetrics.Proofs.Metrics.Totals
import DesignMetrics.Proofs.Binary64.Integers
import DesignMetrics.Proofs.Statistics.Order
import DesignMetrics.Proofs.Metrics.Reordering
import DesignMetrics.Proofs.Model.Concat
import DesignMetrics.Proofs.Model.Merge
import DesignMetrics.Proofs.Digraph.DisjointUnion
import DesignMetrics.Proofs.Binary64.Nearest
import DesignMetrics.Proofs.Binary64.Range
import DesignMetrics.Proofs.Digraph.Extremes
import DesignMetrics.Proofs.Digraph.Parts
import DesignMetrics.Proofs.Engine.SettingsFile
import DesignMetrics.Proofs.Metrics.NamespaceCycles
import DesignMetrics.Proofs.Metrics.Range
import DesignMetrics.Proofs.Metrics.Unrelated
import DesignMetrics.Proofs.Digraph.CompletionOrder
import DesignMetrics.Proofs.Digraph.NewEdge
import DesignMetrics.Proofs.Digraph.Partition
import DesignMetrics.Proofs.Engine.SettingsRoundTrip
import DesignMetrics.Proofs.Binary64.Quotient
import DesignMetrics.Proofs.Digraph.Degrees
import DesignMetrics.Proofs.Metrics.NamespaceCoupling
import DesignMetrics.Proofs.Metrics.Balance
import DesignMetrics.Proofs.Metrics.TargetAccount
import DesignMetrics.Proofs.Binary64.Monotone
import DesignMetrics.Proofs.Metrics.CycleEdges
import DesignMetrics.Proofs.Metrics.MainSequence
import DesignMetrics.Proofs.Metrics.Cohesion
import DesignMetrics.Proofs.Binary64.Exact
import DesignMetrics.Proofs.Binary64.SquareRoot
import DesignMetrics.Proofs.Metrics.Averages
import DesignMetrics.Proofs.Statistics.Deviation
import DesignMetrics.Proofs.Statistics.Median
