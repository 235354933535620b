import DesignMetrics.Names.Set
import DesignMetrics.Text.Blank

/-!
# Edge targets

Targets are reported as a sequence, whose order counts, or as an unordered set. Missing entries are
skipped. A set is read in ascending order.
-/

namespace DesignMetrics

inductive Targets where
  | absent
  | sequence (items : List (Option String))
  | unordered (items : List (Option String))

namespace Targets

/-- The targets in the order in which edges to them are added. -/
def ordered : Targets → List String
  | absent => []
  | sequence items => items.filterMap id
  | unordered items => (NameSet.ofList (items.filterMap id)).names

/-- The targets that name something. -/
def distinct (targets : Targets) : NameSet :=
  NameSet.ofList (targets.ordered.filter fun name => !Text.isBlank name)

end Targets

end DesignMetrics
