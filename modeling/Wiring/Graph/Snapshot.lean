import Wiring.Graph.Basic
import Wiring.Definition.Equality

/-!
Snapshots of a graph, by which changes are detected. A snapshot holds embedded recipes as they
are at the time of the comparison, not as they were when it was taken.
-/

namespace Wiring

/-- The structure of a graph at one time. -/
structure Snapshot where
  definitions : List Definition
  aliases : List Alias
  /-- The parameters in the order of their names. -/
  parameters : Table Value

namespace Snapshot

/-- Equality of snapshots. -/
def same (a b : Snapshot) : Bool :=
  pairwise Definition.sameState a.definitions b.definitions && a.aliases == b.aliases &&
    sameEntries a.parameters b.parameters

/-- The snapshot with embedded recipes as they are now. -/
def refresh (s : Snapshot) (pool : Pool) : Snapshot :=
  { s with definitions := s.definitions.map pool.expandDefinition }

end Snapshot

namespace Graph

/-- The snapshot of a graph, whose tags must have all their parts. -/
def snapshot (g : Graph) : Except Failure Snapshot := do
  g.definitions.forM fun d => d.tags.forM fun l => discard l.parts
  return {
    definitions := g.definitions
    aliases := g.aliases
    parameters := g.parameters.values.mergeSort fun a b => decide (a.1 ≤ b.1) }

end Graph

end Wiring
