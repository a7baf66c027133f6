import Wiring.Graph.Reach
import Wiring.Graph.Build

/-!
Removal of definitions that are not reached from the roots.
-/

namespace Wiring.Pass

/-- Takes out every definition that no public service or alias needs. -/
def removeUnused : Build Unit := do
  let g ← Build.graph
  let reached ← Build.check g.reachableIds
  (g.ids.filter fun id => !reached.contains id).forM fun id => do
    Build.note (.unused id)
    Build.change fun g => g.remove id

end Wiring.Pass
