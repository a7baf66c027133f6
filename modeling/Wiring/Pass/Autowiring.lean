import Wiring.Autowire.Resolver
import Wiring.Graph.Reach

/-!
Autowiring of a graph: only definitions that are reached from the roots are autowired, so one that
nobody needs never fails.
-/

namespace Wiring.Pass

/-- Autowires a definition, and says what it then leads to. -/
def autowireVisit (index : CapabilityIndex) (id : String) : Build (List String) := do
  let d ← Build.check ((← Build.graph).get id)
  let d ← Build.autowire index d
  Build.check ((← Build.graph).successors d)

/-- Autowires all definitions that are reached from the roots. -/
def autowire : Build Unit := do
  let g ← Build.graph
  let index ← Build.check (CapabilityIndex.ofGraph g)
  let roots ← Build.check g.rootIds
  discard <| Walk.breadthFirst (autowireVisit index) g.definitions.length roots []

end Wiring.Pass
