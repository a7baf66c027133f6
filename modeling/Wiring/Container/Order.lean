import Wiring.Plan
import Wiring.Graph.Walk

/-!
The order in which services are constructed: each after what it depends on, deeper chains first,
and dependencies of one height in argument order.
-/

namespace Wiring.ServicePlan

/-- The services that a service depends on. -/
def dependenciesOf (plans : List ServicePlan) (id : String) : List String :=
  ((plans.find? fun p => p.id == id).map (·.dependencies)).getD []

/-- Heights found so far; a service whose height is still being computed has none. -/
abbrev Heights := Table (Option Nat)

/-- The height of a service, and of all below it, over chains of at most `depth`. A dependency
whose height is still being computed closes a cycle. -/
def measure (next : String → List String) : (depth : Nat) → String → Heights →
    Except Failure Heights
  | 0, _, _ => .error .tooDeep
  | depth + 1, id, heights => do
    let heights ← (next id).foldlM (fun heights dependency =>
      match Table.get? heights dependency with
      | some none =>
        .error (.fault (.circularServices [id, dependency, id]) none)
      | some (some _) => .ok heights
      | none => measure next depth dependency heights) (Table.put heights id none)
    let below := (next id).map fun d => ((Table.get? heights d).getD none).getD 0
    return Table.put heights id (some ((below.max?.map (· + 1)).getD 0))

/-- The length of the longest chain of dependencies below each service. -/
def heights (plans : List ServicePlan) : Except Failure (Table Nat) := do
  let found ← (plans.map (·.id)).foldlM (fun heights id =>
    if Table.has heights id then .ok heights
    else measure (dependenciesOf plans) plans.length id heights) ([] : Heights)
  return found.map fun (id, h) => (id, h.getD 0)

/-- The dependencies of a service, the highest first. -/
def byHeight (plans : List ServicePlan) (heights : Table Nat) (id : String) : List String :=
  (dependenciesOf plans id).mergeSort fun a b =>
    decide ((heights.get? b).getD 0 ≤ (heights.get? a).getD 0)

/-- The construction order of a service and all that it depends on; the service comes last. -/
def order (plans : List ServicePlan) (heights : Table Nat) (id : String) : List String :=
  Walk.postorder (byHeight plans heights) plans.length [id]

end Wiring.ServicePlan
