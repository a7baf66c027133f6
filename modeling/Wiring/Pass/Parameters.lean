import Wiring.Graph.Build

/-!
Parameters in arguments: all parameters are resolved, and every argument that refers to one becomes
its value.
-/

namespace Wiring.Pass

/-- The rule that puts the resolved parameters into the arguments of `service`. -/
def parameterRule (resolved : Table Value) (service : String) : Rule
  | .parameter name =>
    match resolved.get? name with
    | some v => .ok (.literal v)
    | none => .error (.fault (.missingParameter name (.argument service)) none)
  | a => .ok a

/-- Resolves and freezes the parameters of the graph. -/
def freezeParameters : Build (Table Value) := do
  let (bag, resolved) ← Build.check (← Build.graph).parameters.resolveAll
  Build.change fun g => { g with parameters := bag }
  return resolved

/-- Resolves the parameters, and the arguments that refer to them. -/
def resolveParameters : Build Unit := do
  let resolved ← freezeParameters
  Build.changeOrFail fun g => g.reviseAll fun d => parameterRule resolved d.id

end Wiring.Pass
