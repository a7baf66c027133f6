import Wiring.Graph.Basic

/-!
Which services provide a capability, and which do so by default.
-/

namespace Wiring

/-- Services by the capabilities that they provide, and by those that they are the default for. -/
structure CapabilityIndex where
  providing : List (Value × String)
  default : List (Value × String)

namespace CapabilityIndex

/-- The services that a definition adds to the index, by its capabilities. -/
def offers (d : Definition) : Except Failure (List (Value × String)) := do
  return (← d.providedCapabilities).map fun c => (c.token, d.id)

/-- The index of a graph, from which templates are left out. -/
def ofGraph (g : Graph) : Except Failure CapabilityIndex := do
  let concrete := g.definitions.filter fun d => !d.isAbstract
  let providing ← concrete.mapM offers
  return {
    providing := providing.flatten
    default := concrete.flatMap fun d => d.defaultFor.map fun c => (c.token, d.id) }

/-- The services under a capability, sorted. -/
def under (entries : List (Value × String)) (capability : Value) : List String :=
  Failure.sortTexts <|
    (entries.filter fun e => e.1.same capability.token).map (·.2)

/-- The services that provide a capability, sorted. -/
def providers (index : CapabilityIndex) (capability : Value) : List String :=
  under index.providing capability

/-- The services that provide a capability by default, sorted. -/
def defaults (index : CapabilityIndex) (capability : Value) : List String :=
  under index.default capability

end CapabilityIndex

end Wiring
