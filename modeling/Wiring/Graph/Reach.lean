import Wiring.Graph.Basic
import Wiring.Definition.Referents
import Wiring.Graph.Walk

/-!
What a graph needs: the definitions that are reached from its public services and aliases.
-/

namespace Wiring.Graph

/-- Public definitions that are no templates. -/
def publicIds (g : Graph) : List String :=
  (g.definitions.filter fun d => d.isPublic && !d.isAbstract).map (·.id)

/-- The definitions, no templates, that public aliases lead to. -/
def aliasRoots (g : Graph) : Except Failure (List String) := do
  let targets ← (g.aliases.filter (·.isPublic)).mapM fun a => g.resolveAlias a.id
  return targets.filter fun t => ((g.find? t).map fun d => !d.isAbstract).getD false

/-- The roots of a graph, each once. -/
def rootIds (g : Graph) : Except Failure (List String) := do
  return (g.publicIds ++ (← g.aliasRoots)).eraseDups

/-- The definitions with a tag, templates and `consumer` apart. -/
def tagMembers (g : Graph) (tag consumer : String) : Except Failure (List String) := do
  let tagged ← g.definitions.filterM fun d => d.hasTag tag
  return (tagged.filter fun d => !d.isAbstract && !(d.id == consumer)).map (·.id)

/-- What a definition leads to: the targets of its references, then the members of the tags that it
collects. -/
def successors (g : Graph) (d : Definition) : Except Failure (List String) := do
  let targets ← Definition.eachReference d fun r => g.resolveAlias r.id
  let members ← d.allArguments.mapM fun
    | .tagged tag => g.tagMembers tag d.id
    | _ => .ok []
  return targets.filter g.has ++ members.flatten

/-- All definitions that are reached from the roots, in the order in which they are visited. -/
def reachableIds (g : Graph) : Except Failure (List String) := do
  Walk.breadthFirst (fun id => do g.successors (← g.get id)) g.definitions.length (← g.rootIds) []

end Wiring.Graph
