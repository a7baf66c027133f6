import Wiring.Graph.Components

/-!
Validation of dependency cycles. A cycle can be constructed when all its edges are lazy; any other
edge inside a component closes a cycle that cannot, and the shortest cycle through it is reported.
-/

namespace Wiring.EdgeMap

/-- A breadth-first search under way. -/
structure PathSearch where
  queue : List String
  seen : List String
  /-- From where each identifier was first seen. -/
  previous : Table String := []

namespace PathSearch

/-- Follows an edge to what has not been seen and is inside. -/
def see (inside : String → Bool) (source : String) (w : PathSearch) (target : String) :
    PathSearch :=
  if w.seen.contains target || !inside target then w
  else {
    queue := w.queue ++ [target]
    seen := w.seen ++ [target]
    previous := w.previous.put target source }

/-- Searches until `goal` is first in the queue, in at most `rounds` rounds. -/
def run (edges : EdgeMap) (inside : String → Bool) (goal : String) :
    (rounds : Nat) → PathSearch → PathSearch
  | 0, w => w
  | rounds + 1, w =>
    match w.queue with
    | [] => w
    | id :: queue =>
      if id = goal then w
      else run edges inside goal rounds ((edges.targets id).foldl (see inside id) { w with queue })

/-- The path from `start` to `id`, traced back over at most `steps` predecessors. -/
def trace (previous : Table String) (start : String) :
    (steps : Nat) → (id : String) → Except Failure (List String)
  | steps, id =>
    if id = start then .ok [start]
    else
      match steps with
      | 0 => .error .tooDeep
      | steps + 1 => do
        let some source := previous.get? id | throw (.unknownName id)
        return (← trace previous start steps source) ++ [id]

end PathSearch

/-- A shortest cycle through an edge inside a component. -/
def shortestCycle (edges : EdgeMap) (components : Table Nat) (e : Edge) :
    Except Failure (List String) := do
  if e.source = e.target then return [e.source, e.source]
  let inside (id : String) : Bool := components.get? id == components.get? e.source
  let search := PathSearch.run edges inside e.source edges.nodes.length
    { queue := [e.target], seen := [e.target] }
  return e.source ::
    (← PathSearch.trace search.previous e.target edges.nodes.length e.source)

/-- The first edge, by sorted sources and then argument order, that is not lazy and stays in its
component. -/
def firstFatal? (edges : EdgeMap) (components : Table Nat) : Option Edge :=
  ((Failure.sortTexts (Table.names edges)).flatMap edges.leaving).find? fun e =>
    !e.isLazy && components.get? e.source == components.get? e.target

/-- Accepts edges whose cycles are all lazy. -/
def validate (edges : EdgeMap) : Except Failure Unit := do
  let components := edges.components
  match edges.firstFatal? components with
  | none => return
  | some e =>
    let cycle ← edges.shortestCycle components e
    throw (.fault (.circularServices cycle) none)

end Wiring.EdgeMap

namespace Wiring.Graph

/-- Accepts a graph whose dependency cycles are all lazy. -/
def validate (g : Graph) : Except Failure Unit := do
  (← g.edges).validate

end Wiring.Graph
