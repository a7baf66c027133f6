import Wiring.Definition.Referents
import Wiring.Graph.Basic

/-!
Strongly connected components, by a depth-first search with a work stack of its own (Tarjan). What
has been met stays on a second stack until its whole component has been met. Components are numbered
in the order in which they are complete.
-/

/-! ## Edges

Dependency edges of a graph. Every reference to a service that is there makes an edge; it is lazy
when the reference is, or the service.
-/

namespace Wiring

/-- A dependency. -/
structure Edge where
  source : String
  target : String
  isLazy : Bool
  deriving DecidableEq, Repr

/-- The edges that leave each identifier, in argument order. -/
abbrev EdgeMap := Table (List Edge)

namespace EdgeMap

/-- The edges that leave an identifier. -/
def leaving (edges : EdgeMap) (id : String) : List Edge :=
  (Table.get? edges id).getD []

/-- The identifiers that an identifier has edges to. -/
def targets (edges : EdgeMap) (id : String) : List String :=
  (edges.leaving id).map (·.target)

/-- All identifiers on edges, each once. -/
def nodes (edges : EdgeMap) : List String :=
  (edges.flatMap fun (id, es) => id :: es.map (·.target)).eraseDups

end EdgeMap

namespace Graph

/-- The edge that a reference of `source` makes, if its target is there. -/
def edgeOf (g : Graph) (source : String) (r : Reference) : Except Failure (Option Edge) := do
  let target ← g.resolveAlias r.id
  return (g.find? target).map fun d => ⟨source, target, r.lazy || d.isLazy⟩

/-- The edges of a graph, by the order of its definitions. -/
def edges (g : Graph) : Except Failure EdgeMap :=
  g.definitions.mapM fun d => do
    let found ← Definition.eachReference d (g.edgeOf d.id)
    return (d.id, found.filterMap id)

end Graph

end Wiring

/-! ## Components -/

namespace Wiring.EdgeMap

/-- A search for components under way. -/
structure Search where
  /-- How many identifiers had been met before each. -/
  index : Table Nat := []
  /-- The index of the earliest identifier on the stack that each is known to lead to. -/
  low : Table Nat := []
  /-- What has been met and is in no component yet, the latest first. -/
  stack : List String := []
  /-- The number of the component of each identifier. -/
  component : Table Nat := []
  /-- How many components there are. -/
  count : Nat := 0

namespace Search

/-- The index of an identifier that has been met. -/
def indexOf (w : Search) (id : String) : Nat := (w.index.get? id).getD 0

/-- The smallest index that an identifier is known to lead to. -/
def lowOf (w : Search) (id : String) : Nat := (w.low.get? id).getD 0

/-- Meets an identifier. -/
def meet (w : Search) (id : String) : Search :=
  { w with
    index := w.index.put id w.index.length
    low := w.low.put id w.index.length
    stack := id :: w.stack }

/-- Notes that an identifier leads to one of that index. -/
def lower (w : Search) (id : String) (index : Nat) : Search :=
  { w with low := w.low.put id (min (w.lowOf id) index) }

/-- Follows the edges of `id` to `targets` up to one that has not been met. Gives this one, with how
many edges have been followed by then. -/
def follow (id : String) :
    (followed : Nat) → (targets : List String) → Search → Search × Option (String × Nat)
  | _, [], w => (w, none)
  | followed, target :: targets, w =>
    if w.index.has target then
      follow id (followed + 1) targets
        (if w.stack.contains target then w.lower id (w.indexOf target) else w)
    else (w, some (target, followed + 1))

/-- Takes identifiers off a stack down to `id`, and gives each the number `n`. -/
def unstack (id : String) (n : Nat) :
    (stack : List String) → (component : Table Nat) → List String × Table Nat
  | [], component => ([], component)
  | x :: stack, component =>
    if x = id then (stack, component.put x n) else unstack id n stack (component.put x n)

/-- Makes a component of what is on the stack down to `id`. -/
def close (w : Search) (id : String) : Search :=
  let (stack, component) := unstack id w.count w.stack w.component
  { w with stack, component, count := w.count + 1 }

/-- Leaves an identifier whose edges have been followed. If it leads to nothing earlier on the stack,
its component is complete. -/
def leave (w : Search) (id : String) : Search :=
  if w.lowOf id = w.indexOf id then w.close id else w

/-- A round of work on `id`, of whose edges so many have been followed. Beneath it on the work stack
is `work`. -/
def round (edges : EdgeMap) (id : String) (followed : Nat) (work : List (String × Nat))
    (w : Search) : List (String × Nat) × Search :=
  match follow id followed ((edges.targets id).drop followed)
      (if followed = 0 then w.meet id else w) with
  | (w, some (target, followed)) => ((target, 0) :: (id, followed) :: work, w)
  | (w, none) =>
    let w := w.leave id
    match work with
    | [] => ([], w)
    | (parent, _) :: _ => (work, w.lower parent (w.lowOf id))

/-- Works the stack off, in at most `rounds` rounds. -/
def run (edges : EdgeMap) : (rounds : Nat) → (work : List (String × Nat)) → Search → Search
  | 0, _, w => w
  | _ + 1, [], w => w
  | rounds + 1, (id, followed) :: work, w =>
    let (work, w) := w.round edges id followed work
    run edges rounds work w

/-- Searches from an identifier, unless it has been met. -/
def visit (edges : EdgeMap) (w : Search) (id : String) : Search :=
  if w.index.has id then w else run edges (2 * edges.nodes.length) [(id, 0)] w

end Search

/-- The number of the component of each identifier. -/
def components (edges : EdgeMap) : Table Nat :=
  ((Failure.sortTexts (Table.names edges)).foldl (Search.visit edges) {}).component

end Wiring.EdgeMap
