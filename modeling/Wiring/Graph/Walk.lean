/-!
Walks over identifiers. A breadth-first walk visits what its queue holds, in order and each
identifier once, and queues what a visit yields. A depth-first walk lists each identifier after
all that are first reached through it.
-/

namespace Wiring.Walk

/-- A breadth-first walk with `room` visits left: the identifiers visited, in order. `visit` says
what an identifier leads to, and may act on the way. -/
def breadthFirst {m : Type → Type} [Monad m] (visit : String → m (List String)) :
    (room : Nat) → (queue : List String) → (visited : List String) → m (List String)
  | 0, _, visited => pure visited
  | room + 1, queue, visited =>
    match queue.dropWhile visited.contains with
    | [] => pure visited
    | id :: rest => do
      let found ← visit id
      breadthFirst visit room (rest ++ found) (visited ++ [id])

/-- A depth-first walk under way. -/
structure DepthFirst where
  /-- What has been reached. -/
  seen : List String := []
  /-- What is done, in order. -/
  done : List String := []
  deriving Repr

namespace DepthFirst

/-- Visits an identifier that has not been reached, and what is first reached through it, over
paths of at most `depth`. -/
def visit (next : String → List String) : (depth : Nat) → String → DepthFirst → DepthFirst
  | 0, _, w => w
  | depth + 1, id, w =>
    let w := (next id).foldl
      (fun w target => if w.seen.contains target then w else visit next depth target w)
      { w with seen := id :: w.seen }
    { w with done := w.done ++ [id] }

/-- Visits the roots that have not been reached before, one after the other. -/
def visitAll (next : String → List String) (depth : Nat) (roots : List String) : DepthFirst :=
  roots.foldl (fun w root => if w.seen.contains root then w else visit next depth root w) {}

end DepthFirst

/-- All that is reached from the roots over paths of at most `depth`, each after what is first
reached through it. -/
def postorder (next : String → List String) (depth : Nat) (roots : List String) : List String :=
  (DepthFirst.visitAll next depth roots).done

end Wiring.Walk
