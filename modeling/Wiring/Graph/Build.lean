import Wiring.Graph.Basic
import Wiring.Note

/-!
Work on a graph. What is done before a failure stays done, and notes are taken in order.
-/

namespace Wiring

/-- A graph under work, with the notes taken so far. -/
structure Workbench where
  graph : Graph
  notes : List Note := []

/-- Work on a graph. A failure keeps the state that it arose in. -/
abbrev Build := EStateM Failure Workbench

namespace Build

/-- The graph as it is. -/
def graph : Build Graph := do return (← get).graph

/-- Changes the graph. -/
def change (f : Graph → Graph) : Build Unit :=
  modify fun w => { w with graph := f w.graph }

/-- Takes a note. -/
def note (n : Note) : Build Unit :=
  modify fun w => { w with notes := w.notes ++ [n] }

/-- Fails where a check fails. -/
def check {α : Type} : Except Failure α → Build α
  | .ok a => pure a
  | .error e => throw e

/-- Changes the graph and fails with what went wrong on the way, if anything did. -/
def changeOrFail (f : Graph → Option Failure × Graph) : Build Unit := do
  let (failure, g) := f (← graph)
  change fun _ => g
  match failure with
  | none => pure ()
  | some e => throw e

end Build

end Wiring
