import Wiring.Graph.Snapshot
import Wiring.Note

/-!
Pipelines of compiler passes. Phases run in order; within a phase the passes that are there when
it begins run by descending priority, those of one priority in the order of their registration.

A pipeline runs in a world of its own making: passes are of a type `π`, graphs are reached by
handles of a type `γ`, and all that can change is a state of type `σ`.
-/

namespace Wiring

/-- A pass with its place in the schedule. -/
structure Scheduled (π : Type) where
  pass : π
  phase : Phase
  priority : Int
  sequence : Nat

/-- A pipeline. -/
structure Pipeline (π : Type) where
  /-- The passes in the order of their registration. -/
  passes : List (Scheduled π) := []
  nextSequence : Nat := 0

/-- What a pass hands back. -/
inductive Returned (γ : Type) where
  /-- The graph that it got, or nothing. -/
  | same
  /-- Another graph. -/
  | graph (graph : γ)
  /-- Something else, known by the name of its type. -/
  | other (typeName : String)

/-- The world that a pipeline runs in. -/
structure Host (σ γ π : Type) where
  /-- The pipeline as it is at the moment; passes may add to it. -/
  pipeline : σ → Pipeline π
  /-- The graph behind a handle. -/
  graph : γ → σ → Graph
  /-- Runs a pass on a graph. -/
  perform : π → γ → EStateM Failure σ (Returned γ)
  passName : π → String
  /-- Takes a note. -/
  note : Note → σ → σ

namespace Scheduled

variable {π : Type}

/-- Whether `a` runs no later than `b`. -/
def runsBefore (a b : Scheduled π) : Bool :=
  if a.phase.rank != b.phase.rank then a.phase.rank < b.phase.rank
  else if a.priority != b.priority then b.priority < a.priority
  else a.sequence ≤ b.sequence

end Scheduled

namespace Pipeline

variable {σ γ π : Type}

/-- Registers a pass. -/
def add (p : Pipeline π) (pass : π) (phase : Phase) (priority : Int) : Pipeline π where
  passes := p.passes ++ [⟨pass, phase, priority, p.nextSequence⟩]
  nextSequence := p.nextSequence + 1

/-- All passes in execution order. -/
def ordered (p : Pipeline π) : List (Scheduled π) := p.passes.mergeSort Scheduled.runsBefore

/-- The passes of a phase in execution order. -/
def ofPhase (p : Pipeline π) (phase : Phase) : List (Scheduled π) :=
  p.ordered.filter fun s => s.phase == phase

/-- Work in a world. A failure keeps the state that it arose in. -/
abbrev Work (σ : Type) := EStateM Failure σ

/-- Fails where a check fails. -/
def check {α : Type} : Except Failure α → Work σ α
  | .ok a => pure a
  | .error e => throw e

/-- Work whose failure gets the phase, unless it has one. -/
def inPhase {α : Type} (phase : Phase) (work : Work σ α) : Work σ α := fun s =>
  match work s with
  | .ok a s => .ok a s
  | .error e s => .error (e.withPhase phase) s

/-- A failure of the pipeline itself in a phase. -/
def breach (why : Breach) (phase : Phase) : Failure := .fault (.breach why) (some phase)

/-- The snapshot that a pass of the validation phase has to leave as it is. -/
def snapshotBefore (host : Host σ γ π) (phase : Phase) (g : γ) : Work σ (Option Snapshot) := do
  if phase = .beforeRemoving then return some (← check (host.graph g (← get)).snapshot)
  else return none

/-- Runs a pass: the graph that comes out. A pass of the validation phase must hand back the graph
that it got, with its structure unchanged. -/
def runPass (host : Host σ γ π) (s : Scheduled π) (g : γ) : Work σ γ := do
  let name := host.passName s.pass
  modify (host.note (.pass name s.phase s.priority))
  let before ← snapshotBefore host s.phase g
  let returned ← inPhase s.phase (host.perform s.pass g)
  match returned with
  | .other typeName => throw (breach (.passResult name typeName) s.phase)
  | .same =>
    if let some before := before then
      let now := host.graph g (← get)
      if !(← check now.snapshot).same (before.refresh now.recipes) then
        throw (breach (.validationChanged name) s.phase)
    return g
  | .graph other =>
    if before.isSome then throw (breach (.validationChanged name) s.phase)
    return other

/-- Runs a phase with the passes that are registered when it begins. -/
def runPhase (host : Host σ γ π) (g : γ) (phase : Phase) : Work σ γ := do
  ((host.pipeline (← get)).ofPhase phase).foldlM (fun g s => runPass host s g) g

/-- Runs all phases: the final graph. -/
def run (host : Host σ γ π) (g : γ) : Work σ γ :=
  Phase.all.foldlM (runPhase host) g

end Pipeline

end Wiring
