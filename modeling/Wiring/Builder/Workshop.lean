import Wiring.Builder.Basic
import Wiring.Pass.Builtin

/-!
Compilation with the passes of the library alone. Where an application adds no passes and no
providers two graphs are enough: the registry, and the working copy that the passes change.
-/

namespace Wiring

/-- The pipeline that a builder starts with; `task` makes a pass out of one of the library's. -/
def Pipeline.standard {π : Type} (task : Builtin → π) : Pipeline π :=
  Builtin.schedule.foldl (fun p (b, phase, priority) => p.add (task b) phase priority) {}

/-- The graphs of a workshop. -/
inductive Bench where
  | registry
  | working
  deriving DecidableEq, Repr

/-- A builder without passes or providers of an application, and all that it works on. -/
structure Workshop where
  registry : Graph
  working : Graph := {}
  /-- The rules of autoconfiguration, and what the last rebuild found. -/
  index : TagIndex := {}
  builder : Builder Bench Builtin Empty :=
    { registry := .registry, pipeline := .standard fun b => b }
  notes : List Note := []

namespace Workshop

/-- The graph on a bench. -/
def graph : Bench → Workshop → Graph
  | .registry, w => w.registry
  | .working, w => w.working

/-- Puts a graph on a bench. -/
def setGraph (g : Graph) : Bench → Workshop → Workshop
  | .registry, w => { w with registry := g }
  | .working, w => { w with working := g }

/-- Runs a pass on the graph on a bench. What it did before a failure stays. -/
def perform (b : Builtin) (bench : Bench) : EStateM Failure Workshop (Returned Bench) := fun w =>
  let leave (left : Workbench) : Workshop :=
    { w.setGraph left.graph bench with notes := left.notes }
  match b.run w.index { graph := w.graph bench, notes := w.notes } with
  | .ok index left => .ok .same { leave left with index }
  | .error e left => .error e (leave left)

/-- A workshop as its builder compiles in it. -/
def yard : Yard Workshop Bench Builtin Empty where
  builder := builder
  setBuilder b w := { w with builder := b }
  graph := graph
  allocate g w := (.working, { w with working := g })
  perform := perform
  passName := Builtin.name
  register p := p.elim
  alter p := p.elim
  providerName p := p.elim
  note n w := { w with notes := w.notes ++ [n] }

/-- A workshop for a graph, under rules of autoconfiguration. -/
def start (g : Graph) (rules : List TagRule) : Workshop where
  registry := g
  index := { rules }

end Workshop

namespace Graph

/-- What the passes of the library make of a graph. -/
def runPasses (g : Graph) (rules : List TagRule) : Except Failure Graph :=
  let w := Workshop.start {} rules
  match Pipeline.run Workshop.yard.host .working { w with working := g } with
  | .ok bench w => .ok (w.graph bench)
  | .error e _ => .error e

/-- Compiles a graph with the passes of the library alone, under rules of autoconfiguration. -/
def compile (g : Graph) (rules : List TagRule) (lockMode : LockMode) : Except Failure Container :=
  let w := Workshop.start g rules
  match Workshop.yard.compile 1 { w with builder := { w.builder with lockMode } } with
  | .ok c _ => .ok c
  | .error e _ => .error e

end Graph

end Wiring
