import Wiring.Script.GraphStep

/-!
Steps on pipelines, builders and containers.
-/

namespace Wiring.Script.Action

/-! ## Pipelines -/

/-- A pass as it is handed over, before it is accepted. -/
inductive PassOffer where
  | task (task : Task)
  /-- A plain value, which cannot be called. -/
  | value (value : Value)

/-- Reads a pass. A pass of the library follows the tag index of the session. -/
def readPass : PassGiven Step → Action PassOffer
  | .builtin which => do return .task (.builtin which (← get).index)
  | .script script => return .task (.script script)
  | .factory factory => return .task (.factory factory)
  | .value reading => do return .value (← read reading)

/-- The pass that is handed over. -/
def acceptPass : PassOffer → Except Failure Task
  | .task t => .ok t
  | .value v => .error (.refused (.pass v))

/-- The phase that is handed over. -/
def acceptPhase : PhaseGiven → Except Failure Phase
  | .phase p => .ok p
  | .value v => .error (.refused (.phase v))

/-- A registered pass as it is reported. -/
def report (s : Scheduled Task) : String × Phase × Int × Nat :=
  (World.taskName s.pass, s.phase, s.priority, s.sequence)

/-- A pipeline with a pass registered. -/
def extendPipeline (p : Pipeline Task) (pass : PassGiven Step) (phase : Reading PhaseGiven)
    (priority : Reading Value) : Action (Pipeline Task) := do
  let pass ← readPass pass
  let phase ← read phase
  let priority ← read priority
  let task ← check (acceptPass pass)
  let phase ← check (acceptPhase phase)
  return p.add task phase (← check (priority.toWhole.mapError .whole))

/-- The passes of a pipeline in execution order: those of a phase, or all where none is asked for.
What is no phase has no passes. -/
def schedule (p : Pipeline Task) (phase : PhaseGiven) : Answer :=
  .schedule <| (match phase with
    | .value .null => p.ordered
    | .phase phase => p.ofPhase phase
    | .value _ => []).map report

/-- Adds a pass to the session's pipeline. -/
def pipeAdd (pass : PassGiven Step) (phase : Reading PhaseGiven) (priority : Reading Value) :
    Action Answer := do
  let p ← extendPipeline (← get).pipeline pass phase priority
  modify fun s => { s with pipeline := p }
  match p.passes.getLast? with
  | some s => return .scheduled (World.taskName s.pass) s.phase s.priority s.sequence
  | none => return .nothing

/-- Runs the session's pipeline on the main graph, in whose place comes what it hands back. -/
def pipeRun (run : Runner) : Action Answer := do
  let s ← get
  let final ← world (Pipeline.run (World.host run s.builder s.pipeline) s.main)
  set { s with main := final }
  return .pipelineRun (final == s.main) (← graph final)

/-! ## Builders -/

/-- The number of the session's builder and the builder. -/
def builder : Action (Nat × WorldBuilder) := do
  let n := (← get).builder
  return (n, (← world get).builder n)

/-- Changes the session's builder. -/
def setBuilder (b : Builder Nat Task (ProviderScript Step)) : Action Unit := do
  let n := (← get).builder
  world (modify (World.setBuilder n b))

/-- The number of the registry that a new builder starts from. -/
def acceptRegistry : RegistrySource → Action Nat
  | .empty => world (modifyGet (World.allocate {}))
  | .container => target .definitions
  | .graph t => target t

/-- The locking strategy that is handed over. -/
def acceptLock : LockGiven → Except Failure LockMode
  | .mode m => .ok m
  | .value v => .error (.refused (.lockMode v))

/-- Starts a new builder. -/
def newBuilder (source : RegistrySource) (lock : Reading LockGiven) (autowireByDefault : Bool) :
    Action Answer := do
  let registry ← acceptRegistry source
  let mode ← check (acceptLock (← read lock))
  let n ← world (modifyGet (World.allocateBuilder registry mode autowireByDefault))
  modify fun s => { s with builder := n }
  return .text mode.name

/-- Adds a rule to the builder's tag index: the number of its rules. -/
def autoconfigure (reading : Reading (Value × Tag)) : Action Answer := do
  let (capability, tag) ← read reading
  let rule ← check (RuleDesk.builder.accept capability tag)
  let (_, b) ← builder
  let i := ((← world get).index b.index).addRule rule
  world (modify (World.setIndex b.index i))
  return .count i.rules.length

/-- Adds a provider to the builder. -/
def addProvider : ProviderGiven Step → Action Answer
  | .value reading => do throw (.refused (.provider (← read reading).typeName))
  | .script p => do
    let (_, b) ← builder
    setBuilder (b.toBuilder.addProvider p)
    return .nothing

/-- Compiles; `rounds` bounds how often providers may add providers. -/
def compile (run : Runner) (rounds : Nat) : Action Answer := do
  let (n, _) ← builder
  let c ← world ((World.yard run n).compile rounds)
  let number := (← world get).containers.length
  world (modify fun w => { w with containers := w.containers ++ [⟨c, []⟩] })
  modify fun s => { s with container := some number }
  return .text c.shown

/-! ## Containers -/

/-- The argument that the `n`-th object was built with, or one item of it. -/
def builtArgument (n : Nat) (place : Place) (item : Option Nat) : Action Value := do
  let product := ((← world get).built[n]?).getD ⟨"", [], []⟩
  let v :=
    match place with
    | .position i => product.arguments[i]?.getD .null
    | .keyword name => (product.keywords.get? name).getD .null
  match item, v with
  | some i, .list items => return items[i]?.getD .null
  | _, v => return v

/-- Runs a step on the container. -/
def containerStep (act : ContainerAct) : Action Answer := do
  match act with
  | .deferred n place item =>
    let handle ← builtArgument n place item
    match handle with
    | .deferred number id =>
      let v ← world (World.work number fun c => c.deferredGet World.application number id)
      return .handle handle.shown v
    | v => return .handle v.shown v
  | act =>
    let number ← container
    let c := (← running).container
    match act with
    | .get id =>
      return .value (← world (World.work number fun c => c.get World.application number id))
    | .has id => return .flag (c.has id)
    | .contains reading => return .flag (c.contains (← read reading))
    | .ids => return .texts c.serviceIds
    | .len => return .count c.serviceIds.length
    | .order id => return .texts (← check (c.resolutionOrder id))
    | .orders => return .orders (← c.serviceIds.mapM fun id => do
        return (id, ← check (c.resolutionOrder id)))
    | .lock => return .text c.lockMode.name
    | .deferred _ _ _ => return .nothing

end Wiring.Script.Action
