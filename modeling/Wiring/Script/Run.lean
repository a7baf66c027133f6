import Wiring.Script.BuilderStep

/-!
Running scripts. Passes and providers run scripts of their own, each in a session of its own.
-/

namespace Wiring.Script

namespace Action

/-- Runs a step; `run` runs the steps of passes and providers. -/
def step (run : Runner) (rounds : Nat) : Step → Action Answer
  | .invalid e => throw e
  | .graph on act => do graphStep (← target on) act
  | .define given => do return .definition (some (← check ((← read given).define false)))
  | .mergeTags tag inferred => do
    let tag ← read tag
    return .tag (← check (tag.mergedWith (← read inferred)))
  | .sortTagged entries => do return .ranking (← check (Rank.sortValues (← read entries)))
  | .index act => indexStep act
  | .pipeAdd pass phase priority => pipeAdd pass phase priority
  | .pipePasses phase => do return schedule (← get).pipeline (← read phase)
  | .pipeLen => do return .count (← get).pipeline.passes.length
  | .pipeCopy => return .nothing
  | .pipeRun => pipeRun run
  | .builder source lock autowireByDefault => newBuilder source lock autowireByDefault
  | .register draft => do
    let draft ← read draft
    let (_, b) ← builder
    addDefinition b.registry (← check (draft.define b.autowireByDefault))
  | .builderAdd given => do
    let given ← read given
    let (_, b) ← builder
    addDefinition b.registry (← check (given.define false))
  | .setAlias a => do
    let (_, b) ← builder
    setGraph b.registry (← check ((← graph b.registry).setAlias a))
    return .flag true
  | .setParameter name value => do
    let name ← read name
    let value ← read value
    let (_, b) ← builder
    let g ← graph b.registry
    setGraph b.registry { g with parameters := ← check (g.parameters.set name value) }
    return .flag true
  | .autoconfigure rule => autoconfigure rule
  | .addPass pass phase priority => do
    let (_, b) ← builder
    let p ← extendPipeline b.pipeline pass phase priority
    setBuilder { b.toBuilder with pipeline := p }
    return .count p.passes.length
  | .passes phase => do
    let phase ← read phase
    return schedule (← builder).2.pipeline phase
  | .addProvider provider => addProvider provider
  | .compile => compile run rounds
  | .container act => containerStep act

end Action

/-- Runs the steps of passes and providers, which may nest down to `depth`. -/
def runNested (rounds : Nat) : (depth : Nat) → Runner
  | 0, _, _ => throw .tooDeep
  | depth + 1, session, steps => do
    let one (s : Step) : Action Unit := do
      let answer ← Action.step (runNested rounds depth) rounds s
      Action.check answer.checkShown
      Action.world (modify (World.record (.step answer)))
    discard <| (steps.forM one).run session

/-- How a step ended, and what happened on the way. -/
structure Outcome where
  result : Except Failure Answer
  events : List Event

/-- How deep passes and providers may nest. -/
def nestingLimit : Nat := 200

/-- How many rounds of providers a compilation may boot. -/
def roundLimit : Nat := 100000

/-- Runs a step for a session: how it ended, and what the session and the world are then. -/
def runStep (session : Session) (w : World) (s : Step) : Outcome × Session × World :=
  let run := runNested roundLimit nestingLimit
  match (Action.step run roundLimit s).run session { w with events := [] } with
  | .ok (answer, session) w => (⟨answer.checkShown.map fun _ => answer, w.events⟩, session, w)
  | .error e w => (⟨.error e, w.events⟩, session, w)

/-- Runs steps one after the other. A failed step does not keep those after it from running. -/
def runSteps (session : Session) (w : World) : List Step → List Outcome
  | [] => []
  | s :: rest =>
    let (outcome, session, w) := runStep session w s
    outcome :: runSteps session w rest

/-- Runs a script from the start: with an empty graph, a builder that has nothing registered, and
no container. -/
def runScript (conducts : Table Conduct) (logging : Bool) (steps : List Step) :
    List Outcome :=
  let w : World := { conducts, logging }
  let (main, w) := w.allocate {}
  let (registry, w) := w.allocate {}
  let (builder, w) := w.allocateBuilder registry .thread false
  let (index, w) := w.allocateIndex {}
  runSteps { main, builder, index } w steps

end Wiring.Script
