import Wiring.Pipeline
import Wiring.Container.Basic

/-!
Builders collect definitions, passes and providers, and compile them into containers.

Like its pipeline, a builder lives in a world of its own making, where passes are of a type `π`,
providers of a type `ρ`, and graphs are reached by handles of a type `γ`.
-/

namespace Wiring

/-- A builder. -/
structure Builder (γ π ρ : Type) where
  registry : γ
  lockMode : LockMode := .thread
  /-- Whether definitions are autowired that do not say it. -/
  autowireByDefault : Bool := false
  pipeline : Pipeline π := {}
  /-- All providers in the order of their registration. -/
  providers : List ρ := []
  /-- How many providers have been taken up for booting. -/
  booted : Nat := 0

/-- Adds a provider, which the next compilation boots. -/
def Builder.addProvider {γ π ρ : Type} (b : Builder γ π ρ) (p : ρ) : Builder γ π ρ :=
  { b with providers := b.providers ++ [p] }

/-- The world that a builder compiles in. -/
structure Yard (σ γ π ρ : Type) where
  builder : σ → Builder γ π ρ
  setBuilder : Builder γ π ρ → σ → σ
  graph : γ → σ → Graph
  /-- Makes a new graph. -/
  allocate : Graph → σ → γ × σ
  perform : π → γ → EStateM Failure σ (Returned γ)
  passName : π → String
  /-- The hook in which a provider contributes. -/
  register : ρ → EStateM Failure σ Unit
  /-- The hook in which a provider adjusts what others have contributed. -/
  alter : ρ → EStateM Failure σ Unit
  providerName : ρ → String
  note : Note → σ → σ

namespace Yard

variable {σ γ π ρ : Type} (yard : Yard σ γ π ρ)

/-- The world of the builder's pipeline. -/
def host : Host σ γ π where
  pipeline s := (yard.builder s).pipeline
  graph := yard.graph
  perform := yard.perform
  passName := yard.passName
  note := yard.note

/-- Work in the world of a builder. -/
abbrev Work (σ : Type) := EStateM Failure σ

/-- Fails where a check fails. -/
def check {α : Type} : Except Failure α → Work σ α
  | .ok a => pure a
  | .error e => throw e

/-- Takes up the providers that have been added since the last time. -/
def takePending : Work σ (List ρ) := do
  let b := yard.builder (← get)
  modify (yard.setBuilder { b with booted := b.providers.length })
  return b.providers.drop b.booted

/-- Runs the first hook of a provider. -/
def bootRegister (p : ρ) : Work σ Unit := do
  modify (yard.note (.provider (yard.providerName p)))
  yard.register p

/-- Boots providers, and those that these add, in at most `rounds` rounds. -/
def bootProviders : (rounds : Nat) → Work σ Unit
  | 0 => throw .tooDeep
  | rounds + 1 => do
    match ← yard.takePending with
    | [] => return
    | pending =>
      pending.forM yard.bootRegister
      pending.forM yard.alter
      bootProviders rounds

/-- Identifiers of a graph that are private. -/
def privateIds (g : Graph) : List String :=
  (g.definitions.filter fun d => !d.isPublic).map (·.id) ++
    (g.aliases.filter fun a => !a.isPublic).map (·.id)

/-- Compiles: boots providers, runs the pipeline on a copy of the registry, and freezes what comes
out. The registry itself is left as it is. -/
def compile (rounds : Nat) : Work σ Container := do
  yard.bootProviders rounds
  let b := yard.builder (← get)
  let source ← check (yard.graph b.registry (← get)).copy
  let working ← modifyGet (yard.allocate source)
  let final ← Pipeline.run yard.host working
  let g := yard.graph final (← get)
  let b := yard.builder (← get)
  let container ← check (Container.freeze g b.lockMode (privateIds source))
  modify (yard.note (.compiled {
    definitions := source.definitions.length
    kept := g.definitions.length
    inlined := g.definitions.foldl (fun n d => n + d.embeddedCount) 0
    aliases := g.aliases.length
    passes := b.pipeline.passes.length
    lockMode := b.lockMode.name }))
  return container

end Yard

end Wiring
