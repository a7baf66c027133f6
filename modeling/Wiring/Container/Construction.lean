import Wiring.Container.Basic
import Wiring.Note

/-!
Construction at run time. Shared services are built once and kept; what a service depends on is
built before it. Factories are code of the application: a call of one is described by what it
does, which may be to ask for a service through a handle it was given.
-/

namespace Wiring

/-- What a call of a factory does, where `σ` is the state of the application. -/
inductive Call (σ : Type) where
  /-- It is done, with a product or a failure. -/
  | finish (result : Except Failure Value) (state : σ)
  /-- It asks for a service, and goes on with what comes of that. -/
  | demand (id : String) (state : σ) (resume : Except Failure Value → σ → Call σ)

/-- The application, as a container sees it. -/
structure Application (σ : Type) where
  /-- Calls a factory with positional and keyword arguments. -/
  call : Factory → List Value → Table Value → σ → Call σ
  /-- Takes a note. -/
  note : Note → σ → σ

/-- A container at work. -/
structure Machine (σ : Type) where
  /-- Shared services that are built. -/
  instances : Table Value := []
  /-- Services under construction, the outermost first. -/
  stack : List String := []
  state : σ

namespace Container

variable {σ : Type}

/-- Work of a container. A failure keeps the state that it arose in. -/
abbrev Work (σ : Type) := EStateM Failure (Machine σ)

/-- Work whose failure becomes a result. -/
def observe {α : Type} (work : Work σ α) : Work σ (Except Failure α) := fun m =>
  match work m with
  | .ok a m => .ok (.ok a) m
  | .error e m => .ok (.error e) m

/-- Fails with a failed result. -/
def fromResult {α : Type} : Except Failure α → Work σ α
  | .ok a => pure a
  | .error e => throw e

/-- Carries out what a call does; `resolve` answers its demands. -/
def drive (resolve : String → Work σ Value) : Call σ → Work σ Value
  | .finish result state => do
    modify fun m => { m with state }
    fromResult result
  | .demand id state resume => do
    modify fun m => { m with state }
    let result ← observe (resolve id)
    drive resolve (resume result (← get).state)

/-- Does work on behalf of a service under construction. No service can be under construction
twice. -/
def enclose {α : Type} (id : String) (work : Work σ α) : Work σ α := do
  let stack := (← get).stack
  if stack.contains id then
    throw (.fault (.circularServices (stack.drop (stack.idxOf id) ++ [id])) none)
  modify fun m => { m with stack := m.stack ++ [id] }
  let result ← observe work
  modify fun m => { m with stack := m.stack.dropLast }
  fromResult result

/-- Calls a factory for a service. -/
def callFactory (app : Application σ) (resolve : String → Work σ Value) (id : String)
    (factory : Factory) (arguments : List Value) (keywords : Table Value) : Work σ Value := do
  modify fun m => { m with state := app.note (.constructing id) m.state }
  drive resolve (app.call factory arguments keywords (← get).state)

mutual

/-- The value of a binding in container number `self`. -/
def evaluate (app : Application σ) (self : Nat) (resolve : String → Work σ Value) :
    Binding → Work σ Value
  | .value v => pure v
  | .service id => resolve id
  | .deferred id => pure (.deferred self id)
  | .collection _ items => do return .list (← evaluateAll app self resolve items)
  | .inline plan => enclose plan.id do
    let arguments ← evaluateAll app self resolve plan.arguments
    let keywords ← evaluateNamed app self resolve plan.keywords
    callFactory app resolve plan.id plan.factory arguments keywords

/-- The values of bindings, in order. -/
def evaluateAll (app : Application σ) (self : Nat) (resolve : String → Work σ Value) :
    List Binding → Work σ (List Value)
  | [] => pure []
  | b :: bs => do
    let v ← evaluate app self resolve b
    return v :: (← evaluateAll app self resolve bs)

/-- The values of keyword bindings, in order. -/
def evaluateNamed (app : Application σ) (self : Nat) (resolve : String → Work σ Value) :
    List (String × Binding) → Work σ (Table Value)
  | [] => pure []
  | (name, b) :: bs => do
    let v ← evaluate app self resolve b
    return (name, v) :: (← evaluateNamed app self resolve bs)

end

/-- Carries out a plan. -/
def construct (app : Application σ) (self : Nat) (resolve : String → Work σ Value)
    (plan : ServicePlan) : Work σ Value :=
  evaluate app self resolve (.inline plan)

/-- Carries out the plan of a shared service and keeps the product. -/
def constructShared (app : Application σ) (self : Nat) (resolve : String → Work σ Value)
    (plan : ServicePlan) : Work σ Value := do
  let v ← construct app self resolve plan
  modify fun m => { m with instances := m.instances.put plan.id v }
  return v

/-- The product that is kept for a service. -/
def kept? (id : String) : Work σ (Option Value) := do
  return (← get).instances.get? id

/-- Carries out the plan of a shared service. Under a lock, what another holder of the lock has
built meanwhile is taken in place. -/
def constructGuarded (c : Container) (app : Application σ) (self : Nat)
    (resolve : String → Work σ Value) (plan : ServicePlan) : Work σ Value := do
  if c.locks.has plan.id then
    match ← kept? plan.id with
    | some v => return v
    | none => constructShared app self resolve plan
  else constructShared app self resolve plan

/-- Builds the shared services that come before a service in its construction order. -/
def prewarm (c : Container) (app : Application σ) (self : Nat)
    (resolve : String → Work σ Value) (id : String) : Work σ Unit :=
  (c.orderOf id).dropLast.forM fun dependency => do
    match c.plan? dependency with
    | some plan =>
      if plan.isShared && (← kept? dependency).isNone then
        discard (constructGuarded c app self resolve plan)
    | none => pure ()

/-- The product of a service: the one that is kept, if the service is shared and was built before.
Each service under construction takes one off `room`. -/
def resolve (c : Container) (app : Application σ) (self : Nat) : (room : Nat) → String →
    Work σ Value
  | 0, _ => throw .tooDeep
  | room + 1, id => do
    let below := resolve c app self room
    match c.plan? id with
    | none => throw (.notFound (.str id) c.serviceIds)
    | some plan =>
      if plan.isShared then
        match ← kept? id with
        | some v => return v
        | none =>
          prewarm c app self below id
          constructGuarded c app self below plan
      else
        prewarm c app self below id
        construct app self below plan

/-- The product of a service that a handle stands for. -/
def deferredGet (c : Container) (app : Application σ) (self : Nat) (id : String) :
    Work σ Value :=
  resolve c app self (c.planCount + 1) id

/-- The product of what an identifier stands for. -/
def get (c : Container) (app : Application σ) (self : Nat) (id : String) : Work σ Value := do
  deferredGet c app self (← fromResult (c.publicTarget id))

end Container

end Wiring
