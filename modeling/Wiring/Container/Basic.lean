import Wiring.Container.Order
import Wiring.Graph.Components
import Wiring.LockMode

/-!
Containers: the frozen result of a compilation. Public services and public aliases can be fetched;
what is private is known to be so.
-/

namespace Wiring

/-- A compiled container. -/
structure Container where
  plans : List ServicePlan
  /-- What each alias leads to. -/
  aliases : Table String
  /-- Identifiers that are refused to the outside. -/
  privateIds : List String
  /-- The graph that the container was made of. -/
  graph : Graph
  lockMode : LockMode
  heights : Table Nat
  /-- The construction order of each service. -/
  orders : Table (List String)
  /-- The lock that guards each shared service. Services on one cycle have one lock. -/
  locks : Table Nat

namespace Container

/-- The locks of shared services. -/
def buildLocks (g : Graph) (plans : List ServicePlan) : LockMode → Except Failure (Table Nat)
  | .unguarded => .ok []
  | .thread => do
    let components := (← g.edges).components
    return (plans.filter (·.isShared)).map fun p => (p.id, (components.get? p.id).getD 0)

/-- Freezes a graph. `privateIds` are private identifiers that compilation may have removed. -/
def freeze (g : Graph) (lockMode : LockMode) (privateIds : List String) :
    Except Failure Container := do
  let plans ← g.definitions.mapM g.plan
  let aliases ← g.aliases.mapM fun a => do return (a.id, ← g.resolveAliasStrict a.id)
  let graph ← g.copy
  let heights ← ServicePlan.heights plans
  let locks ← buildLocks g plans lockMode
  return {
    plans, aliases, graph, lockMode, heights, locks
    privateIds := privateIds ++ (plans.filter fun p => !p.isPublic).map (·.id)
    orders := plans.map fun p => (p.id, ServicePlan.order plans heights p.id) }

/-- The plan of a service. -/
def plan? (c : Container) (id : String) : Option ServicePlan := c.plans.find? fun p => p.id == id

/-- Whether there is a plan for a service that is not private. -/
def isPublicPlan (c : Container) (id : String) : Bool :=
  (c.plan? id).isSome && !c.privateIds.contains id

/-- Whether an identifier can be fetched. -/
def has (c : Container) (id : String) : Bool := c.aliases.has id || c.isPublicPlan id

/-- Whether a value is an identifier that can be fetched. -/
def contains (c : Container) : Value → Bool
  | .str id => c.has id
  | _ => false

/-- All identifiers that can be fetched, sorted. -/
def serviceIds (c : Container) : List String :=
  Failure.sortTexts <|
    ((c.plans.map (·.id)).filter fun id => !c.privateIds.contains id) ++ c.aliases.names

/-- The service that an identifier stands for. -/
def publicTarget (c : Container) (id : String) : Except Failure String :=
  match c.aliases.get? id with
  | some target => .ok target
  | none =>
    if c.privateIds.contains id then .error (.access (.str id))
    else if (c.plan? id).isNone then .error (.notFound (.str id) c.serviceIds)
    else .ok id

/-- The construction order of a service. -/
def orderOf (c : Container) (id : String) : List String := (c.orders.get? id).getD []

/-- The construction order of what an identifier stands for. -/
def resolutionOrder (c : Container) (id : String) : Except Failure (List String) := do
  return c.orderOf (← c.publicTarget id)

/-- The pruned graph, ready to be compiled again. -/
def definitions (c : Container) : Except Failure Graph := c.graph.copy

/-- How many plans there are, embedded ones included. -/
def planCount (c : Container) : Nat := c.plans.foldl (fun n p => n + p.size) 0

/-- The container in one line. -/
def shown (c : Container) : String :=
  "CompiledContainer(services=" ++ toString c.plans.length ++ ", aliases=" ++
    toString c.aliases.length ++ ")"

end Container

end Wiring
