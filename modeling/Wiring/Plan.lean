import Wiring.Graph.Basic
import Wiring.Definition.Referents

/-!
Construction plans: what a compiled definition does at run time. Every argument is bound to a
value, to a service, to a handle of one, to a list of these, or to a plan that is carried out in
place.
-/

namespace Wiring

/-- A plan whose arguments are bound by `β`. -/
structure Plan (β : Type) where
  id : String
  factory : Factory
  arguments : List β
  keywords : List (String × β)
  isShared : Bool
  isPublic : Bool
  /-- The services that must be there before, each once and in argument order. -/
  dependencies : List String

/-- What an argument is at run time. -/
inductive Binding where
  | value (value : Value)
  | service (id : String)
  | deferred (id : String)
  | collection (tag : String) (items : List Binding)
  | inline (plan : Plan Binding)

/-- A construction plan. -/
abbrev ServicePlan := Plan Binding

namespace Binding

mutual

/-- The services that a binding needs at once, in collections and embedded plans too. -/
def eager : Binding → List String
  | .service id => [id]
  | .collection _ items => eagerAll items
  | .inline plan => eagerAll plan.arguments ++ eagerNamed plan.keywords
  | _ => []

/-- The services that several bindings need at once. -/
def eagerAll : List Binding → List String
  | [] => []
  | b :: bs => eager b ++ eagerAll bs

/-- The services that keyword bindings need at once. -/
def eagerNamed : List (String × Binding) → List String
  | [] => []
  | (_, b) :: bs => eager b ++ eagerNamed bs

end

mutual

/-- How many plans a binding holds. -/
def planCount : Binding → Nat
  | .collection _ items => planCountAll items
  | .inline plan => 1 + planCountAll plan.arguments + planCountNamed plan.keywords
  | _ => 0

/-- How many plans several bindings hold. -/
def planCountAll : List Binding → Nat
  | [] => 0
  | b :: bs => planCount b + planCountAll bs

/-- How many plans keyword bindings hold. -/
def planCountNamed : List (String × Binding) → Nat
  | [] => 0
  | (_, b) :: bs => planCount b + planCountNamed bs

end

end Binding

namespace ServicePlan

/-- The plan of a recipe with its arguments bound. -/
def assemble {α : Type} (r : Recipe α) (factory : Factory) (arguments : List Binding)
    (keywords : List (String × Binding)) : ServicePlan where
  id := r.id
  factory := factory
  arguments := arguments
  keywords := keywords
  isShared := r.isShared
  isPublic := r.isPublic
  dependencies := (Binding.eagerAll arguments ++ Binding.eagerNamed keywords).eraseDups

/-- How many plans there are in a plan, itself included. -/
def size (p : ServicePlan) : Nat :=
  1 + Binding.planCountAll p.arguments + Binding.planCountNamed p.keywords

end ServicePlan

namespace Graph

/-- The factory of a recipe, which it must have. -/
def planFactory {α : Type} (r : Recipe α) : Except Failure Factory :=
  match r.factory with
  | some f => .ok f
  | none => .error (.breach (.noFactory r.id))

/-- The binding of a reference in the graph. -/
def bindReference (g : Graph) (consumer : String) (r : Reference) : Except Failure Binding := do
  let target ← g.resolveAlias r.id
  match g.find? target with
  | none =>
    if r.optional then return .value .null
    else throw (.fault (.missingService r.id (.dependency consumer)) none)
  | some d => return if r.lazy || d.isLazy then .deferred target else .service target

mutual

/-- The binding of an argument in the graph. Compilation leaves no parameters, tags and slots. -/
def bind (g : Graph) (consumer : String) : Argument → Except Failure Binding
  | .literal v => .ok (.value v)
  | .reference r => g.bindReference consumer r
  | .collection tag members => do
    return .collection tag (← members.mapM (g.bindReference consumer))
  | .mixture tag members => do
    return .collection tag
      (← members.mapM fun a => do g.bindReference consumer (← a.requireReference "id"))
  | .inlined _ recipe => do
    let factory ← planFactory recipe
    let arguments ← bindAll g recipe.id recipe.arguments
    let keywords ← bindNamed g recipe.id recipe.keywords
    return .inline (ServicePlan.assemble recipe factory arguments keywords)
  | .plain v => .error (.breach (.unsupportedArgument v.shown consumer))
  | a => .error (.breach (.leftOverArgument a.shown consumer))

/-- The bindings of positional arguments. -/
def bindAll (g : Graph) (consumer : String) : List Argument → Except Failure (List Binding)
  | [] => .ok []
  | a :: as => do
    let b ← bind g consumer a
    return b :: (← bindAll g consumer as)

/-- The bindings of keyword arguments. -/
def bindNamed (g : Graph) (consumer : String) :
    List (String × Argument) → Except Failure (List (String × Binding))
  | [] => .ok []
  | (name, a) :: as => do
    let b ← bind g consumer a
    return (name, b) :: (← bindNamed g consumer as)

end

/-- The plan of a definition in the graph. -/
def plan (g : Graph) (d : Definition) : Except Failure ServicePlan := do
  let factory ← planFactory d
  let arguments ← g.bindAll d.id d.arguments
  let keywords ← g.bindNamed d.id d.keywords
  return ServicePlan.assemble d factory arguments keywords

end Graph

end Wiring
