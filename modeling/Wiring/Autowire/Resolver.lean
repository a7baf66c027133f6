import Wiring.Autowire.Wish
import Wiring.Autowire.Capability
import Wiring.Autowire.Inspection
import Wiring.Graph.Build

/-!
Autowiring: slots, and parameters for which nothing is given, are filled by the service that
provides what they ask for.
-/

namespace Wiring

/-- A definition under autowiring, with the notes taken so far. -/
structure Filling where
  definition : Definition
  notes : List Note := []

/-- Work on a definition. A failure keeps the state that it arose in. -/
abbrev Fill := EStateM Failure Filling

namespace Autowire

/-- The place of an argument as messages show it. -/
def placeLabel (position : Nat) (p : Option Parameter) : String :=
  "#" ++ toString position ++ ((p.map fun p => " ($" ++ p.name ++ ")").getD "")

/-- What a request comes to. -/
inductive Choice where
  /-- The only service that provides the capability. -/
  | only (id : String)
  /-- A service that is named, or the default among several. -/
  | chosen (id : String)
  | absent
  deriving DecidableEq, Repr

/-- The choice among the services `candidates`, all of which provide the capability. -/
def chooseAmong (g : Graph) (index : CapabilityIndex) (service : String) (r : Request)
    (capability : Value) (candidates : List String) : Except Failure Choice :=
  match candidates with
  | [id] => .ok (.only id)
  | [] =>
    if r.mayBeAbsent then .ok .absent
    else
      let rejected := g.ids.filter fun id => id != service
      .error (.fault (.noCandidate ⟨service, r.argument, capability, rejected⟩) none)
  | candidates =>
    match (index.defaults capability).filter candidates.contains with
    | [id] => .ok (.chosen id)
    | _ => .error (.fault (.ambiguous ⟨service, r.argument, capability, candidates⟩) none)

/-- The choice for a request of the service `service`. -/
def choose (g : Graph) (index : CapabilityIndex) (service : String) (r : Request) :
    Except Failure Choice :=
  match r.name, r.capability with
  | some name, _ => do
    let target ← g.resolveAlias name
    if g.has target then return .chosen name
    else if r.mayBeAbsent then return .absent
    else throw (.fault (.missingService name (.named r.argument service)) none)
  | none, none => .error (.breach (.noCapability r.argument service))
  | none, some capability =>
    chooseAmong g index service r capability
      ((index.providers capability).filter fun id => id != service)

/-- The choice for a request of the service under autowiring, with a note of a service that was
found by its capability alone. -/
def fulfil (g : Graph) (index : CapabilityIndex) (r : Request) : Fill Choice := do
  let service := (← get).definition.id
  match choose g index service r with
  | .error e => throw e
  | .ok choice =>
    match choice with
    | .only id =>
      modify fun s => { s with notes := s.notes ++ [.autowired service r.argument id] }
    | _ => pure ()
    return choice

/-- The argument of a choice for a slot, which keeps its place. -/
def slotArgument : Choice → Argument
  | .only id | .chosen id => .reference ⟨id, false, false⟩
  | .absent => .literal .null

/-- Fills the slot at a position, if there is one. -/
def fillPosition (g : Graph) (index : CapabilityIndex) (parameters : List Parameter)
    (hints : Table Hint) (position : Nat) : Argument → Fill Unit
  | .autowire slot => do
    let p := parameters[position]?
    let hint := p.bind fun p => hints.get? p.name
    let choice ← fulfil g index (.ofSlot slot (placeLabel position p) hint)
    modify fun s => { s with definition :=
      { s.definition with arguments := s.definition.arguments.set position (slotArgument choice) } }
  | _ => pure ()

/-- Gives a keyword argument to the definition under autowiring. -/
def putKeyword (name : String) (a : Argument) : Fill Unit :=
  modify fun s => { s with definition :=
    { s.definition with keywords := Table.put s.definition.keywords name a } }

/-- Fills the slot of a keyword, if there is one. -/
def fillKeyword (g : Graph) (index : CapabilityIndex) (hints : Table Hint) (name : String) :
    Argument → Fill Unit
  | .autowire slot => do
    let choice ← fulfil g index (.ofSlot slot ("$" ++ name) (hints.get? name))
    putKeyword name (slotArgument choice)
  | _ => pure ()

/-- Fills a parameter for which nothing is given. An absent service leaves a default alone. -/
def fillParameter (g : Graph) (index : CapabilityIndex) (hints : Table Hint) (covered : Nat)
    (position : Nat) (p : Parameter) : Fill Unit := do
  let d := (← get).definition
  if (position < covered && p.kind != .keywordOnly) || Table.has d.keywords p.name then return
  if p.kind = .positionalOnly then throw (.breach (.positionalOnly p.name d.id))
  match hints.get? p.name with
  | none =>
    if !p.hasDefault then
      throw (.breach (.unannotated (placeLabel position (some p)) d.id))
  | some hint =>
    match ← fulfil g index (.ofParameter p (placeLabel position (some p)) hint) with
    | .absent => if !p.hasDefault then putKeyword p.name (.literal .null)
    | choice => putKeyword p.name (slotArgument choice)

/-- Whether a definition has anything to autowire. -/
def isWanted (d : Definition) : Bool :=
  d.autowired || d.allArguments.any Argument.isSlot

/-- Fails where a check fails. -/
def require {α : Type} : Except Failure α → Fill α
  | .ok a => pure a
  | .error e => throw e

/-- Fills the slots of the definition, and what is not given when it is to be autowired. -/
def fill (g : Graph) (index : CapabilityIndex) : Fill Unit := do
  let d := (← get).definition
  if !isWanted d then return
  let parameters ← require (Definition.inspect d)
  let hints ← if parameters.isEmpty then pure [] else require (Definition.annotations d)
  d.arguments.zipIdx.forM fun (a, i) => fillPosition g index parameters hints i a
  d.keywords.forM fun (name, a) => fillKeyword g index hints name a
  if d.autowired then
    parameters.zipIdx.forM fun (p, i) => fillParameter g index hints d.arguments.length i p

end Autowire

namespace Build

/-- Autowires the definition of an identifier, with the services of `index`. -/
def autowire (index : CapabilityIndex) (d : Definition) : Build Definition := do
  let g ← Build.graph
  let (failure, filling) :=
    match (Autowire.fill g index).run { definition := d } with
    | .ok _ s => (none, s)
    | .error e s => (some e, s)
  Build.change fun g => g.update d.id fun _ => filling.definition
  filling.notes.forM Build.note
  match failure with
  | none => return filling.definition
  | some e => throw e

end Build

end Wiring
