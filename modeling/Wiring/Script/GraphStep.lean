import Wiring.Script.World

/-!
Steps on graphs and tag indexes.
-/

namespace Wiring.Script

namespace Change

/-- A definition with the change. -/
def apply (d : Definition) : Change → Definition
  | .factory f => { d with factory := f }
  | .arguments as => { d with arguments := as }
  | .keywords ks => { d with keywords := Table.ofList ks }
  | .tags ts => { d with tags := ts }
  | .isPublic b => { d with isPublic := b }
  | .isShared b => { d with isShared := b }
  | .isAbstract b => { d with isAbstract := b }
  | .isLazy b => { d with isLazy := b }
  | .autowired b => { d with autowired := b }
  | .capabilities vs => { d with capabilities := vs }
  | .defaultFor vs => { d with defaultFor := vs }
  | .parent p => { d with parent := p }

/-- The change with new marks for embedded recipes. -/
def freshen : Change → StateM Nat Change
  | .arguments as => do return .arguments (← Argument.freshenAll as)
  | .keywords ks => do return .keywords (← Argument.freshenNamed ks)
  | c => pure c

end Change

/-- The rule that puts an argument in the place of every reference to `target`. -/
def replaceRule (target : String) (given : Argument) : Rule
  | .reference r => .ok (if r.id = target then given else .reference r)
  | a => .ok a

/-- The definition that is handed over; plain values are refused. -/
def DraftGiven.define (given : DraftGiven) (autowired : Bool) : Except Failure Definition :=
  match given with
  | .draft d => d.define autowired
  | .value v => .error (.refused (.definition v.typeName))

namespace Action

/-- Fails where a check fails. -/
def check {α : Type} : Except Failure α → Action α
  | .ok a => pure a
  | .error e => throw e

/-- Work in the world. -/
def world {α : Type} (job : EStateM Failure World α) : Action α := liftM job

/-- Reads what is handed over. -/
def read {α : Type} (reading : Reading α) : Action α := world (World.read reading)

/-- The number of the container, once there is one. -/
def container : Action Nat := do
  match (← get).container with
  | some n => return n
  | none => throw .noContainer

/-- The container. -/
def running : Action Running := do
  let n ← container
  match (← world get).containers[n]? with
  | some r => return r
  | none => throw .noContainer

/-- The number of the graph that a target stands for. -/
def target : Target → Action Nat
  | .main => return (← get).main
  | .builder => do
    let n := (← get).builder
    return ((← world get).builder n).registry
  | .definitions => do
    let g ← check (← running).container.definitions
    world (modifyGet (World.allocate g))
  | .named name => do
    match (← get).graphs.get? name with
    | some n => return n
    | none => throw (.unknownName name)

/-- The graph of a number. -/
def graph (n : Nat) : Action Graph := do return (← world get).graph n

/-- Changes the graph of a number. -/
def setGraph (n : Nat) (g : Graph) : Action Unit := world (modify (World.setGraph n g))

/-- The tag index. -/
def index : Action TagIndex := do
  let n := (← get).index
  return (← world get).index n

/-- Adds a definition to the graph of a number: the definition as it is kept. -/
def addDefinition (n : Nat) (d : Definition) : Action Answer := do
  let g ← graph n
  if g.has d.id then world (modify (World.note (.overrides d.id)))
  let g := g.add d
  setGraph n g
  return .definition (g.find? d.id)

/-- Makes a change to the definition of an identifier. -/
def change (n : Nat) (id : String) (c : Change) : Action Unit := do
  let g ← graph n
  let (c, nextMark) := c.freshen.run g.nextMark
  setGraph n ({ g with nextMark }.update id c.apply)

/-- Makes changes to the definition of an identifier, one after the other. All of them are read
before the first is made. -/
def mutate (n : Nat) (id : String) (changes : Reading (List Change)) : Action Answer := do
  discard <| check ((← graph n).get id)
  (← read changes).forM (change n id)
  return .definition ((← graph n).find? id)

/-- Replaces references in the definition of an identifier. -/
def revise (n : Nat) (id target : String) (given : Reading Argument) : Action Answer := do
  let g ← graph n
  discard <| check (g.get id)
  let (given, nextMark) := (← read given).freshen.run g.nextMark
  let (failure, g) :=
    { g with nextMark }.reviseOne id given.embedded (replaceRule target given)
  setGraph n g
  match failure with
  | none => return .definition (g.find? id)
  | some e => throw e

/-- Autowires definitions one after the other; one that was autowired before is left alone. -/
def autowire (n : Nat) (ids : List String) : Action Answer := do
  let index ← check (CapabilityIndex.ofGraph (← graph n))
  let step (shown : List Definition × List String) (id : String) :
      Action (List Definition × List String) := do
    let d ← check ((← graph n).get id)
    let d ← if shown.2.contains id then pure d else world (World.build n (Build.autowire index d))
    return (shown.1 ++ [d], id :: shown.2)
  return .definitions (← ids.foldlM step ([], [])).1

/-- The parameters that autowiring may fill, and the names of the annotated ones, which are read
first. -/
def inspect (d : Definition) : Except Failure Answer := do
  let hints ← Definition.annotations d
  let parameters ← Definition.inspect d
  return .inspection parameters (Failure.sortTexts hints.names)

/-- Runs a step on the graph of a number. -/
def graphStep (n : Nat) (act : GraphAct) : Action Answer := do
  let g ← graph n
  match act with
  | .add given => addDefinition n (← check ((← read given).define false))
  | .get id => return .definition (some (← check (g.get id)))
  | .find id => return .definition (g.find? id)
  | .has id => return .flag (g.has id)
  | .contains id => return .flag (g.contains id)
  | .remove id =>
    setGraph n (g.remove id)
    return .nothing
  | .ids => return .texts g.ids
  | .len => return .count g.definitions.length
  | .tagged tag => return .tagged (← check (g.tagged tag))
  | .tagNames => return .texts (← check g.tagNames)
  | .setAlias a =>
    setGraph n (← check (g.setAlias a))
    return .oneAlias a
  | .removeAlias id =>
    setGraph n (g.removeAlias id)
    return .nothing
  | .hasAlias id => return .flag (g.hasAlias id)
  | .getAlias id => return .oneAlias (← check (g.getAlias id))
  | .aliases => return .aliases g.aliases
  | .resolveAlias id => return .text (← check (g.resolveAlias id))
  | .resolveAliasStrict id => return .text (← check (g.resolveAliasStrict id))
  | .setParameter name value =>
    let name ← read name
    setGraph n { g with parameters := ← check (g.parameters.set name (← read value)) }
    return .nothing
  | .getParameter name => return .value (← check (g.parameters.get name))
  | .hasParameter name => return .flag (g.parameters.has name)
  | .parameters => return .bag g.parameters
  | .copy name =>
    let m ← world (modifyGet (World.allocate (← check g.copy)))
    modify (Session.bindGraph name m)
    return .nothing
  | .snapshot name =>
    let snapshot ← check g.snapshot
    let snapshots := (← world get).snapshots
    world (modify fun w => { w with snapshots := snapshots ++ [⟨n, snapshot⟩] })
    modify fun s => { s with snapshots := s.snapshots.put name snapshots.length }
    return .nothing
  | .compare name =>
    let now ← check g.snapshot
    let snapshots := (← world get).snapshots
    match (← get).snapshots.get? name >>= fun i => snapshots[i]? with
    | some p => return .flag (now.same (p.snapshot.refresh (← graph p.graph).recipes))
    | none => throw (.unknownName name)
  | .dump => return .graph g
  | .mutate id changes => mutate n id changes
  | .hasTag id tag => return .flag (← check ((← check (g.get id)).hasTag tag))
  | .tagsNamed id tag => return .tags (← check ((← check (g.get id)).tagsNamed tag))
  | .priorities id => return .numbers (← check ((← check (g.get id)).tags.mapM Label.priority))
  | .references id => return .arguments (Definition.referents (← check (g.get id)))
  | .capabilities id => return .values (← check (← check (g.get id)).providedCapabilities)
  | .revise id target given => revise n id target given
  | .rootIds => return .texts (← check g.rootIds)
  | .reachable => return .texts (Failure.sortTexts (← check g.reachableIds))
  | .edges => return .edges (← check g.edges)
  | .components =>
    let numbers := (← check g.edges).components
    return .components (numbers.mergeSort fun a b => decide (a.1 ≤ b.1))
  | .validate =>
    check g.validate
    return .nothing
  | .pass which dump =>
    world (World.runBuiltin which (← get).index n)
    let after ← graph n
    return if dump then .graph after else .nothing
  | .plan id => return .plan (← check (g.plan (← check (g.get id))))
  | .autowire ids => autowire n ids
  | .providers capability =>
    let index ← check (CapabilityIndex.ofGraph g)
    let capability ← read capability
    return .offers (index.providers capability) (index.defaults capability)
  | .inspect id => check (inspect (← check (g.get id)))
  | .indexRebuild =>
    let number := (← get).index
    let i ← world (World.build n (← index).rebuild)
    world (modify (World.setIndex number i))
    return .index i.entries

/-- Runs a step on the tag index. -/
def indexStep (act : IndexAct) : Action Answer := do
  let i ← index
  match act with
  | .addRule reading =>
    let (capability, tag) ← read reading
    let rule ← check (RuleDesk.index.accept capability tag)
    let number := (← get).index
    world (modify (World.setIndex number (i.addRule rule)))
    return .rule rule
  | .rules => return .rules i.rules
  | .tagged tag => return .entries (i.tagged tag)
  | .ids tag => return .texts (i.taggedIds tag)
  | .names => return .texts i.entries.names
  | .copy =>
    let number ← world (modifyGet (World.allocateIndex i.copy))
    modify fun s => { s with index := number }
    return .nothing

end Action

end Wiring.Script
