import Wiring.Builder.Workshop
import Wiring.Container.Construction
import Wiring.Script.Answer
import Wiring.Script.Step
import Wiring.Value.Make

/-!
The world that scripts run in: graphs, tag indexes, builders and containers, which scripts reach by
their numbers, and what the application itself remembers.
-/

namespace Wiring.Script

/-- What a constructor of the application does besides building an object. -/
structure Conduct where
  /-- A failure that it ends with, in its first calls or in all. -/
  raises : Option (Failure × Option Nat) := none
  /-- Parameters whose handles it uses at once. -/
  eager : List String := []
  /-- The value that it hands back in place of a new object. -/
  returns : Option (Reading Value) := none

/-- A pass that is registered. -/
inductive Task where
  /-- A pass of the library, with the number of the tag index that it follows. -/
  | builtin (which : Builtin) (index : Nat)
  | script (script : PassScript Step)
  /-- A factory, which is called with the graph. -/
  | factory (factory : Factory)

/-- A builder in the world, with the number of its tag index. -/
structure WorldBuilder extends Builder Nat Task (ProviderScript Step) where
  index : Nat

/-- A container in the world, with the shared services that it has built. -/
structure Running where
  container : Container
  instances : Table Value := []

/-- An object that a factory built. -/
structure Product where
  typeName : String
  arguments : List Value
  keywords : Table Value

/-- A snapshot with the number of its graph. -/
structure TakenSnapshot where
  graph : Nat
  snapshot : Snapshot

/-- The world. -/
structure World where
  /-- What constructors do, by the name of the type that declares them. -/
  conducts : Table Conduct := []
  /-- Whether notes of the library count as events. -/
  logging : Bool := false
  graphs : List Graph := []
  indexes : List TagIndex := []
  builders : List WorldBuilder := []
  containers : List Running := []
  snapshots : List TakenSnapshot := []
  /-- The objects that factories built. -/
  built : List Product := []
  /-- How often each constructor was called. -/
  calls : Table Nat := []
  events : List Event := []
  /-- How many numbers that are not numbers have been made. -/
  marks : Nat := 0

namespace World

/-- Reads what is handed over. -/
def read {α : Type} (reading : Reading α) : EStateM Failure World α := fun w =>
  match reading.run w.marks with
  | .ok (a, marks) => .ok a { w with marks }
  | .error e => .error e w

/-- Records an event. -/
def record (e : Event) (w : World) : World := { w with events := w.events ++ [e] }

/-- Records a note of the library. -/
def note (n : Note) (w : World) : World := if w.logging then w.record (.log n) else w

/-- The graph of a number. -/
def graph (n : Nat) (w : World) : Graph := w.graphs[n]?.getD {}

/-- Makes a new graph. -/
def allocate (g : Graph) (w : World) : Nat × World :=
  (w.graphs.length, { w with graphs := w.graphs ++ [g] })

/-- Changes the graph of a number. -/
def setGraph (n : Nat) (g : Graph) (w : World) : World :=
  { w with graphs := w.graphs.modify n g.after }

/-- The tag index of a number. -/
def index (n : Nat) (w : World) : TagIndex := w.indexes[n]?.getD {}

/-- Makes a new tag index. -/
def allocateIndex (i : TagIndex) (w : World) : Nat × World :=
  (w.indexes.length, { w with indexes := w.indexes ++ [i] })

/-- Changes the tag index of a number. -/
def setIndex (n : Nat) (i : TagIndex) (w : World) : World :=
  { w with indexes := w.indexes.set n i }

/-- The builder of a number. -/
def builder (n : Nat) (w : World) : WorldBuilder := w.builders[n]?.getD { registry := 0, index := 0 }

/-- Changes the builder of a number. -/
def setBuilder (n : Nat) (b : Builder Nat Task (ProviderScript Step)) (w : World) : World :=
  { w with builders := w.builders.modify n fun old => { old with toBuilder := b } }

/-- Makes a new builder for the registry of a number, with a tag index of its own. -/
def allocateBuilder (registry : Nat) (lockMode : LockMode) (autowireByDefault : Bool)
    (w : World) : Nat × World :=
  let (index, w) := w.allocateIndex {}
  (w.builders.length,
    { w with builders := w.builders ++ [{
        registry, lockMode, autowireByDefault, index
        pipeline := .standard fun b => .builtin b index }] })

end World

/-! ## Factories of the application -/

namespace World

/-- Uses handles one after the other, then goes on. -/
def useHandles (handles : List String) (goOn : World → Call World) (w : World) : Call World :=
  match handles with
  | [] => goOn w
  | id :: rest => .demand id w fun result w =>
    match result with
    | .ok _ => useHandles rest goOn w
    | .error e => .finish (.error e) w

/-- The name of the type of a value. -/
def typeName (v : Value) (w : World) : String :=
  match v with
  | .built n => ((w.built[n]?).map (·.typeName)).getD v.typeName
  | v => v.typeName

/-- The name of the type of what a factory builds. -/
def productType (factory : Factory) : String :=
  if factory.type.isClass then factory.type.name else (Value.built 0).typeName

/-- Hands back the value of a constructor's conduct, or a new object. -/
def product (factory : Factory) (conduct : Conduct) (arguments : List Value)
    (keywords : Table Value) (w : World) : Call World :=
  match conduct.returns with
  | some reading =>
    match (read reading).run (w.record (.call factory.type.name)) with
    | .ok v w => .finish (.ok v) w
    | .error e w => .finish (.error e) w
  | none =>
    let n := w.built.length
    let w := { w with built := w.built ++ [Product.mk (productType factory) arguments keywords] }
    .finish (.ok (.built n)) (w.record (.build n factory.type.name arguments keywords))

/-- The handles bound to the parameters of a constructor that uses them at once. -/
def eagerHandles (conduct : Conduct) (bound : Table Value) : List String :=
  conduct.eager.filterMap fun name =>
    match bound.get? name with
    | some (.deferred _ id) => some id
    | _ => none

/-- Binds the arguments of a call, the new object of a class before the others. Where nothing can
be read of a factory, nothing is bound. -/
def bindCall (factory : Factory) (arguments : List Value) (keywords : Table Value) :
    Except Misfit (Table Value) :=
  match factory.type.kind with
  | .sealed => .ok []
  | _ =>
    Signature.bind (factory.receiver.toList ++ factory.parameters)
      (factory.receiver.toList.map (fun _ => Value.null) ++ arguments) keywords

/-- Calls a factory that the application declares. -/
def callDeclared (factory : Factory) (arguments : List Value) (keywords : Table Value)
    (w : World) : Call World :=
  match bindCall factory arguments keywords with
  | .error why => .finish (.error (.misfit why)) w
  | .ok bound =>
    let conduct := (w.conducts.get? factory.maker).getD {}
    let count := (w.calls.get? factory.maker).getD 0
    let w := { w with calls := w.calls.put factory.maker (count + 1) }
    let goOn := useHandles (eagerHandles conduct bound)
      (product factory conduct arguments keywords)
    match conduct.raises with
    | some (e, none) => .finish (.error e) w
    | some (e, some times) => if count < times then .finish (.error e) w else goOn w
    | none => goOn w

/-- Calls a factory. -/
def call (factory : Factory) (arguments : List Value) (keywords : Table Value) (w : World) :
    Call World :=
  match factory.type.kind with
  | .builtin => .finish (factory.type.make (fun v => w.typeName v) arguments keywords) w
  | _ => callDeclared factory arguments keywords w

/-- The application as its containers see it. -/
def application : Application World where
  call := call
  note := note

/-- Lets the container of a number work. -/
def work (n : Nat) (job : Container → Container.Work World Value) : EStateM Failure World Value :=
  fun w =>
    match w.containers[n]? with
    | none => .error .noContainer w
    | some running =>
      let finish (m : Machine World) : World :=
        { m.state with containers :=
          m.state.containers.set n { running with instances := m.instances } }
      match job running.container ⟨running.instances, [], w⟩ with
      | .ok v m => .ok v (finish m)
      | .error e m => .error e (finish m)

end World

/-! ## Sessions -/

/-- What a script refers to. -/
structure Session where
  main : Nat
  graphs : Table Nat := []
  snapshots : Table Nat := []
  index : Nat
  pipeline : Pipeline Task := {}
  builder : Nat
  container : Option Nat := none

/-- What a script does. A failed step leaves the world as it is by then, and what the script refers
to as it was before. -/
abbrev Action := StateT Session (EStateM Failure World)

/-- Runs steps for a session, without their answers. -/
abbrev Runner := Session → List Step → EStateM Failure World Unit

namespace Session

/-- A session on a graph and with a builder that are there, and with a tag index of its own. -/
def start (main builder : Nat) : EStateM Failure World Session := do
  let index ← modifyGet (World.allocateIndex {})
  return { main, index, builder }

/-- Lets a name stand for the graph of a number. -/
def bindGraph (name : String) (n : Nat) (s : Session) : Session :=
  if name = "main" then { s with main := n } else { s with graphs := s.graphs.put name n }

end Session

namespace World

/-- Runs work on the graph of a number. What it did before a failure stays. -/
def build {α : Type} (n : Nat) (job : Build α) : EStateM Failure World α := fun w =>
  let settle (b : Workbench) : World :=
    b.notes.foldl (fun w n => w.note n) (w.setGraph n b.graph)
  match job { graph := w.graph n } with
  | .ok a b => .ok a (settle b)
  | .error e b => .error e (settle b)

/-- Runs a pass of the library on the graph of a number. -/
def runBuiltin (which : Builtin) (index : Nat) (n : Nat) : EStateM Failure World Unit := do
  let i ← build n (which.run ((← get).index index))
  modify (setIndex index i)

/-- Runs a pass of the application, for which the builder of a number is at hand. -/
def runScript (run : Runner) (builder : Nat) (script : PassScript Step) (n : Nat) :
    EStateM Failure World (Returned Nat) := do
  modify (record (.pass script.name))
  run (← Session.start n builder) script.steps
  if let some reading := script.raises then throw (← read reading)
  match script.returns with
  | .nothing | .graph => return .same
  | .copy =>
    match ((← get).graph n).copy with
    | .ok g => return .graph (← modifyGet (allocate g))
    | .error e => throw e
  | .value reading =>
    match ← read reading with
    | .null => return .same
    | v => return .other v.typeName

/-- What stands for a graph among the arguments of a call. -/
def graphArgument : Value := .object "graph"

/-- The name of the type of a graph. -/
def graphType : String := "DefinitionRegistry"

/-- Calls a factory with a graph, as a pass is called. -/
def callOnGraph (factory : Factory) (w : World) : Call World :=
  match factory.type.kind with
  | .builtin => .finish (factory.type.make (fun _ => graphType) [graphArgument] []) w
  | _ => callDeclared factory [graphArgument] [] w

/-- Runs a pass that is a factory. Its product must be the null value, as no factory builds
graphs. -/
def runFactory (factory : Factory) : EStateM Failure World (Returned Nat) := fun w =>
  match callOnGraph factory w with
  | .finish (.ok .null) w => .ok .same w
  | .finish (.ok v) w => .ok (.other (w.typeName v)) w
  | .finish (.error e) w => .error e w
  | .demand _ w _ => .error .tooDeep w

/-- Runs a registered pass. -/
def perform (run : Runner) (builder : Nat) (task : Task) (n : Nat) :
    EStateM Failure World (Returned Nat) := do
  match task with
  | .builtin which index =>
    runBuiltin which index n
    return .same
  | .script script => runScript run builder script n
  | .factory factory => runFactory factory

/-- The name by which a pass is reported. -/
def taskName : Task → String
  | .builtin which _ => which.name
  | .script script =>
    match script.style with
    | .function | .object => script.name
    | .anonymous => "<callable " ++ script.name ++ ">"
  | .factory factory =>
    match factory.type.kind with
    | .bare | .sealed => factory.type.shown
    | _ => factory.type.name

/-- Runs a hook of a provider for the builder of a number. -/
def runHook (run : Runner) (builder : Nat) (alters : Bool) (p : ProviderScript Step) :
    EStateM Failure World Unit := do
  modify (record (.provider p.name alters))
  let session ← Session.start ((← get).builder builder).registry builder
  run session (if alters then p.alter else p.register)

/-- The world as the builder of a number compiles in it. -/
def yard (run : Runner) (n : Nat) : Yard World Nat Task (ProviderScript Step) where
  builder w := (builder n w).toBuilder
  setBuilder := setBuilder n
  graph := graph
  allocate := allocate
  perform := perform run n
  passName := taskName
  register := runHook run n false
  alter := runHook run n true
  providerName := (·.name)
  note := note

/-- The world as a pipeline of its own runs in it, with the builder of a number at hand. -/
def host (run : Runner) (builder : Nat) (pipeline : Pipeline Task) : Host World Nat Task where
  pipeline _ := pipeline
  graph := graph
  perform := perform run builder
  passName := taskName
  note := note

end World

end Wiring.Script
