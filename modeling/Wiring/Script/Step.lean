import Wiring.Pass.Builtin
import Wiring.Factory.Catalog
import Wiring.LockMode
import Wiring.Script.Reading

/-!
Scripts: what an application does with the library, step by step. Passes and providers of the
application are scripts themselves. What a step hands over it makes anew each time it runs.
-/

namespace Wiring.Script

/-- The graph that a step works on. -/
inductive Target where
  | main
  /-- The registry of the builder. -/
  | builder
  /-- A new copy of the definitions of the container. -/
  | definitions
  | named (name : String)

/-- What is handed over as a definition. -/
inductive DraftGiven where
  | draft (draft : Draft)
  | value (value : Value)

/-- A field of a definition that is assigned without any check. -/
inductive Change where
  | factory (factory : Option Factory)
  | arguments (arguments : List Argument)
  | keywords (keywords : List (String × Argument))
  | tags (labels : List Label)
  | isPublic (flag : Bool)
  | isShared (flag : Bool)
  | isAbstract (flag : Bool)
  | isLazy (flag : Bool)
  | autowired (flag : Bool)
  | capabilities (capabilities : List Value)
  | defaultFor (capabilities : List Value)
  | parent (parent : Option String)

/-- A step on a graph. -/
inductive GraphAct where
  | add (given : Reading DraftGiven)
  | get (id : String)
  | find (id : String)
  | has (id : String)
  | contains (id : String)
  | remove (id : String)
  | ids
  | len
  | tagged (tag : String)
  | tagNames
  | setAlias (a : Alias)
  | removeAlias (id : String)
  | hasAlias (id : String)
  | getAlias (id : String)
  | aliases
  | resolveAlias (id : String)
  | resolveAliasStrict (id : String)
  | setParameter (name value : Reading Value)
  | getParameter (name : String)
  | hasParameter (name : String)
  | parameters
  | copy (name : String)
  | snapshot (name : String)
  | compare (name : String)
  | dump
  | mutate (id : String) (changes : Reading (List Change))
  | hasTag (id tag : String)
  | tagsNamed (id tag : String)
  | priorities (id : String)
  | references (id : String)
  | capabilities (id : String)
  | revise (id target : String) (given : Reading Argument)
  | rootIds
  | reachable
  | edges
  | components
  | validate
  | pass (which : Builtin) (dump : Bool)
  | plan (id : String)
  | autowire (ids : List String)
  | providers (capability : Reading Value)
  | inspect (id : String)
  | indexRebuild

/-- A step on the tag index. -/
inductive IndexAct where
  | addRule (rule : Reading (Value × Tag))
  | rules
  | tagged (tag : String)
  | ids (tag : String)
  | names
  | copy

/-- How a pass of the application is called. -/
inductive PassStyle where
  | function
  | object
  /-- A callable without a name of its own. -/
  | anonymous

/-- What a pass of the application hands back. -/
inductive PassResult where
  | nothing
  | graph
  | copy
  | value (value : Reading Value)

/-- A pass of the application, with steps of the type `α`. -/
structure PassScript (α : Type) where
  name : String
  style : PassStyle := .function
  steps : List α := []
  /-- The failure that it ends with. -/
  raises : Option (Reading Failure) := none
  returns : PassResult := .nothing

/-- What is handed over as a pass. -/
inductive PassGiven (α : Type) where
  | builtin (which : Builtin)
  | script (script : PassScript α)
  /-- A factory, which is called with the graph. -/
  | factory (factory : Factory)
  | value (value : Reading Value)

/-- A provider of the application, with steps of the type `α`. -/
structure ProviderScript (α : Type) where
  name : String
  register : List α := []
  alter : List α := []

/-- What is handed over as a provider. -/
inductive ProviderGiven (α : Type) where
  | script (script : ProviderScript α)
  | value (value : Reading Value)

/-- What is handed over as a phase. -/
inductive PhaseGiven where
  | phase (phase : Phase)
  | value (value : Value)

/-- What is handed over as a locking strategy. -/
inductive LockGiven where
  | mode (mode : LockMode)
  | value (value : Value)

/-- Where the registry of a new builder comes from. -/
inductive RegistrySource where
  | empty
  | container
  | graph (target : Target)

/-- An argument of a call, by position or by name. -/
inductive Place where
  | position (n : Nat)
  | keyword (name : String)

/-- A step on a container. -/
inductive ContainerAct where
  | get (id : String)
  | has (id : String)
  | contains (id : Reading Value)
  | ids
  | len
  | order (id : String)
  | orders
  | lock
  /-- Uses the handle that the `n`-th object was built with. -/
  | deferred (n : Nat) (place : Place) (item : Option Nat)

/-- A step. -/
inductive Step where
  /-- A step that cannot even be stated. -/
  | invalid (failure : Failure)
  | graph (on : Target) (act : GraphAct)
  | define (given : Reading DraftGiven)
  | mergeTags (tag inferred : Reading Label)
  | sortTagged (entries : Reading (List (String × Value)))
  | index (act : IndexAct)
  | pipeAdd (pass : PassGiven Step) (phase : Reading PhaseGiven) (priority : Reading Value)
  | pipePasses (phase : Reading PhaseGiven)
  | pipeLen
  | pipeCopy
  | pipeRun
  | builder (source : RegistrySource) (lockMode : Reading LockGiven) (autowireByDefault : Bool)
  | register (draft : Reading Draft)
  | builderAdd (given : Reading DraftGiven)
  | setAlias (a : Alias)
  | setParameter (name value : Reading Value)
  | autoconfigure (rule : Reading (Value × Tag))
  | addPass (pass : PassGiven Step) (phase : Reading PhaseGiven) (priority : Reading Value)
  | passes (phase : Reading PhaseGiven)
  | addProvider (provider : ProviderGiven Step)
  | compile
  | container (act : ContainerAct)

end Wiring.Script
