import Wiring.Phase

/-!
What the library notes about its own work, for whoever keeps a log.
-/

namespace Wiring

/-- The part of the library that takes a note. -/
inductive Office where
  | registry
  | tags
  | autowiring
  | passes
  | pipeline
  | builder
  | container
  deriving DecidableEq, Repr

/-- A summary of a compilation. -/
structure CompilationSummary where
  definitions : Nat
  kept : Nat
  inlined : Nat
  aliases : Nat
  passes : Nat
  lockMode : String
  deriving DecidableEq, Repr

/-- A note. -/
inductive Note where
  | overrides (id : String)
  | autoconfigured (tag service : String)
  | autowired (service argument target : String)
  | templateMerged (service parent : String)
  | unused (id : String)
  | inlined (id : String)
  | pass (name : String) (phase : Phase) (priority : Int)
  | provider (name : String)
  | compiled (summary : CompilationSummary)
  | constructing (id : String)
  deriving DecidableEq, Repr

namespace Note

/-- Who takes the note. -/
def office : Note → Office
  | overrides _ => .registry
  | autoconfigured _ _ => .tags
  | autowired _ _ _ => .autowiring
  | templateMerged _ _ | unused _ | inlined _ => .passes
  | pass _ _ _ => .pipeline
  | provider _ | compiled _ => .builder
  | constructing _ => .container

/-- Whether the note is of interest in normal operation, and not only in the search for faults. -/
def isInformation : Note → Bool
  | compiled _ => true
  | _ => false

/-- The note in words. -/
def message : Note → String
  | overrides id => "Definition '" ++ id ++ "' overrides a previous definition"
  | autoconfigured tag service => "Autoconfigured tag '" ++ tag ++ "' on '" ++ service ++ "'"
  | autowired service argument target =>
    "Autowired '" ++ service ++ "' argument " ++ argument ++ " -> '" ++ target ++ "'"
  | templateMerged service parent =>
    "Resolved '" ++ service ++ "' from parent template '" ++ parent ++ "'"
  | unused id => "Removing unused definition '" ++ id ++ "'"
  | inlined id => "Inlined private service '" ++ id ++ "'"
  | pass name phase priority =>
    "Running compiler pass " ++ name ++ " (phase=" ++ phase.name ++ ", priority=" ++
      toString priority ++ ")"
  | provider name => "Registering service provider " ++ name
  | compiled s =>
    "Compiled container: definitions=" ++ toString s.definitions ++ " kept=" ++ toString s.kept ++
      " inlined=" ++ toString s.inlined ++ " aliases=" ++ toString s.aliases ++ " passes=" ++
      toString s.passes ++ " lock_mode=" ++ s.lockMode
  | constructing id => "Constructing service '" ++ id ++ "'"

end Note

end Wiring
