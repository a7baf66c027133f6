import Wiring.Failure.Refusal
import Wiring.Failure.Binding
import Wiring.Phase

/-!
Why a compilation was aborted. A fault knows the service it concerns and has its own words; the
phase in which it arose is added when it is reported.
-/

namespace Wiring

/-- A fault that has no kind of its own. -/
inductive Breach where
  | circularParents (chain : List String) (service : String)
  | noFactory (service : String)
  | concreteWithoutFactory (service : String)
  /-- An argument, as it is shown, that compilation should have replaced. -/
  | leftOverArgument (shown service : String)
  | unsupportedArgument (shown service : String)
  | priority (tag : String) (given : Value) (service : String)
  | unreadableSignature (factory service : String)
  | unreadableAnnotations (factory reason service : String)
  | positionalOnly (parameter service : String)
  | unannotated (label service : String)
  | noCapability (label service : String)
  | stillExtends (parent service : String)
  | keywordName (name service : String)
  | openSlot (service : String)
  | misfit (why : Misfit) (service : String)
  | aliasOfAbstract (target id : String)
  | dependsOnAbstract (target service : String)
  | passResult (pass typeName : String)
  | validationChanged (pass : String)
  deriving Repr

namespace Breach

/-- The service that the breach concerns. -/
def service? : Breach → Option String
  | circularParents _ s | noFactory s | concreteWithoutFactory s | leftOverArgument _ s
  | unsupportedArgument _ s | priority _ _ s | unreadableSignature _ s
  | unreadableAnnotations _ _ s | positionalOnly _ s | unannotated _ s | noCapability _ s
  | stillExtends _ s | keywordName _ s | openSlot s | misfit _ s | aliasOfAbstract _ s
  | dependsOnAbstract _ s => some s
  | passResult _ _ | validationChanged _ => none

/-- The breach in words. -/
def message : Breach → String
  | circularParents chain _ =>
    "Circular parent templates: " ++ " -> ".intercalate chain ++ "."
  | noFactory s => "Service '" ++ s ++ "' has no factory."
  | concreteWithoutFactory s => "Service '" ++ s ++ "' has no factory and is not abstract."
  | leftOverArgument shown s =>
    "Argument " ++ shown ++ " of service '" ++ s ++ "' was not resolved during compilation."
  | unsupportedArgument shown s =>
    "Unsupported argument " ++ shown ++ " in service '" ++ s ++ "'."
  | priority tag given _ => (Refusal.priority tag given).message
  | unreadableSignature factory s =>
    "Cannot read the signature of factory " ++ factory ++ " of service '" ++ s ++ "'."
  | unreadableAnnotations factory reason s =>
    "Cannot evaluate the type annotations of factory " ++ factory ++ " of service '" ++ s ++
      "': " ++ reason ++ "."
  | positionalOnly p s =>
    "Cannot autowire positional-only parameter '" ++ p ++ "' of service '" ++ s ++
      "'; pass it explicitly in 'arguments'."
  | unannotated label s =>
    "Cannot autowire parameter " ++ label ++ " of service '" ++ s ++
      "': it has no type annotation."
  | noCapability label s =>
    "Cannot autowire argument " ++ label ++ " of service '" ++ s ++
      "': no capability declared and no annotation to infer it from."
  | stillExtends parent s => "Service '" ++ s ++ "' still extends '" ++ parent ++ "'."
  | keywordName name s =>
    "Service '" ++ s ++ "' has invalid keyword argument name " ++ Text.quote name ++ "."
  | openSlot s =>
    "Service '" ++ s ++ "' still has an unresolved autowire slot; it was added after autowiring " ++
      "ran."
  | misfit why s =>
    "Service '" ++ s ++ "' cannot be constructed with its arguments: " ++ why.message ++
      ". Definitions added after autowiring ran are not autowired."
  | aliasOfAbstract target id =>
    "Alias '" ++ id ++ "' points to abstract service '" ++ target ++
      "', which can only be used as a parent template."
  | dependsOnAbstract target s =>
    "Service '" ++ s ++ "' depends on abstract service '" ++ target ++
      "', which can only be used as a parent template."
  | passResult pass typeName =>
    "Compiler pass " ++ pass ++ " returned " ++ typeName ++
      "; expected a DefinitionRegistry or None."
  | validationChanged pass => "Validation pass " ++ pass ++ " modified the definition graph."

end Breach

/-- Where a missing service was asked for. -/
inductive MissingService where
  /-- At the end of the alias `id`. -/
  | aliasTarget (id : String)
  /-- As a parent template. -/
  | parent (service : String)
  /-- As a dependency. -/
  | dependency (service : String)
  /-- By the name that an argument asks for. -/
  | named (label service : String)
  deriving Repr

namespace MissingService

/-- The service that asked. -/
def service : MissingService → String
  | aliasTarget s | parent s | dependency s | named _ s => s

/-- The fault in words; `reference` is what is missing. -/
def message (reference : String) : MissingService → String
  | aliasTarget s => "Alias '" ++ s ++ "' points to missing service '" ++ reference ++ "'."
  | parent s => "Service '" ++ s ++ "' extends missing parent '" ++ reference ++ "'."
  | dependency s => "Service '" ++ s ++ "' depends on missing service '" ++ reference ++ "'."
  | named label s =>
    "Service '" ++ s ++ "' argument " ++ label ++ " names missing service '" ++ reference ++ "'."

end MissingService

/-- Where a parameter was asked for that is not there or does not fit. -/
inductive MissingParameter where
  /-- By a reader. -/
  | lookup
  /-- Inside the value of the parameter `owner`. -/
  | placeholder (owner : String)
  /-- Inside the text `inside`, where a value of that type has no place. -/
  | interpolation (typeName inside : String)
  /-- As an argument. -/
  | argument (service : String)
  deriving Repr

namespace MissingParameter

/-- The service that asked. -/
def service? : MissingParameter → Option String
  | argument s => some s
  | _ => none

/-- The fault in words; `parameter` is what was asked for. -/
def message (parameter : String) : MissingParameter → String
  | lookup => "Parameter '" ++ parameter ++ "' is not defined."
  | placeholder owner =>
    "Parameter '" ++ owner ++ "' references undefined parameter '" ++ parameter ++ "'."
  | interpolation typeName inside =>
    "Parameter '" ++ parameter ++ "' of type " ++ typeName ++
      " cannot be interpolated into string " ++ Text.quote inside ++ "."
  | argument s =>
    "Service '" ++ s ++ "' references undefined parameter '" ++ parameter ++ "'."

end MissingParameter

/-- What autowiring looked for, and among which services. -/
structure Search where
  service : String
  /-- The place of the argument, as messages show it. -/
  argument : String
  capability : Value
  candidates : List String
  deriving Repr

/-- Why a compilation was aborted. -/
inductive Fault where
  | breach (why : Breach)
  | missingService (reference : String) (why : MissingService)
  | missingParameter (parameter : String) (why : MissingParameter)
  | circularParameter (chain : List String)
  | circularAlias (chain : List String)
  /-- No service provides what was searched for. -/
  | noCandidate (search : Search)
  /-- Several services provide it, and not exactly one by default. -/
  | ambiguous (search : Search)
  | circularServices (cycle : List String)
  deriving Repr

namespace Fault

/-- The service that the fault concerns. -/
def service? : Fault → Option String
  | breach why => why.service?
  | missingService _ why => some why.service
  | missingParameter _ why => why.service?
  | circularParameter _ => none
  | circularAlias chain => chain.head?
  | noCandidate search => some search.service
  | ambiguous search => some search.service
  | circularServices cycle => cycle.head?

/-- The fault in words, without phase and service. -/
def text : Fault → String
  | breach why => why.message
  | missingService reference why => why.message reference
  | missingParameter parameter why => why.message parameter
  | circularParameter chain =>
    "Circular parameter reference: " ++ " -> ".intercalate chain ++ "."
  | circularAlias chain => "Circular alias chain: " ++ " -> ".intercalate chain ++ "."
  | noCandidate search =>
    "Cannot autowire argument " ++ search.argument ++ " of service '" ++ search.service ++
      "': no service provides " ++ search.capability.described ++ ". Rejected candidates: " ++
      Text.quoteList search.candidates ++ "."
  | ambiguous search =>
    "Cannot autowire argument " ++ search.argument ++ " of service '" ++ search.service ++
      "': " ++ search.capability.described ++ " is provided by " ++
      Text.quoteList search.candidates ++
      ". Mark exactly one with 'default_for' or name the wanted service explicitly."
  | circularServices cycle =>
    "Circular service reference: " ++ " -> ".intercalate cycle ++ "."

/-- Words with the phase and the service, as it is shown, where they are known. -/
def detailed (words : String) (phase : Option Phase) (service : Option String) : String :=
  let details :=
    (phase.map fun p => "phase=" ++ p.name).toList ++
      (service.map fun s => "service=" ++ s).toList
  if details.isEmpty then words else words ++ " [" ++ ", ".intercalate details ++ "]"

/-- The fault in words, with the phase and the service where they are known. -/
def message (fault : Fault) (phase : Option Phase) : String :=
  detailed fault.text phase (fault.service?.map Text.quote)

end Fault

end Wiring
