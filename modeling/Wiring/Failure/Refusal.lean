import Wiring.Value.Basic

/-!
Why a definition, alias, parameter, rule, pass or provider was refused when it was handed over.
-/

namespace Wiring

/-- The reason of a refusal. -/
inductive Refusal where
  /-- A reason given in words. -/
  | stated (message : String)
  | frozenParameter (name : Value)
  | frozenRemoval (name : String)
  | parameterName (given : Value)
  | priority (tag : String) (given : Value)
  | serviceId (given : Value)
  | factory (service : String) (given : Value)
  /-- A revised collection member that is no reference; `shown` is what it became. -/
  | collectionMember (tag service shown : String)
  | argument (service : String) (given : Value)
  | tag (service : String) (given : Value)
  | definition (typeName : String)
  | aliasIds (id target : String)
  | aliasOfItself (id : String)
  | ruleTag
  | pass (given : Value)
  | phase (given : Value)
  | lockMode (given : Value)
  | provider (typeName : String)
  | settingsUnavailable
  | settings (typeName : String)
  deriving Repr

namespace Refusal

/-- The refusal in words. -/
def message : Refusal → String
  | stated m => m
  | frozenParameter name =>
    "Cannot set parameter '" ++ name.text ++ "': parameters are already resolved."
  | frozenRemoval name =>
    "Cannot remove parameter '" ++ name ++ "': parameters are already resolved."
  | parameterName given =>
    "Parameter name must be a non-empty string, got " ++ given.shown ++ "."
  | priority name given =>
    "Tag '" ++ name ++ "' priority must be a number, got " ++ given.shown ++ "."
  | serviceId given =>
    "Service identifier must be a non-empty string, got " ++ given.shown ++ "."
  | factory service given =>
    "Factory of service '" ++ service ++ "' must be callable, got " ++ given.shown ++ "."
  | collectionMember name service shown =>
    "Collection '" ++ name ++ "' of service '" ++ service ++
      "' may only contain service references, got " ++ shown ++ "."
  | argument service given =>
    "Argument " ++ given.shown ++ " of service '" ++ service ++
      "' is not supported. Wrap objects in LiteralValue(...) or reference them with " ++
      "ServiceReference(...)."
  | tag service given =>
    "Tag " ++ given.shown ++ " of service '" ++ service ++
      "' must be a Tag or a non-empty string."
  | definition typeName => "Expected a ServiceDefinition, got " ++ typeName ++ "."
  | aliasIds id target =>
    "Alias identifiers must be non-empty, got " ++ Text.quote id ++ " -> " ++ Text.quote target ++
      "."
  | aliasOfItself id => "Alias '" ++ id ++ "' cannot target itself."
  | ruleTag => "Autoconfiguration tag name must be a non-empty string."
  | pass given =>
    "Compiler pass must define process(graph) or be callable, got " ++ given.shown ++ "."
  | phase given => "Compiler pass phase must be a PassPhase, got " ++ given.shown ++ "."
  | lockMode given => "lock_mode must be a LockMode, got " ++ given.shown ++ "."
  | provider typeName => "Expected a ServiceProvider, got " ++ typeName ++ "."
  | settingsUnavailable =>
    "pydantic-settings is not installed. Install diforge[pydantic-settings]."
  | settings typeName => "Expected a pydantic-settings BaseSettings, got " ++ typeName ++ "."

end Refusal

end Wiring
