import Wiring.Pass.Parameters
import Wiring.Pass.Templates
import Wiring.Pass.Autowiring
import Wiring.Pass.Aliases
import Wiring.Pass.Collections
import Wiring.Pass.Checks
import Wiring.Pass.Removal
import Wiring.Pass.Inlining

/-!
The passes that every builder starts with, and when they run.
-/

namespace Wiring

/-- A pass of the library. -/
inductive Builtin where
  | resolveParameters
  | expandTemplates
  | autoconfigure
  | autowire
  | resolveAliases
  | bakeCollections
  | checkDefinitions
  | checkReferences
  | checkCycles
  | removePrivateAliases
  | removeUnused
  | inlineServices
  deriving DecidableEq, Repr

namespace Builtin

/-- The name by which a pass is reported. -/
def name : Builtin → String
  | resolveParameters => "ResolveParametersPass"
  | expandTemplates => "ResolveChildDefinitionsPass"
  | autoconfigure => "AutoconfigurePass"
  | autowire => "AutowirePass"
  | resolveAliases => "ResolveReferencesToAliasesPass"
  | bakeCollections => "ResolveTaggedCollectionsPass"
  | checkDefinitions => "CheckDefinitionsPass"
  | checkReferences => "CheckReferencesPass"
  | checkCycles => "CheckCircularReferencesPass"
  | removePrivateAliases => "RemovePrivateAliasesPass"
  | removeUnused => "RemoveUnusedDefinitionsPass"
  | inlineServices => "InlineServiceDefinitionsPass"

/-- The passes with the phases and priorities that builders give them. -/
def schedule : List (Builtin × Phase × Int) :=
  [(resolveParameters, .beforeOptimization, 100), (expandTemplates, .beforeOptimization, 90),
    (autoconfigure, .beforeOptimization, 80), (autowire, .beforeOptimization, -100),
    (resolveAliases, .optimize, 100), (bakeCollections, .optimize, 0),
    (checkDefinitions, .beforeRemoving, 100), (checkReferences, .beforeRemoving, 50),
    (checkCycles, .beforeRemoving, 0), (removePrivateAliases, .remove, 100),
    (removeUnused, .remove, 0), (inlineServices, .afterRemoving, 0)]

/-- The pass of a name. -/
def ofName? (s : String) : Option Builtin :=
  (schedule.map (·.1)).find? fun b => b.name == s

/-- Accepts the graph as it is. -/
def validate (check : Graph → Except Failure Unit) : Build Unit := do
  Build.check (check (← Build.graph))

/-- What a pass does to the graph, but for the autoconfiguration. -/
def job : Builtin → Build Unit
  | resolveParameters => Pass.resolveParameters
  | expandTemplates => Pass.expandTemplates
  | autoconfigure => pure ()
  | autowire => Pass.autowire
  | resolveAliases => Pass.resolveAliases
  | bakeCollections => Pass.bakeCollections
  | checkDefinitions => validate Pass.checkDefinitions
  | checkReferences => validate Pass.checkReferences
  | checkCycles => validate Pass.checkCycles
  | removePrivateAliases => Pass.removePrivateAliases
  | removeUnused => Pass.removeUnused
  | inlineServices => Pass.inlineServices

/-- Runs a pass. Autoconfiguration follows the rules of the index and indexes anew; the other
passes leave the index alone. -/
def run (index : TagIndex) (b : Builtin) : Build TagIndex :=
  if b = autoconfigure then index.rebuild
  else do
    b.job
    return index

end Builtin

end Wiring
