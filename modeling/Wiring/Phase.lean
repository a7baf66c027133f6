/-!
The phases of a compilation, in the order in which they run.
-/

namespace Wiring

/-- A phase of compilation. -/
inductive Phase where
  /-- Parameters, templates, autoconfiguration and autowiring. -/
  | beforeOptimization
  /-- Aliases and tagged collections. -/
  | optimize
  /-- Validation, which must leave the graph as it is. -/
  | beforeRemoving
  /-- Removal of what no public service needs. -/
  | remove
  /-- Revision of what is left. -/
  | afterRemoving
  deriving DecidableEq, Repr

namespace Phase

/-- All phases in execution order. -/
def all : List Phase := [beforeOptimization, optimize, beforeRemoving, remove, afterRemoving]

/-- The place of a phase in execution order. -/
def rank : Phase → Nat
  | beforeOptimization => 0
  | optimize => 1
  | beforeRemoving => 2
  | remove => 3
  | afterRemoving => 4

/-- The name of a phase in messages. -/
def name : Phase → String
  | beforeOptimization => "BEFORE_OPTIMIZATION"
  | optimize => "OPTIMIZE"
  | beforeRemoving => "BEFORE_REMOVING"
  | remove => "REMOVE"
  | afterRemoving => "AFTER_REMOVING"

/-- The phase of a name. -/
def ofName? (s : String) : Option Phase := all.find? fun p => p.name == s

end Phase

end Wiring
