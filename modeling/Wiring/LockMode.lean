/-!
How a container guards the construction of shared services.
-/

namespace Wiring

/-- A locking strategy. -/
inductive LockMode where
  /-- Each shared service is guarded by a lock. -/
  | thread
  /-- There are no locks. -/
  | unguarded
  deriving DecidableEq, Repr

namespace LockMode

/-- The name of a strategy. -/
def name : LockMode → String
  | thread => "thread"
  | unguarded => "none"

/-- The strategy of a name. -/
def ofName? (s : String) : Option LockMode := [thread, unguarded].find? fun m => m.name == s

end LockMode

end Wiring
