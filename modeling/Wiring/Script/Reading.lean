import Wiring.Failure.Basic

/-!
Readings: things that an application hands over, made anew each time.
-/

namespace Wiring.Script

/-- A thing that is made anew each time it is read, which may fail. The state counts the numbers
that are not numbers, as each of them equals itself alone. -/
abbrev Reading := StateT Nat (Except Failure)

end Wiring.Script
