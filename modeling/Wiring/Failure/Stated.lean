import Wiring.Failure.Fault

/-!
Faults that an application states in the terms of the library. Nobody looks at what it states them
with, so there may be any values where the library itself has texts.
-/

namespace Wiring

/-- What an application states about a search. -/
structure StatedSearch where
  argument : Value
  capability : Value
  candidates : List Value
  deriving Repr

/-- What an application states as the cause of a fault. -/
inductive StatedCause where
  | compilation
  | missingService (reference : Value)
  | missingParameter (parameter : Value)
  | circularParameter (chain : List String)
  /-- There was not exactly one candidate. -/
  | candidate (search : StatedSearch)
  | noCandidate (search : StatedSearch)
  | ambiguous (search : StatedSearch)
  deriving Repr

/-- A fault that an application states. -/
structure StatedFault where
  cause : StatedCause
  /-- The fault in the words of the application. -/
  words : Value
  /-- The service that it concerns; the null value where there is none. -/
  service : Value := .null
  deriving Repr

namespace StatedFault

/-- A loop of parameters, which has words of its own. -/
def ofLoop (chain : List String) (service : Value) : StatedFault :=
  ⟨.circularParameter chain, .str (Fault.circularParameter chain).text, service⟩

/-- The service as it is shown, where there is one. -/
def shownService? (fault : StatedFault) : Option String :=
  match fault.service with
  | .null => none
  | v => some v.shown

/-- The fault in words, with the phase and the service where they are known. -/
def message (fault : StatedFault) (phase : Option Phase) : String :=
  Fault.detailed fault.words.text phase fault.shownService?

end StatedFault

end Wiring
