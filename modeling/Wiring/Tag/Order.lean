import Wiring.Definition.Basic
import Wiring.Sort.Runs

/-!
The order of tagged services: descending priority, then ascending identifier.
-/

namespace Wiring

/-- What decides on the place of a service. -/
structure Rank where
  priority : Number
  service : String
  deriving Repr

namespace Rank

/-- Whether `a` comes strictly before `b`. What has a priority that is not a number comes before
nothing. -/
def before (a b : Rank) : Bool :=
  if b.priority.lt a.priority then true
  else if a.priority.lt b.priority || a.priority.isNaN || b.priority.isNaN then false
  else a.service < b.service

/-- Sorts by rank. Where a priority is not a number the order is partial, and the result depends on
the comparisons that are made; otherwise every stable sort will do. -/
def sort {α : Type} (rank : α → Rank) (entries : List α) : List α :=
  if entries.any fun e => (rank e).priority.isNaN then
    Sort.byRuns (fun a b => (rank a).before (rank b)) entries
  else entries.mergeSort fun a b => !(rank b).before (rank a)

end Rank

/-- A service with one of its tags. -/
structure Tagged where
  service : String
  attributes : Table Value := []
  priority : Number := .whole 0
  deriving Repr

namespace Tagged

/-- The rank of an entry. -/
def rank (t : Tagged) : Rank := ⟨t.priority, t.service⟩

/-- Entries in order. -/
def sort (entries : List Tagged) : List Tagged := Rank.sort rank entries

end Tagged

namespace Rank

/-- The rank of a service whose priority is given as a value, which must stand for a number. -/
def ofValue (service : String) (priority : Value) : Except Failure Rank :=
  match priority.number? with
  | some n => .ok ⟨n, service⟩
  | none => .error (.notNumeric priority.typeName)

/-- Services with priorities given as values, in order. -/
def sortValues (entries : List (String × Value)) : Except Failure (List (String × Value)) := do
  let ranked ← entries.mapM fun e => (ofValue e.1 e.2).map fun r => (r, e)
  return (sort (·.1) ranked).map (·.2)

end Rank

end Wiring
