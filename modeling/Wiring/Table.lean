/-!
Tables from names to values that keep the order in which names were first put in. A name occurs at
most once in every table made by the operations here.
-/

namespace Wiring

/-- Named values in order. -/
abbrev Table (α : Type) := List (String × α)

namespace Table

variable {α : Type}

/-- The value of a name. -/
def get? (t : Table α) (name : String) : Option α :=
  (t.find? fun e => e.1 == name).map (·.2)

/-- Whether a name is in the table. -/
def has (t : Table α) (name : String) : Bool :=
  t.any fun e => e.1 == name

/-- The names in order. -/
def names (t : Table α) : List String :=
  t.map (·.1)

/-- Gives a name a value. A name that is there keeps its place, a new one comes last. -/
def put (t : Table α) (name : String) (value : α) : Table α :=
  if has t name then t.map fun e => if e.1 == name then (e.1, value) else e
  else t ++ [(name, value)]

/-- Takes a name out. -/
def remove (t : Table α) (name : String) : Table α :=
  t.filter fun e => !(e.1 == name)

/-- The first table with the entries of the second put in. -/
def merge (t u : Table α) : Table α :=
  u.foldl (fun t e => put t e.1 e.2) t

/-- The table of a list of entries: of equal names the first gives the place, the last the value. -/
def ofList (entries : List (String × α)) : Table α :=
  merge [] entries

end Table

end Wiring
