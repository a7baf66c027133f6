import Wiring.Failure.Basic

/-!
Values as keys. Lists and dictionaries cannot be keys, nor can tuples that hold one.
-/

namespace Wiring.Value

mutual

/-- The type of the first part of a value that keeps it from being a key. -/
def unhashable? : Value → Option String
  | .list _ => some "list"
  | .dict _ => some "dict"
  | .tuple items => firstUnhashable? items
  | _ => none

/-- The first of several values that cannot be a key. -/
def firstUnhashable? : List Value → Option String
  | [] => none
  | x :: xs => (unhashable? x).or (firstUnhashable? xs)

end

/-- Accepts a value that can be a key. -/
def requireHashable (v : Value) : Except Failure Unit :=
  match v.unhashable? with
  | some typeName => .error (.unhashable typeName)
  | none => .ok ()

/-- Gives a key a value: an equal key keeps its place and its own form. -/
def putEntry (entries : List (Value × Value)) (key value : Value) : List (Value × Value) :=
  if entries.any fun e => e.1.same key then
    entries.map fun e => if e.1.same key then (e.1, value) else e
  else entries ++ [(key, value)]

/-- Gives a key, which must be fit to be one, a value. -/
def insertEntry (entries : List (Value × Value)) (key value : Value) :
    Except Failure (List (Value × Value)) := do
  requireHashable key
  return putEntry entries key value

/-- The values without those equal to an earlier one. -/
def distinct (values : List Value) : List Value :=
  values.foldl (fun kept v => if kept.any v.same then kept else kept ++ [v]) []

/-- The values without repetitions, which they must be fit to be keys for. -/
def distinctKeys (values : List Value) : Except Failure (List Value) := do
  values.forM requireHashable
  return distinct values

/-- The key under which a capability is indexed: a value that cannot be a key goes by its text. -/
def token (v : Value) : Value :=
  if v.unhashable?.isSome then .str v.shown else v

end Wiring.Value
