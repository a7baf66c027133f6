import Wiring.Parameter.Substitution
import Wiring.Table

/-!
Named parameters. Values are kept as given until all are resolved; from then on the bag is frozen
and answers with the resolved values.
-/

namespace Wiring

/-- A bag of parameters. -/
structure Bag where
  raw : Table Value := []
  /-- The resolved values in the order in which they were resolved, once the bag is frozen. -/
  resolved : Option (Table Value) := none
  deriving Repr, Inhabited

namespace Bag

/-- The bag of the given parameters. -/
def ofEntries (entries : List (String × Value)) : Bag :=
  ⟨Table.ofList entries, none⟩

/-- Whether the parameters are resolved. -/
def frozen (bag : Bag) : Bool := bag.resolved.isSome

/-- The values that the bag answers with. -/
def values (bag : Bag) : Table Value := bag.resolved.getD bag.raw

/-- Gives a parameter a value. Names are non-empty texts, and a frozen bag takes none. -/
def set (bag : Bag) (name value : Value) : Except Failure Bag :=
  if bag.frozen then .error (.refused (.frozenParameter name))
  else
    match name with
    | .str s =>
      if s = "" then .error (.refused (.parameterName name))
      else .ok { bag with raw := bag.raw.put s value }
    | _ => .error (.refused (.parameterName name))

/-- Gives parameters their values, one after the other up to the first that is refused. -/
def setAll (bag : Bag) : List (Value × Value) → Bag × Except Failure Unit
  | [] => (bag, .ok ())
  | (name, v) :: rest =>
    match bag.set name v with
    | .ok bag => setAll bag rest
    | .error e => (bag, .error e)

/-- Takes a parameter out; a frozen bag keeps all. -/
def remove (bag : Bag) (name : String) : Except Failure Bag :=
  if bag.frozen then .error (.refused (.frozenRemoval name))
  else .ok { bag with raw := bag.raw.remove name }

/-- Whether there is a parameter of that name. -/
def has (bag : Bag) (name : String) : Bool := bag.raw.has name

/-- The value of a parameter. -/
def get (bag : Bag) (name : String) : Except Failure Value :=
  match bag.values.get? name with
  | some v => .ok v
  | none => .error (.fault (.missingParameter name .lookup) none)

/-- The names of the parameters. -/
def names (bag : Bag) : List String := bag.raw.names

/-! ## Resolution -/

/-- Who misses a parameter that is not there: the last parameter under resolution, if any. -/
def missing (chain : List String) (name : String) : Failure :=
  .fault (.missingParameter name ((chain.getLast?.map .placeholder).getD .lookup)) none

/-- The loop that closes when `name`, which is in the chain, is asked for again. -/
def loop (chain : List String) (name : String) : List String :=
  chain.drop (chain.idxOf name) ++ [name]

/-- The value of a parameter while the parameters of `chain` are under resolution. What has been
resolved is kept in the state. The chain has no repetitions, so `depth` parameters below it are
enough where the bag has no more than that besides the chain. -/
def resolveFrom (raw : Table Value) :
    (depth : Nat) → List String → String → StateT (Table Value) (Except Failure) Value
  | depth, chain, name => do
    let done ← getThe (Table Value)
    if let some v := done.get? name then return v
    if chain.contains name then
      throw (.fault (.circularParameter (loop chain name)) none)
    match raw.get? name, depth with
    | none, _ => throw (missing chain name)
    | some _, 0 => throw .tooDeep
    | some value, depth + 1 =>
      let v ← value.substitute (resolveFrom raw depth (chain ++ [name]))
      modifyThe (Table Value) (·.put name v)
      return v

/-- The resolved values of all parameters, in the order in which they get resolved. -/
def resolution (raw : Table Value) : Except Failure (Table Value) := do
  let step : StateT (Table Value) (Except Failure) Unit :=
    raw.names.forM fun name => discard (resolveFrom raw raw.length [] name)
  return (← step.run []).2

/-- Resolves every parameter and freezes the bag. A failure leaves the bag as it is. -/
def resolveAll (bag : Bag) : Except Failure (Bag × Table Value) :=
  match bag.resolved with
  | some resolved => .ok (bag, resolved)
  | none => do
    let resolved ← resolution bag.raw
    return ({ bag with resolved := some resolved }, resolved)

/-- A value with its placeholders resolved against the parameters. Where a parameter does not
resolve the bag is left as it is; otherwise it ends up frozen, whatever becomes of the value. -/
def resolveValue (bag : Bag) (v : Value) : Except Failure (Bag × Except Failure Value) := do
  let (bag, resolved) ← bag.resolveAll
  let lookup (name : String) : Except Failure Value :=
    match resolved.get? name with
    | some value => .ok value
    | none => .error (missing [] name)
  return (bag, v.substitute lookup)

end Bag

end Wiring
