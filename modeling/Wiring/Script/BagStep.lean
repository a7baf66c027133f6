import Wiring.Script.Answer
import Wiring.Script.Reading

/-!
Scripts on parameter bags alone.
-/

namespace Wiring.Script

/-- A step on a bag. -/
inductive BagAct where
  | set (name value : Value)
  | remove (name : String)
  | has (name : String)
  | get (name : String)
  | names
  | all
  | copy (name : String)
  | resolveAll
  | resolveValue (value : Value)

/-- A step, and the name of the bag that it works on. -/
structure BagStep where
  bag : String
  act : Reading BagAct

namespace BagStep

/-- The name of the first bag. -/
def mainName : String := "main"

/-- Runs a step on a bag: the bag as it is left, and how the step ended. -/
def runAct (bag : Bag) : BagAct → Bag × Except Failure Answer
  | .set name value =>
    match bag.set name value with
    | .ok bag => (bag, .ok .nothing)
    | .error e => (bag, .error e)
  | .remove name =>
    match bag.remove name with
    | .ok bag => (bag, .ok .nothing)
    | .error e => (bag, .error e)
  | .has name => (bag, .ok (.flag (bag.has name)))
  | .get name => (bag, (bag.get name).map .value)
  | .names => (bag, .ok (.names bag.names))
  | .all => (bag, .ok (.bag bag))
  | .copy _ => (bag, .ok .nothing)
  | .resolveAll =>
    match bag.resolveAll with
    | .ok (bag, resolved) => (bag, .ok (.pairs resolved))
    | .error e => (bag, .error e)
  | .resolveValue v =>
    match bag.resolveValue v with
    | .ok (bag, result) => (bag, result.map .value)
    | .error e => (bag, .error e)

/-- Runs a step on named bags: the bags and the count of readings as they are left, and how the
step ended. -/
def runOne (bags : Table Bag) (marks : Nat) (s : BagStep) :
    Table Bag × Nat × Except Failure Answer :=
  match bags.get? s.bag with
  | none => (bags, marks, .error (.unknownName s.bag))
  | some bag =>
    match s.act.run marks with
    | .error e => (bags, marks, .error e)
    | .ok (act, marks) =>
      let (bag, result) := runAct bag act
      let bags := bags.put s.bag bag
      match act with
      | .copy name => (bags.put name bag, marks, result)
      | _ => (bags, marks, result)

/-- Runs steps on named bags. -/
def run (bags : Table Bag) (marks : Nat) : List BagStep → List (Except Failure Answer)
  | [] => []
  | s :: rest =>
    let (bags, marks, result) := runOne bags marks s
    result :: run bags marks rest

/-- Runs steps on a bag of the given parameters. -/
def start (initial : Reading (List (String × Value))) (steps : List BagStep) :
    Except Failure (List (Except Failure Answer)) := do
  let (initial, marks) ← initial.run 0
  return run [(mainName, Bag.ofEntries initial)] marks steps

end BagStep

end Wiring.Script
