import Wiring.Failure.Basic

/-!
Values as sequences of texts, as chains and cycles are given: a text counts as the sequence of its
characters, and a dictionary as that of its keys.
-/

namespace Wiring.Value

/-- The items that a value yields one after the other. -/
def items : Value → Except Failure (List Value)
  | .str s => .ok (s.toList.map fun c => .str (String.singleton c))
  | .list xs | .tuple xs => .ok xs
  | .dict entries => .ok (entries.map (·.1))
  | v => .error (.notIterable v.typeName)

/-- Items as texts, the first of them at the place `place`. -/
def textsFrom (place : Nat) : List Value → Except Failure (List String)
  | [] => .ok []
  | .str s :: rest => do return s :: (← textsFrom (place + 1) rest)
  | v :: _ => .error (.notText place v.typeName)

/-- The texts that a value yields. -/
def texts (v : Value) : Except Failure (List String) := do
  textsFrom 0 (← v.items)

end Wiring.Value
