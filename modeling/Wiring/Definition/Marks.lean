import Wiring.Definition.Basic

/-!
Marks of embedded recipes: giving out new ones.
-/

namespace Wiring

namespace Argument

mutual

/-- An argument whose embedded recipes all get marks of their own, counted up in the state. -/
def freshen : Argument → StateM Nat Argument
  | .inlined _ recipe => do
    let mark ← getModify (· + 1)
    let arguments ← freshenAll recipe.arguments
    let keywords ← freshenNamed recipe.keywords
    return .inlined mark { recipe with arguments, keywords }
  | a => pure a

/-- Positional arguments with new marks. -/
def freshenAll : List Argument → StateM Nat (List Argument)
  | [] => pure []
  | a :: as => do
    let b ← freshen a
    return b :: (← freshenAll as)

/-- Keyword arguments with new marks. -/
def freshenNamed : List (String × Argument) → StateM Nat (List (String × Argument))
  | [] => pure []
  | (name, a) :: as => do
    let b ← freshen a
    return (name, b) :: (← freshenNamed as)

end

end Argument

namespace Definition

/-- A definition whose embedded recipes all get marks of their own. -/
def freshen (d : Definition) : StateM Nat Definition := do
  let arguments ← Argument.freshenAll d.arguments
  let keywords ← Argument.freshenNamed d.keywords
  return { d with arguments, keywords }

end Definition

end Wiring
