import Wiring.Definition.Shown

/-!
Revision of arguments. Every argument is replaced by what a rule makes of it; members of
collections are revised one by one and must be references then, and embedded recipes are revised
where they are.

Here a recipe that is embedded in several places is revised in each of them by itself, and a failure
leaves nothing behind; `Definition.InPlace` says what comes of recipes that are shared, and of
failures.
-/

namespace Wiring

/-- A rule that replaces arguments. -/
abbrev Rule := Argument → Except Failure Argument

namespace Argument

variable (rule : Rule)

/-- The members of a collection after a rule. -/
def reviseMembers (service tag : String) : List Argument → Except Failure (List Reference)
  | [] => .ok []
  | a :: as => do
    match ← rule a with
    | .reference r => return r :: (← reviseMembers service tag as)
    | b => throw (.refused (.collectionMember tag service b.shown))

/-- An argument of `service` after a rule, embedded recipes apart. -/
def reviseOuter (service : String) : Argument → Except Failure Argument
  | .inlined mark recipe => .ok (.inlined mark recipe)
  | .collection tag members => do
    return .collection tag (← reviseMembers rule service tag (members.map .reference))
  | .mixture tag members => do
    return .collection tag (← reviseMembers rule service tag members)
  | a => rule a

mutual

/-- An argument of `service` after a rule. -/
def revise (service : String) : Argument → Except Failure Argument
  | .inlined mark recipe => do
    let arguments ← reviseAll recipe.id recipe.arguments
    let keywords ← reviseNamed recipe.id recipe.keywords
    return .inlined mark { recipe with arguments, keywords }
  | a => reviseOuter rule service a

/-- Positional arguments after a rule. -/
def reviseAll (service : String) : List Argument → Except Failure (List Argument)
  | [] => .ok []
  | a :: as => do
    let b ← revise service a
    return b :: (← reviseAll service as)

/-- Keyword arguments after a rule. -/
def reviseNamed (service : String) :
    List (String × Argument) → Except Failure (List (String × Argument))
  | [] => .ok []
  | (name, a) :: as => do
    let b ← revise service a
    return (name, b) :: (← reviseNamed service as)

end

end Argument

namespace Definition

/-- A definition after a rule. -/
def revise (rule : Rule) (d : Definition) : Except Failure Definition := do
  let arguments ← Argument.reviseAll rule d.id d.arguments
  let keywords ← Argument.reviseNamed rule d.id d.keywords
  return { d with arguments, keywords }

end Definition

end Wiring
