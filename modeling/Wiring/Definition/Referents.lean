import Wiring.Definition.Basic
import Wiring.Failure.Basic

/-!
What the arguments of a definition refer to. All of it should be references; a collection that was
made by hand may hold other things, which fail where a reference is needed.
-/

namespace Wiring

namespace Argument

/-- The name of the kind of an argument. -/
def typeName : Argument → String
  | .reference _ => "ServiceReference"
  | .parameter _ => "ParameterReference"
  | .literal _ => "LiteralValue"
  | .tagged _ => "TaggedCollection"
  | .autowire _ => "Autowire"
  | .collection _ _ | .mixture _ _ => "ServiceCollection"
  | .inlined _ _ => "InlinedService"
  | .plain v => v.typeName

/-- The reference that an argument is, of which `part` is needed. -/
def requireReference (part : String) : Argument → Except Failure Reference
  | .reference r => .ok r
  | .plain v => .error (.lacking v part)
  | a => .error (.noPart a.typeName part)

/-- Whether an argument is a reference. -/
def isReference (a : Argument) : Bool := a.reference?.isSome

mutual

/-- The members of collections and the references in an argument, embedded recipes included. -/
def referents : Argument → List Argument
  | .reference r => [.reference r]
  | .collection _ members => members.map .reference
  | .mixture _ members => members
  | .inlined _ recipe => referentsAll recipe.arguments ++ referentsNamed recipe.keywords
  | _ => []

/-- The referents of positional arguments. -/
def referentsAll : List Argument → List Argument
  | [] => []
  | a :: as => referents a ++ referentsAll as

/-- The referents of keyword arguments. -/
def referentsNamed : List (String × Argument) → List Argument
  | [] => []
  | (_, a) :: as => referents a ++ referentsNamed as

end

end Argument

namespace Definition

/-- The referents of a definition, in argument order. -/
def referents (d : Definition) : List Argument :=
  Argument.referentsAll d.arguments ++ Argument.referentsNamed d.keywords

/-- Does something for each reference of a definition, up to a referent that is none. -/
def eachReference {α : Type} (d : Definition) (act : Reference → Except Failure α) :
    Except Failure (List α) :=
  if (referents d).all Argument.isReference then (references d).mapM act
  else (referents d).mapM fun a => do act (← a.requireReference "id")

end Definition

end Wiring
