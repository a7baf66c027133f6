import Wiring.Factory.Signature
import Wiring.Hint

/-!
Factories: classes and callables that build services, with all that can be read from them.
-/

namespace Wiring

/-- A factory. -/
structure Factory where
  type : TypeRef
  /-- The class itself and its ancestors in the order of method resolution; nothing for a callable
  that is no class. -/
  lineage : List TypeRef
  /-- The name of the type that declares the constructor, the factory itself unless it inherits. -/
  maker : String
  /-- The parameter that takes the new object, in a class. -/
  receiver : Option Parameter
  parameters : List Parameter
  /-- What the annotations mean, by parameter, or why they cannot be read. -/
  hints : Except String (Table Hint)
  deriving Repr

namespace Factory

/-- Factories are equal when they are the same type. -/
instance : BEq Factory := ⟨fun a b => a.type == b.type⟩

/-- The classes that the factory's products are instances of, the root of all classes apart. -/
def capabilities (f : Factory) : List TypeRef :=
  f.lineage.filter fun t => t != .root

/-- The parameters of the constructor as it is declared, the receiver included. -/
def declaredParameters? (f : Factory) : Option (List Parameter) :=
  match f.type.kind with
  | .sealed => none
  | .builtin => some [⟨"self", .positionalOnly, false⟩, ⟨"args", .rest, false⟩,
      ⟨"kwargs", .extra, false⟩]
  | _ => some (f.receiver.toList ++ f.parameters)

/-- The parameters that a call fills, where they can be read. -/
def callParameters? (f : Factory) : Option (List Parameter) :=
  match f.type.kind with
  | .sealed => none
  | .builtin => if f.type = .root then some [] else none
  | _ => some f.parameters

end Factory

end Wiring
