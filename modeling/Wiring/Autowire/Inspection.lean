import Wiring.Definition.Basic

/-!
What autowiring reads from the constructor of a factory.
-/

namespace Wiring.Definition

/-- Names by which a receiver is known. -/
def receiverNames : List String := ["self", "cls"]

/-- The parameters of a class without the receiver, if it goes by a known name. -/
def withoutReceiver : List Parameter → List Parameter
  | p :: ps => if receiverNames.contains p.name then ps else p :: ps
  | [] => []

/-- The parameters that autowiring may fill. -/
def inspect (d : Definition) : Except Failure (List Parameter) :=
  match d.factory with
  | none => .ok []
  | some f =>
    match f.declaredParameters? with
    | none => .error (.breach (.unreadableSignature f.type.shown d.id))
    | some ps =>
      let ps := if f.type.isClass then withoutReceiver ps else ps
      .ok (ps.filter fun p => !p.collects)

/-- What the annotations of the constructor mean. -/
def annotations (d : Definition) : Except Failure (Table Hint) :=
  match d.factory with
  | none => .ok []
  | some f =>
    match f.hints with
    | .ok hints => .ok hints
    | .error reason => .error (.breach (.unreadableAnnotations f.type.shown reason d.id))

end Wiring.Definition
