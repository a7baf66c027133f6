import Wiring.Definition.Basic

/-!
What an argument asks for: a capability or a named service, read from a slot and from the
annotation of the parameter.
-/

namespace Wiring

/-- What an annotation asks for. -/
structure Wish where
  capability : Hint
  name : Option String
  nullable : Bool

namespace Hint

/-- The hint without its marks, and the service that the marks name first. -/
def unmark : Hint → Hint × Option String
  | .marked h marks =>
    (h, marks.findSome? fun | .named id => some id | .note _ => none)
  | h => (h, none)

/-- Reads an annotation. A union with the null type makes the argument nullable; where one other
member is left, that member is what is asked for. -/
def wish (h : Hint) : Wish :=
  let (h, name) := h.unmark
  match h with
  | .union form ms =>
    let others := ms.filter fun m => !m.isNull
    let nullable := others.length != ms.length
    match others with
    | [m] =>
      match m with
      | .marked _ _ =>
        let (inner, second) := m.unmark
        ⟨inner, if name.getD "" = "" then second else name, nullable⟩
      | m => ⟨m, name, nullable⟩
    | _ => ⟨.union form ms, name, nullable⟩
  | h => ⟨h, name, false⟩

/-- The hint as a capability. -/
def toValue : Hint → Value
  | .type t => .type t
  | h => .hint h

end Hint

/-- A request for one argument. -/
structure Request where
  /-- The place of the argument, as messages show it. -/
  argument : String
  capability : Option Value
  name : Option String
  nullable : Bool
  hasDefault : Bool

namespace Request

/-- The request of a slot, whose own words count for more than the annotation's. -/
def ofSlot (slot : Slot) (argument : String) (hint : Option Hint) : Request :=
  let wish := hint.map Hint.wish
  { argument
    capability := slot.capability.or (wish.map fun w => w.capability.toValue)
    name := slot.name.or (wish.bind (·.name))
    nullable := slot.optional || (wish.map (·.nullable)).getD false
    hasDefault := false }

/-- The request of a parameter that nothing is given for. -/
def ofParameter (p : Parameter) (argument : String) (hint : Hint) : Request :=
  let wish := hint.wish
  { argument
    capability := some wish.capability.toValue
    name := wish.name
    nullable := wish.nullable
    hasDefault := p.hasDefault }

/-- Whether the request may stay without a service. -/
def mayBeAbsent (r : Request) : Bool := r.nullable || r.hasDefault

end Request

end Wiring
