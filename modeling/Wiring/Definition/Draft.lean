import Wiring.Definition.Basic

/-!
Drafts of definitions, as they are handed over, and the checks that make a definition of one.
Plain literals become literal arguments and plain texts become tags.
-/

namespace Wiring

/-- What is handed over as a factory. -/
inductive DraftFactory where
  | none
  | factory (factory : Factory)
  /-- A value that cannot be called. -/
  | value (value : Value)

/-- A definition as it is handed over. -/
structure Draft where
  id : Value
  factory : DraftFactory := .none
  arguments : List Argument := []
  keywords : List (String × Argument) := []
  tags : List Label := []
  isPublic : Bool := true
  isShared : Bool := true
  isAbstract : Bool := false
  isLazy : Bool := false
  /-- Whether to autowire, where the draft says it. -/
  autowired : Option Bool := none
  capabilities : List Value := []
  defaultFor : List Value := []
  parent : Option String := none

namespace Argument

/-- Whether a plain value may stand as a literal. -/
def isPlainLiteral : Value → Bool
  | .null | .bool _ | .int _ | .real _ | .str _ | .list _ | .tuple _ | .dict _ => true
  | _ => false

/-- Accepts an argument of the service `service`; a plain literal becomes a literal argument. -/
def accept (service : String) : Argument → Except Failure Argument
  | .plain v =>
    if isPlainLiteral v then .ok (.literal v) else .error (.refused (.argument service v))
  | a => .ok a

/-- Accepts keyword arguments. -/
def acceptNamed (service : String) (keywords : List (String × Argument)) :
    Except Failure (List (String × Argument)) :=
  keywords.mapM fun (name, a) => (accept service a).map fun b => (name, b)

end Argument

namespace Label

/-- Accepts a tag of the service `service`; a text becomes a tag of that name. -/
def accept (service : String) : Label → Except Failure Label
  | .tag t => .ok (.tag t)
  | .plain (.str s) =>
    if s = "" then .error (.refused (.tag service (.str s))) else .ok (.tag ⟨s, []⟩)
  | .plain v => .error (.refused (.tag service v))

end Label

namespace Draft

/-- The identifier of a definition: a non-empty text. -/
def acceptId : Value → Except Failure String
  | .str s => if s = "" then .error (.refused (.serviceId (.str s))) else .ok s
  | v => .error (.refused (.serviceId v))

/-- The factory of a definition, which can be called. -/
def acceptFactory (service : String) : DraftFactory → Except Failure (Option Factory)
  | .none => .ok none
  | .factory f => .ok (some f)
  | .value v => .error (.refused (.factory service v))

/-- The definition of a draft; `autowired` is what holds where the draft does not say it. -/
def define (draft : Draft) (autowired : Bool) : Except Failure Definition := do
  let id ← acceptId draft.id
  let factory ← acceptFactory id draft.factory
  let arguments ← draft.arguments.mapM (Argument.accept id)
  let keywords ← Argument.acceptNamed id (Table.ofList draft.keywords)
  let tags ← draft.tags.mapM (Label.accept id)
  return {
    id, factory, arguments, keywords, tags
    isPublic := draft.isPublic, isShared := draft.isShared, isAbstract := draft.isAbstract
    isLazy := draft.isLazy, autowired := draft.autowired.getD autowired
    capabilities := draft.capabilities, defaultFor := draft.defaultFor, parent := draft.parent }

end Draft

namespace Argument

mutual

/-- A copy of an argument: embedded recipes are accepted once more. -/
def copy : Argument → Except Failure Argument
  | .inlined mark recipe => do
    let arguments ← copyAll recipe.arguments
    let keywords ← copyNamed recipe.keywords
    let arguments ← arguments.mapM (accept recipe.id)
    let keywords ← acceptNamed recipe.id keywords
    let tags ← recipe.tags.mapM (Label.accept recipe.id)
    return .inlined mark { recipe with arguments, keywords, tags }
  | a => .ok a

/-- Copies of positional arguments. -/
def copyAll : List Argument → Except Failure (List Argument)
  | [] => .ok []
  | a :: as => do
    let b ← copy a
    return b :: (← copyAll as)

/-- Copies of keyword arguments. -/
def copyNamed : List (String × Argument) → Except Failure (List (String × Argument))
  | [] => .ok []
  | (name, a) :: as => do
    let b ← copy a
    return (name, b) :: (← copyNamed as)

end

end Argument

namespace Definition

/-- A copy of a definition: its arguments and tags are accepted once more, at every depth. -/
def copy (d : Definition) : Except Failure Definition := do
  let arguments ← Argument.copyAll d.arguments
  let keywords ← Argument.copyNamed d.keywords
  let arguments ← arguments.mapM (Argument.accept d.id)
  let keywords ← Argument.acceptNamed d.id keywords
  let tags ← d.tags.mapM (Label.accept d.id)
  return { d with arguments, keywords, tags }

end Definition

end Wiring
