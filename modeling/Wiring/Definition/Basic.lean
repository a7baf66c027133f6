import Wiring.Factory.Basic
import Wiring.Value.Dict

/-!
Service definitions: the recipes by which services are built, and the arguments in them.

An embedded recipe carries a mark. Arguments with one mark embed one and the same recipe: what
revises it in one place revises it in all.
-/

namespace Wiring

/-- A reference to a service. -/
structure Reference where
  id : String
  /-- A missing service stands for the null value. -/
  optional : Bool := false
  /-- A handle is injected in place of the service. -/
  lazy : Bool := false
  deriving DecidableEq, Repr

/-- A tag on a definition. -/
structure Tag where
  name : String
  attributes : Table Value := []
  deriving Repr

/-- What stands in the place of a tag. -/
inductive Label where
  | tag (tag : Tag)
  /-- A value that nothing has accepted yet. -/
  | plain (value : Value)
  deriving Repr

namespace Tag

/-- The priority of a tag, zero unless it has one. It must be a number and no truth value. -/
def priority (tag : Tag) : Except Failure Number :=
  match (tag.attributes.get? "priority").getD (.int 0) with
  | .int n => .ok (.whole n)
  | .real x => .ok (.real x)
  | v => .error (.refused (.priority tag.name v))

/-- The tag with the attributes that it lacks taken from an inferred one. -/
def mergedWith (tag inferred : Tag) : Tag :=
  ⟨tag.name, inferred.attributes.merge tag.attributes⟩

end Tag

namespace Label

/-- The tag of a label, of which `part` is needed. -/
def require (part : String) : Label → Except Failure Tag
  | .tag t => .ok t
  | .plain v => .error (.lacking v part)

/-- The name of a label. Objects have names as tags have. -/
def name : Label → Except Failure String
  | .tag t => .ok t.name
  | .plain (.object n) => .ok n
  | .plain v => .error (.lacking v "name")

/-- The name of a label, if it has one. -/
def name? (l : Label) : Option String := l.name.toOption

/-- The attributes of a label. -/
def attributes (l : Label) : Except Failure (Table Value) :=
  (l.require "attributes").map (·.attributes)

/-- The tag that the parts of a label make up. -/
def parts (l : Label) : Except Failure Tag := do
  return ⟨← l.name, ← l.attributes⟩

/-- The priority of a label. -/
def priority (l : Label) : Except Failure Number := do (← l.require "priority").priority

/-- The tag of a label with the attributes that it lacks taken from an inferred one. -/
def mergedWith (l inferred : Label) : Except Failure Tag := do
  let own ← l.require "merged_with"
  return own.mergedWith (← inferred.require "attributes")

end Label

/-- A slot that autowiring fills. -/
structure Slot where
  /-- What to look for, unless the annotation says it. -/
  capability : Option Value := none
  /-- The service to take, without a search. -/
  name : Option String := none
  optional : Bool := false
  deriving Repr

/-- An alternate identifier. -/
structure Alias where
  id : String
  target : String
  isPublic : Bool := true
  deriving DecidableEq, Repr

/-- The recipe of a service whose arguments are of type `α`. -/
structure Recipe (α : Type) where
  id : String
  factory : Option Factory := none
  arguments : List α := []
  keywords : List (String × α) := []
  tags : List Label := []
  /-- Whether the service can be fetched from the container. -/
  isPublic : Bool := true
  /-- Whether one instance is kept for the lifetime of the container. -/
  isShared : Bool := true
  /-- Whether the definition is a template that is never built. -/
  isAbstract : Bool := false
  /-- Whether handles are injected in place of the service. -/
  isLazy : Bool := false
  /-- Whether autowiring fills the parameters that are not given. -/
  autowired : Bool := false
  /-- Capabilities besides those of the factory's classes. -/
  capabilities : List Value := []
  /-- Capabilities for which the service wins over others. -/
  defaultFor : List Value := []
  /-- The template that the definition extends. -/
  parent : Option String := none
  deriving Repr

/-- An argument of a recipe. -/
inductive Argument where
  | reference (reference : Reference)
  | parameter (name : String)
  | literal (value : Value)
  /-- All services with a tag. -/
  | tagged (tag : String)
  | autowire (slot : Slot)
  /-- The references that services with a tag were baked into. -/
  | collection (tag : String) (members : List Reference)
  /-- A collection that was made by hand, with members besides references. -/
  | mixture (tag : String) (members : List Argument)
  /-- A recipe that is carried out in place. -/
  | inlined (mark : Nat) (recipe : Recipe Argument)
  /-- A value that nothing has accepted yet. -/
  | plain (value : Value)
  deriving Repr

/-- A service definition. -/
abbrev Definition := Recipe Argument

/-- Recipes by their marks. -/
abbrev Pool := List (Nat × Recipe Argument)

namespace Argument

/-- The reference that an argument is. -/
def reference? : Argument → Option Reference
  | .reference r => some r
  | _ => none

/-- A collection of members, which should be references. -/
def collect (tag : String) (members : List Argument) : Argument :=
  match members.mapM reference? with
  | some references => .collection tag references
  | none => .mixture tag members

/-- Whether an argument is a slot. -/
def isSlot : Argument → Bool
  | autowire _ => true
  | _ => false

mutual

/-- The references in an argument, those in collections and embedded recipes included. -/
def references : Argument → List Reference
  | .reference r => [r]
  | .collection _ members => members
  | .mixture _ members => members.filterMap reference?
  | .inlined _ recipe => referencesAll recipe.arguments ++ referencesNamed recipe.keywords
  | _ => []

/-- The references in positional arguments. -/
def referencesAll : List Argument → List Reference
  | [] => []
  | a :: as => references a ++ referencesAll as

/-- The references in keyword arguments. -/
def referencesNamed : List (String × Argument) → List Reference
  | [] => []
  | (_, a) :: as => references a ++ referencesNamed as

end

mutual

/-- The recipes embedded in an argument, at every depth. -/
def embedded : Argument → Pool
  | .inlined mark recipe =>
    (mark, recipe) :: (embeddedAll recipe.arguments ++ embeddedNamed recipe.keywords)
  | _ => []

/-- The recipes embedded in positional arguments. -/
def embeddedAll : List Argument → Pool
  | [] => []
  | a :: as => embedded a ++ embeddedAll as

/-- The recipes embedded in keyword arguments. -/
def embeddedNamed : List (String × Argument) → Pool
  | [] => []
  | (_, a) :: as => embedded a ++ embeddedNamed as

end

mutual

/-- The labels of the recipes embedded in an argument, the innermost recipes before those that embed
them. -/
def labels : Argument → List Label
  | .mixture _ members => labelsAll members
  | .inlined _ recipe =>
    labelsAll recipe.arguments ++ labelsNamed recipe.keywords ++ recipe.tags
  | _ => []

/-- The labels in positional arguments. -/
def labelsAll : List Argument → List Label
  | [] => []
  | a :: as => labels a ++ labelsAll as

/-- The labels in keyword arguments. -/
def labelsNamed : List (String × Argument) → List Label
  | [] => []
  | (_, a) :: as => labels a ++ labelsNamed as

end

end Argument

namespace Recipe

variable {α : Type}

/-- Positional arguments, then keyword arguments. -/
def allArguments (r : Recipe α) : List α := r.arguments ++ r.keywords.map (·.2)

/-- Whether the recipe carries a tag of that name. -/
def hasTag (r : Recipe α) (name : String) : Except Failure Bool :=
  r.tags.anyM fun l => do return (← l.name) == name

/-- The tags of that name, in order. -/
def tagsNamed (r : Recipe α) (name : String) : Except Failure (List Label) :=
  r.tags.filterM fun l => do return (← l.name) == name

/-- Declared capabilities, then the classes of the factory, before repetitions are dropped. -/
def offeredCapabilities (r : Recipe α) : List Value :=
  r.capabilities ++ (r.factory.map fun f => f.capabilities.map Value.type).getD []

/-- The capabilities that the recipe provides, each once. They must be fit to be keys. -/
def providedCapabilities (r : Recipe α) : Except Failure (List Value) :=
  Value.distinctKeys r.offeredCapabilities

end Recipe

namespace Definition

/-- The references of a definition, in argument order. -/
def references (d : Definition) : List Reference :=
  Argument.referencesAll d.arguments ++ Argument.referencesNamed d.keywords

/-- The recipes embedded in a definition, at every depth. -/
def embedded (d : Definition) : Pool :=
  Argument.embeddedAll d.arguments ++ Argument.embeddedNamed d.keywords

/-- The labels of a definition after those of the recipes embedded in it. -/
def labels (d : Definition) : List Label :=
  Argument.labelsAll d.arguments ++ Argument.labelsNamed d.keywords ++ d.tags

/-- How many recipes are embedded in a definition, at every depth. -/
def embeddedCount (d : Definition) : Nat := (embedded d).length

end Definition

end Wiring
