import Wiring.Definition.Basic

/-!
Definitions and arguments as printed values.
-/

namespace Wiring

/-- A truth value as it is shown. -/
def showFlag (b : Bool) : String := (Value.bool b).shown

/-- An optional text as it is shown. -/
def showOptional (s : Option String) : String := (s.map Text.quote).getD Value.null.shown

/-- A table as a printed dictionary, from its printed values. -/
def showTable (entries : List (String × String)) : String :=
  "\x7b" ++ ", ".intercalate (entries.map fun (k, v) => Text.quote k ++ ": " ++ v) ++ "\x7d"

/-- Printed items as a printed tuple. -/
def showTuple : List String → String
  | [item] => "(" ++ item ++ ",)"
  | items => "(" ++ ", ".intercalate items ++ ")"

/-- A reference as a printed value. -/
def Reference.shown (r : Reference) : String :=
  "ServiceReference(id=" ++ Text.quote r.id ++ ", optional=" ++ showFlag r.optional ++
    ", lazy=" ++ showFlag r.lazy ++ ")"

/-- A tag as a printed value. -/
def Tag.shown (t : Tag) : String :=
  "Tag(name=" ++ Text.quote t.name ++ ", attributes=" ++
    showTable (t.attributes.map fun (k, v) => (k, v.shown)) ++ ")"

/-- A label as a printed value. -/
def Label.shown : Label → String
  | .tag t => t.shown
  | .plain v => v.shown

/-- A slot as a printed value. -/
def Slot.shown (s : Slot) : String :=
  "Autowire(capability=" ++ (s.capability.getD .null).shown ++ ", name=" ++
    showOptional s.name ++ ", optional=" ++ showFlag s.optional ++ ")"

/-- A recipe as a printed value, from its printed arguments. -/
def Recipe.shownWith {α : Type} (r : Recipe α) (arguments : List String)
    (keywords : List (String × String)) : String :=
  "ServiceDefinition(id=" ++ Text.quote r.id ++
    ", factory=" ++ ((r.factory.map fun f => f.type.shown).getD Value.null.shown) ++
    ", arguments=[" ++ ", ".intercalate arguments ++ "]" ++
    ", keyword_arguments=" ++ showTable keywords ++
    ", tags=[" ++ ", ".intercalate (r.tags.map Label.shown) ++ "]" ++
    ", public=" ++ showFlag r.isPublic ++ ", shared=" ++ showFlag r.isShared ++
    ", abstract=" ++ showFlag r.isAbstract ++ ", lazy=" ++ showFlag r.isLazy ++
    ", autowire=" ++ showFlag r.autowired ++
    ", capabilities=" ++ (Value.tuple r.capabilities).shown ++
    ", default_for=" ++ (Value.tuple r.defaultFor).shown ++
    ", parent=" ++ showOptional r.parent ++ ")"

namespace Argument

mutual

/-- An argument as a printed value. -/
def shown : Argument → String
  | .reference r => r.shown
  | .parameter name => "ParameterReference(name=" ++ Text.quote name ++ ")"
  | .literal v => "LiteralValue(value=" ++ v.shown ++ ")"
  | .tagged tag => "TaggedCollection(tag=" ++ Text.quote tag ++ ")"
  | .autowire slot => slot.shown
  | .collection tag members =>
    "ServiceCollection(tag=" ++ Text.quote tag ++ ", references=" ++
      showTuple (members.map Reference.shown) ++ ")"
  | .mixture tag members =>
    "ServiceCollection(tag=" ++ Text.quote tag ++ ", references=" ++
      showTuple (shownAll members) ++ ")"
  | .inlined _ recipe =>
    "InlinedService(definition=" ++
      recipe.shownWith (shownAll recipe.arguments) (shownNamed recipe.keywords) ++ ")"
  | .plain v => v.shown

/-- Positional arguments. -/
def shownAll : List Argument → List String
  | [] => []
  | a :: as => shown a :: shownAll as

/-- Keyword arguments. -/
def shownNamed : List (String × Argument) → List (String × String)
  | [] => []
  | (name, a) :: as => (name, shown a) :: shownNamed as

end

end Argument

end Wiring
