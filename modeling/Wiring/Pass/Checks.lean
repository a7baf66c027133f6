import Wiring.Graph.Reach
import Wiring.Graph.Cycle
import Wiring.Graph.Build
import Wiring.Text.Identifier

/-!
Validation: what must hold of every concrete definition, reference and alias before anything is
removed.
-/

namespace Wiring.Pass

/-- A definition that is reached has no slots left, and autowired arguments fit its factory. -/
def checkArguments (d : Definition) : Except Failure Unit :=
  if d.allArguments.any Argument.isSlot then .error (.breach (.openSlot d.id))
  else if !d.autowired then .ok ()
  else
    match d.factory.bind Factory.callParameters? with
    | none => .ok ()
    | some parameters =>
      match Signature.bind parameters d.arguments d.keywords with
      | .ok _ => .ok ()
      | .error why => .error (.breach (.misfit why d.id))

/-- A definition extends nothing any more and, unless it is a template, can be constructed. -/
def checkDefinition (reached : List String) (d : Definition) : Except Failure Unit := do
  if let some parent := d.parent then throw (.breach (.stillExtends parent d.id))
  if d.isAbstract then return
  if d.factory.isNone then throw (.breach (.concreteWithoutFactory d.id))
  if let some (name, _) := d.keywords.find? fun (name, _) => !Text.isArgumentName name then
    throw (.breach (.keywordName name d.id))
  if reached.contains d.id then checkArguments d

/-- Every concrete definition can be constructed. -/
def checkDefinitions (g : Graph) : Except Failure Unit := do
  let reached ← g.reachableIds
  g.definitions.forM (checkDefinition reached)

/-- An alias leads to a definition, and a public one to no template. -/
def checkAlias (g : Graph) (a : Alias) : Except Failure Unit := do
  let target ← g.resolveAliasStrict a.id
  if a.isPublic && (← g.get target).isAbstract then
    throw (.breach (.aliasOfAbstract target a.id))

/-- A reference leads to a definition that is no template, unless it is optional and leads
nowhere. -/
def checkReference (g : Graph) (service : String) (r : Reference) : Except Failure Unit := do
  let target ← g.resolveAlias r.id
  match g.find? target with
  | none =>
    if !r.optional then throw (.fault (.missingService r.id (.dependency service)) none)
  | some d => if d.isAbstract then throw (.breach (.dependsOnAbstract target service))

/-- All aliases and all references of concrete definitions lead where they may. -/
def checkReferences (g : Graph) : Except Failure Unit := do
  g.aliases.forM (checkAlias g)
  (g.definitions.filter fun d => !d.isAbstract).forM fun d =>
    discard (Definition.eachReference d (checkReference g d.id))

/-- All dependency cycles are lazy. -/
def checkCycles (g : Graph) : Except Failure Unit := g.validate

end Wiring.Pass
