import Wiring.Definition.Draft
import Wiring.Definition.InPlace
import Wiring.Definition.Marks
import Wiring.Parameter.Bag

/-!
The graph of definitions, aliases and parameters that a container is compiled from. Definitions
and aliases share one set of identifiers, and both keep the order in which they came.
-/

namespace Wiring

/-- A graph of definitions. -/
structure Graph where
  definitions : List Definition := []
  aliases : List Alias := []
  parameters : Bag := {}
  /-- The mark of the next embedded recipe. -/
  nextMark : Nat := 0
  /-- Definitions that are embedded in others as well, with the marks that they have there. -/
  twins : Table Nat := []
  /-- Recipes that are embedded no more, as they were last. -/
  former : Pool := []
  deriving Repr, Inhabited

namespace Graph

/-! ## Definitions -/

/-- The definition of an identifier; aliases are not followed. -/
def find? (g : Graph) (id : String) : Option Definition :=
  g.definitions.find? fun d => d.id == id

/-- Whether an identifier has a definition. -/
def has (g : Graph) (id : String) : Bool := g.definitions.any fun d => d.id == id

/-- The identifiers of the definitions. -/
def ids (g : Graph) : List String := g.definitions.map (·.id)

/-- The definition of an identifier, which must have one. -/
def get (g : Graph) (id : String) : Except Failure Definition :=
  match g.find? id with
  | some d => .ok d
  | none => .error (.notFound (.str id) g.ids)

/-- Takes a definition out, if there is one. -/
def remove (g : Graph) (id : String) : Graph :=
  { g with
    definitions := g.definitions.filter fun d => !(d.id == id)
    twins := g.twins.remove id }

/-- Puts a definition last, in place of any definition or alias of its identifier. -/
def add (g : Graph) (d : Definition) : Graph :=
  let (d, nextMark) := (Definition.freshen d).run g.nextMark
  let rest := g.remove d.id
  { rest with
    definitions := rest.definitions ++ [d]
    aliases := g.aliases.filter fun a => !(a.id == d.id)
    nextMark }

/-- Every occurrence of a tag, with its attributes. -/
def tagged (g : Graph) (tag : String) : Except Failure (List (String × Table Value)) := do
  let found ← g.definitions.mapM fun d => d.tags.filterMapM fun l => do
    if (← l.name) == tag then return some (d.id, ← l.attributes) else return none
  return found.flatten

/-- The names of all tags, each once. -/
def tagNames (g : Graph) : Except Failure (List String) := do
  return (← (g.definitions.flatMap (·.tags)).mapM Label.name).eraseDups

/-! ## Aliases -/

/-- The alias of an identifier. -/
def findAlias? (g : Graph) (id : String) : Option Alias :=
  g.aliases.find? fun a => a.id == id

/-- Whether an identifier is an alias. -/
def hasAlias (g : Graph) (id : String) : Bool := g.aliases.any fun a => a.id == id

/-- Whether an identifier is taken. -/
def contains (g : Graph) (id : String) : Bool := g.has id || g.hasAlias id

/-- The alias of an identifier, which must be one. -/
def getAlias (g : Graph) (id : String) : Except Failure Alias :=
  match g.findAlias? id with
  | some a => .ok a
  | none => .error (.notFound (.str id) (g.aliases.map (·.id)))

/-- Makes an identifier an alias, in place of any definition or alias of that identifier. -/
def setAlias (g : Graph) (a : Alias) : Except Failure Graph :=
  if a.id = "" || a.target = "" then .error (.refused (.aliasIds a.id a.target))
  else if a.id = a.target then .error (.refused (.aliasOfItself a.id))
  else
    let aliases :=
      if g.hasAlias a.id then g.aliases.map fun b => if b.id == a.id then a else b
      else g.aliases ++ [a]
    .ok { g.remove a.id with aliases }

/-- Takes an alias out, if there is one. -/
def removeAlias (g : Graph) (id : String) : Graph :=
  { g with aliases := g.aliases.filter fun a => !(a.id == id) }

/-- Follows aliases from `id` over at most `depth` of them; `chain` holds those passed. -/
def followAliases (g : Graph) : (depth : Nat) → (chain : List String) → (id : String) →
    Except Failure String
  | depth, chain, id =>
    match g.findAlias? id, depth with
    | none, _ => .ok id
    | some a, depth =>
      if chain.contains id then
        .error (.aliasLoop (chain.drop (chain.idxOf id) ++ [id]))
      else
        match depth with
        | 0 => .error .tooDeep
        | depth + 1 => followAliases g depth (chain ++ [id]) a.target

/-- The identifier that aliases lead to. An identifier that is no alias leads to itself. -/
def resolveAlias (g : Graph) (id : String) : Except Failure String :=
  g.followAliases g.aliases.length [] id

/-- The definition that aliases lead to, which must be there. -/
def resolveAliasStrict (g : Graph) (id : String) : Except Failure String := do
  let target ← g.resolveAlias id
  if g.has target then return target
  else throw (.fault (.missingService target (.aliasTarget id)) none)

/-! ## Shared recipes

Recipes are shared where an argument was put into several places, and where a definition was
embedded but not taken out. -/

/-- The mark of the definition at a place: the one that it is embedded under, or one that is not in
use. -/
def markAt (g : Graph) (place : Nat) (d : Definition) : Nat :=
  (g.twins.get? d.id).getD (g.nextMark + place)

/-- The definitions with their marks. -/
def marked (g : Graph) : Pool := g.definitions.zipIdx.map fun (d, i) => (g.markAt i d, d)

/-- The recipes embedded in the definitions. -/
def embedded (g : Graph) : Pool := g.definitions.flatMap Definition.embedded

/-- Whether recipes are embedded in the definitions, as far as their marks tell. -/
def embeds (g : Graph) (recipes : Pool) : Bool :=
  let marks := g.embedded.map (·.1)
  recipes.all fun (mark, _) => marks.contains mark

/-- All recipes of the graph, the definitions before those embedded in them. -/
def pool (g : Graph) : Pool := g.marked ++ g.embedded

/-- All recipes that are or were embedded in the graph, after its definitions. -/
def recipes (g : Graph) : Pool := g.pool ++ g.former

/-- The recipes that are known by their marks: embedded ones, and definitions that are embedded as
well. -/
def shared (g : Graph) : Pool :=
  (g.marked.filter fun (_, d) => g.twins.has d.id) ++ g.embedded

/-- The graph that takes the place of `old`. What is no longer embedded it keeps as it was last. -/
def after (g old : Graph) : Graph :=
  let marks := g.pool.map (·.1)
  { g with former := (g.former ++ old.shared).filter fun (mark, _) => !marks.contains mark }

/-- The definitions as they lie in a pool. -/
def settle (g : Graph) (pool : Pool) : Graph :=
  { g with definitions :=
    g.marked.map fun (mark, d) => pool.expandDefinition ((pool.lookup mark).getD d) }

/-- Whether a recipe is embedded in several places, or a definition is embedded. -/
def isShared (g : Graph) : Bool :=
  !g.twins.isEmpty || !decide (g.embedded.map (·.1)).Nodup

/-- Changes the definition of an identifier where it stands, and where it is embedded. -/
def update (g : Graph) (id : String) (change : Definition → Definition) : Graph :=
  let changed := { g with
    definitions := g.definitions.map fun d => if d.id == id then change d else d }
  if changed.twins.isEmpty then changed else changed.settle changed.pool

/-! ## The graph as a whole -/

/-- A copy that shares nothing with the graph. Every embedded recipe is one of its own there. -/
def copy (g : Graph) : Except Failure Graph := do
  let copies ← g.definitions.mapM Definition.copy
  let (definitions, nextMark) := (copies.mapM Definition.freshen).run 0
  return { g with definitions, nextMark, twins := [], former := [] }

/-- Revises definitions one after the other, each by its own rule, in place. Rules may bring in the
recipes of `given`. What was revised before a failure stays so. -/
def reviseInPlace (g : Graph) (given : Pool) (visits : List (Nat × Rule)) :
    Option Failure × Graph :=
  let (failure, pool) := (g.pool ++ given).reviseThese visits
  (failure, g.settle pool)

/-- Revises the arguments of all definitions, each by its own rule. What was revised before a
failure stays so. Where nothing is shared, what fails is what fails for a definition by itself. -/
def reviseAll (g : Graph) (rule : Definition → Rule) : Option Failure × Graph :=
  let inPlace := g.reviseInPlace [] (g.marked.map fun (mark, d) => (mark, rule d))
  if g.isShared then inPlace
  else
    match g.definitions.mapM fun d => Definition.revise (rule d) d with
    | .ok definitions => (none, { g with definitions })
    | .error e => (some (inPlace.1.getD e), inPlace.2)

/-- Revises the arguments of one definition. Recipes that it shares with others change with it. -/
def reviseOne (g : Graph) (id : String) (given : Pool) (rule : Rule) : Option Failure × Graph :=
  g.reviseInPlace given <|
    (g.marked.filter fun (_, d) => d.id == id).map fun (mark, _) => (mark, rule)

end Graph

end Wiring
