import Wiring.Graph.Build

/-!
Templates: a definition that extends a parent takes over what it does not say itself.
-/

namespace Wiring

namespace Recipe

variable {α : Type}

/-- The child's positional arguments, then those of the parent at later positions. -/
def inheritedArguments (parent child : Recipe α) : List α :=
  child.arguments ++ parent.arguments.drop child.arguments.length

/-- The parent's tags of names that the child does not use, then the child's. -/
def inheritedTags (parent child : Recipe α) : List Label :=
  (parent.tags.filter fun l => !child.tags.any fun own => own.name? == l.name?) ++ child.tags

/-- The child with factory, arguments and tags taken over from the parent. -/
def inheritFrame (parent child : Recipe α) : Recipe α :=
  { child with
    factory := child.factory.or parent.factory
    arguments := inheritedArguments parent child
    keywords := Table.merge parent.keywords child.keywords
    tags := inheritedTags parent child }

/-- The child with all that it takes over from the parent, which it no longer extends.
Visibility, sharing and being a template stay its own. -/
def inherit (parent child : Recipe α) : Recipe α :=
  { inheritFrame parent child with
    capabilities := Value.distinct (parent.capabilities ++ child.capabilities)
    autowired := child.autowired || parent.autowired
    isLazy := child.isLazy || parent.isLazy
    parent := none }

end Recipe

namespace Pass

/-- Work on templates, which remembers the identifiers of definitions that extend nothing any
more. -/
abbrev Expansion := StateT (List String) Build

/-- Puts into a definition what it takes over from its parent, itself expanded before. All tags
must have names, and the capabilities must be fit to be keys. -/
def mergeParent (parentId : String) (parent child : Definition) : Build Unit := do
  Build.check ((child.tags ++ parent.tags).forM fun l => discard l.name)
  match (parent.capabilities ++ child.capabilities).findSome? Value.unhashable? with
  | some typeName =>
    Build.change fun g => g.update child.id fun d => Recipe.inheritFrame parent d
    throw (.unhashable typeName)
  | none =>
    Build.change fun g => g.update child.id fun d => Recipe.inherit parent d
    Build.note (.templateMerged child.id parentId)

/-- Expands a definition; `above` expands its parent before that. `chain` holds the definitions that
wait for it. -/
def expandAfter (above : List String → Definition → Expansion Unit) (chain : List String)
    (d : Definition) : Expansion Unit := do
  match d.parent with
  | none => modify (d.id :: ·)
  | some parentName =>
    if (← get).contains d.id then return
    if chain.contains d.id then
      throw (.breach (.circularParents (chain ++ [d.id]) d.id))
    let g ← Build.graph
    let parentId ← Build.check (g.resolveAlias parentName)
    match g.find? parentId with
    | none => throw (.fault (.missingService parentName (.parent d.id)) none)
    | some parent =>
      above (chain ++ [d.id]) parent
      let expanded := ((← Build.graph).find? parentId).getD parent
      mergeParent parentId expanded d
      modify (d.id :: ·)

/-- Expands a definition after its parents, of which at most `depth` can follow. -/
def expandFrom : (depth : Nat) → (chain : List String) → Definition → Expansion Unit
  | 0 => expandAfter fun _ _ => throw .tooDeep
  | depth + 1 => expandAfter (expandFrom depth)

/-- Expands the definition of an identifier. -/
def expand (depth : Nat) (id : String) : Expansion Unit := do
  match (← Build.graph).find? id with
  | some d => expandFrom depth [] d
  | none => pure ()

/-- Expands all definitions that extend a parent. -/
def expandTemplates : Build Unit := do
  let g ← Build.graph
  discard <| (g.ids.forM (expand g.definitions.length)).run []

end Pass

end Wiring
