import Wiring.Graph.Build
import Wiring.Tag.Order

/-!
The index of tagged services, and autoconfiguration: rules that tag every definition that provides
a capability. Tags that a definition declares win over those that rules infer, which only fill in
attributes that are lacking.
-/

namespace Wiring

/-- A rule that tags every definition that provides `capability`. -/
structure TagRule where
  capability : Value
  tag : Tag

/-- Rules, and the services that the last rebuild found under each tag. -/
structure TagIndex where
  rules : List TagRule := []
  entries : Table (List Tagged) := []

/-- Where a rule is handed over. -/
inductive RuleDesk where
  | index
  | builder
  deriving DecidableEq, Repr

namespace RuleDesk

/-- The routine that takes a rule. -/
def routine : RuleDesk → String
  | index => "TagIndex.register_for_autoconfiguration"
  | builder => "ContainerBuilder.register_for_autoconfiguration"

/-- The parameters that the routine has besides the attributes, which are named arguments. -/
def parameters : List String := ["self", "capability", "tag_name"]

/-- Accepts a rule. No attribute can go by the name of a parameter, and its tag must have a name. -/
def accept (desk : RuleDesk) (capability : Value) (tag : Tag) : Except Failure TagRule :=
  match tag.attributes.names.find? parameters.contains with
  | some name => .error (.misuse desk.routine (.repeated name))
  | none =>
    if tag.name = "" then .error (.refused .ruleTag) else .ok ⟨capability, tag⟩

end RuleDesk

namespace TagIndex

/-- Adds a rule. -/
def addRule (index : TagIndex) (rule : TagRule) : TagIndex :=
  { index with rules := index.rules ++ [rule] }

/-- The rules alone. -/
def copy (index : TagIndex) : TagIndex := { rules := index.rules }

/-- The services under a tag, in order. -/
def tagged (index : TagIndex) (tag : String) : List Tagged := (index.entries.get? tag).getD []

/-- The identifiers of the services under a tag, in order. -/
def taggedIds (index : TagIndex) (tag : String) : List String :=
  (index.tagged tag).map (·.service)

/-! ## Autoconfiguration -/

/-- The tags that rules infer for the provided capabilities. Of rules with one tag name the
earlier win. -/
def inferred (rules : List TagRule) (provided : List Value) : Table Tag :=
  (rules.filter fun r => provided.any fun v => v.same r.capability).foldl
    (fun tags r =>
      match tags.get? r.tag.name with
      | some earlier => tags.put r.tag.name (earlier.mergedWith r.tag)
      | none => tags.put r.tag.name r.tag) []

/-- The tags of a definition with an inferred one added, or merged into those of its name. -/
def addInferred (labels : List Label) (tag : Tag) : Except Failure (List Label) := do
  if (← labels.mapM Label.name).contains tag.name then
    labels.mapM fun l => do
      if (← l.name) == tag.name then return .tag (← l.mergedWith (.tag tag)) else return l
  else return labels ++ [.tag tag]

/-- Gives a definition a tag that rules infer, with a note unless one of its name is there. -/
def inferTag (id : String) (tag : Tag) : Build Unit := do
  let labels := (((← Build.graph).find? id).map (·.tags)).getD []
  let tags ← Build.check (addInferred labels tag)
  if !(labels.filterMap Label.name?).contains tag.name then
    Build.note (.autoconfigured tag.name id)
  Build.change fun g => g.update id fun d => { d with tags }

/-- Tags one definition by the capabilities that it provides. -/
def autoconfigure (rules : List TagRule) (d : Definition) : Build Unit := do
  let provided ← Build.check d.providedCapabilities
  (inferred rules provided).forM fun (_, tag) => inferTag d.id tag

/-! ## The index -/

/-- A failure to read a priority, as it concerns a service. -/
def blame (service : String) : Failure → Failure
  | .refused (.priority tag given) => .breach (.priority tag given service)
  | e => e

/-- The entry of a label of a definition, with the name of its tag. -/
def entryOf (d : Definition) (l : Label) : Except Failure (String × Tagged) := do
  let t ← l.require "priority"
  let priority ← t.priority.mapError (blame d.id)
  return (t.name, ⟨d.id, t.attributes, priority⟩)

/-- The entries of a definition, one for each tag name: of several tags the first with the highest
priority. -/
def bestEntries (d : Definition) : Except Failure (Table Tagged) :=
  d.tags.foldlM (fun best l => do
    let (name, entry) ← entryOf d l
    match best.get? name with
    | some current =>
      return if current.priority.lt entry.priority then best.put name entry else best
    | none => return best.put name entry) []

/-- The services under each tag, before they are sorted. -/
def gather (definitions : List Definition) : Except Failure (Table (List Tagged)) :=
  (definitions.filter fun d => !d.isAbstract).foldlM (fun found d => do
    let best ← bestEntries d
    return best.foldl (fun found (tag, entry) =>
      Table.put found tag ((Table.get? found tag).getD [] ++ [entry])) found) []

/-- Tags all definitions but templates by the capabilities that they provide, and indexes them
anew. -/
def rebuild (index : TagIndex) : Build TagIndex := do
  ((← Build.graph).definitions.filter fun d => !d.isAbstract).forM (autoconfigure index.rules)
  let found ← Build.check (gather (← Build.graph).definitions)
  return { index with entries := found.map fun (tag, entries) => (tag, Tagged.sort entries) }

end TagIndex

end Wiring
