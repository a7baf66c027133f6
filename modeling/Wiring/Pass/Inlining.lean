import Wiring.Graph.Build
import Wiring.Definition.Referents

/-!
Inlining: a private service that is used once, and whose number of instances cannot change by it,
is embedded into its only consumer.
-/

namespace Wiring.Pass

/-- The first member of a collection that is no reference fails, then the first referent. -/
def requireReferences (d : Definition) : Except Failure Unit := do
  d.allArguments.forM fun
    | .mixture _ members => members.forM fun a => discard (a.requireReference "id")
    | _ => .ok ()
  (Definition.referents d).forM fun a => discard (a.requireReference "lazy")

/-- A use of a service by a definition. -/
structure Use where
  target : String
  consumer : Definition
  isLazy : Bool

/-- All uses of services, by argument order within the order of definitions. -/
def uses (g : Graph) : List Use :=
  g.definitions.flatMap fun d => (Definition.references d).map fun r => ⟨r.id, d, r.lazy⟩

/-- The members of collections among the arguments of definitions. -/
def collected (g : Graph) : List String :=
  g.definitions.flatMap fun d => d.allArguments.flatMap fun
    | .collection _ members => members.map (·.id)
    | _ => []

/-- Services that something holds on to by other means than one eager reference. -/
def pinned (g : Graph) : List String :=
  g.aliases.map (·.target) ++ collected g ++ ((uses g).filter (·.isLazy)).map (·.target)

/-- Whether a definition can be embedded into its only consumer. -/
def isCandidate (g : Graph) (d : Definition) : Bool :=
  if d.isPublic || d.isLazy || d.isAbstract || (pinned g).contains d.id then false
  else
    match (uses g).filter fun u => u.target == d.id && !u.isLazy with
    | [u] => u.consumer.id != d.id && (!d.isShared || u.consumer.isShared)
    | _ => false

/-- The definitions to embed, each with the mark that its recipe gets. -/
def candidates (g : Graph) : List (Nat × Definition) :=
  ((g.definitions.filter (isCandidate g)).zipIdx g.nextMark).map fun (d, mark) =>
    ((g.twins.get? d.id).getD mark, d)

/-- The candidate of an identifier. -/
def findCandidate? (found : List (Nat × Definition)) (id : String) : Option (Nat × Definition) :=
  found.find? fun c => c.2.id == id

/-- The rule that embeds candidates as they are. -/
def shallowRule (found : List (Nat × Definition)) : Rule
  | .reference r =>
    match findCandidate? found r.id with
    | some (mark, d) => .ok (.inlined mark d)
    | none => .ok (.reference r)
  | a => .ok a

/-- The rule that embeds candidates with the candidates that they use in turn, down to `depth` of
them. -/
def deepRule (found : List (Nat × Definition)) : (depth : Nat) → Rule
  | 0, a => .ok a
  | depth + 1, .reference r =>
    match findCandidate? found r.id with
    | some (mark, d) => do return .inlined mark (← Definition.revise (deepRule found depth) d)
    | none => .ok (.reference r)
  | _ + 1, a => .ok a

/-- Embeds candidates in place: the others are revised first, then the candidates, and these are
taken out. Those that were embedded before a failure stay where they were as well. Candidates that
embed one another leave the graph with all that was embedded in them before. -/
def embedInPlace (found : List (Nat × Definition)) (others : List Definition) (g : Graph) :
    Option Failure × Graph :=
  let g : Graph := { g with
    nextMark := g.nextMark + found.length
    twins := g.twins.merge (found.map fun (mark, d) => (d.id, mark)) }
  let visit (d : Definition) : Option (Nat × Rule) :=
    (g.marked.find? fun (_, e) => e.id == d.id).map fun (mark, _) => (mark, shallowRule found)
  let (failure, g) := g.reviseInPlace [] ((others ++ found.map (·.2)).filterMap visit)
  match failure with
  | none => (none, (found.foldl (fun g (_, d) => g.remove d.id) g).after g)
  | some e =>
    let marks := g.embedded.map (·.1)
    (some e, { g with twins := g.twins.filter fun (_, mark) => marks.contains mark })

/-- The definitions after candidates are embedded into them, with the candidates that these use in
turn. No member of a collection can be embedded. -/
def embedded (found : List (Nat × Definition)) (others : List Definition) :
    Except Failure (List Definition) := do
  found.forM fun (_, d) => discard (Definition.revise (shallowRule found) d)
  others.mapM (Definition.revise (deepRule found found.length))

/-- Embeds candidates, with the candidates that they use in turn, and takes them out. Where nothing
is shared, what fails is what fails for a definition by itself. -/
def embed (found : List (Nat × Definition)) (g : Graph) : Option Failure × Graph :=
  let others := g.definitions.filter fun d => (findCandidate? found d.id).isNone
  let inPlace := embedInPlace found others g
  if g.isShared then inPlace
  else
    match embedded found others with
    | .ok definitions =>
      let settled : Graph := { g with definitions, nextMark := g.nextMark + found.length }
      if settled.embeds g.embedded then (none, settled)
      else (none, { settled with former := inPlace.2.former })
    | .error e => (some (inPlace.1.getD e), inPlace.2)

/-- Embeds until there are no candidates, in at most `rounds` rounds. Each round takes definitions
out. -/
def inlineRounds : (rounds : Nat) → Build Unit
  | 0 => pure ()
  | rounds + 1 => do
    Build.check ((← Build.graph).definitions.forM requireReferences)
    let found := candidates (← Build.graph)
    if found.isEmpty then return
    Build.changeOrFail (embed found)
    (Failure.sortTexts (found.map (·.2.id))).forM fun id => Build.note (.inlined id)
    inlineRounds rounds

/-- Embeds all private services that are used once. -/
def inlineServices : Build Unit := do
  inlineRounds (← Build.graph).definitions.length

end Wiring.Pass
