import Wiring.Graph.Build

/-!
Aliases: references and aliases are pointed at the identifiers that aliases lead to, after which
private aliases are of no use.
-/

namespace Wiring.Pass

/-- The rule that points references past aliases. -/
def aliasRule (g : Graph) : Rule
  | .reference r => do return .reference { r with id := ← g.resolveAlias r.id }
  | a => .ok a

/-- Points an alias at what it leads to. -/
def shortenAlias (a : Alias) : Build Unit := do
  let g ← Build.graph
  let target ← Build.check (g.resolveAlias a.id)
  if target != a.target then
    let g' ← Build.check (g.setAlias { a with target })
    Build.change fun _ => g'

/-- Points all aliases and references at what they lead to. -/
def resolveAliases : Build Unit := do
  (← Build.graph).aliases.forM shortenAlias
  Build.changeOrFail fun g => g.reviseAll fun _ => aliasRule g

/-- Takes private aliases out. -/
def removePrivateAliases : Build Unit :=
  Build.change fun g => { g with aliases := g.aliases.filter (·.isPublic) }

end Wiring.Pass
