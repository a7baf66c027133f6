import Wiring.Definition.Revision

/-!
Revision in place. Recipes lie in a pool, where an embedded recipe is known by its mark: however
often it is embedded there is one of it, each visit finds it as the last one left it, and what was
revised before a failure stays so.
-/

namespace Wiring

namespace Pool

/-- Changes the recipe of a mark. -/
def change (mark : Nat) (f : Recipe Argument → Recipe Argument) (pool : Pool) : Pool :=
  pool.map fun (m, r) => if m == mark then (m, f r) else (m, r)

/-- An argument with its embedded recipes as they lie in the pool, down to a depth. A recipe that
is embedded in itself is not looked up again there. -/
def expand : (depth : Nat) → Pool → Argument → Argument
  | depth + 1, pool, .inlined mark recipe =>
    let r := (pool.lookup mark).getD recipe
    let rest := pool.filter fun (m, _) => m != mark
    .inlined mark { r with
      arguments := r.arguments.map (expand depth rest)
      keywords := r.keywords.map fun (name, a) => (name, expand depth rest a) }
  | _, _, a => a

/-- A depth that no chain of recipes in the pool exceeds unless it comes back to one of them. -/
def depth (pool : Pool) : Nat := pool.length + 1

/-- A definition with its embedded recipes as they lie in the pool. -/
def expandDefinition (pool : Pool) (d : Definition) : Definition :=
  { d with
    arguments := d.arguments.map (expand pool.depth pool)
    keywords := d.keywords.map fun (name, a) => (name, expand pool.depth pool a) }

/-- Work on a pool. A failure keeps the state that it arose in. -/
abbrev Work := EStateM Failure Pool

/-- An argument of `service` after a rule; `visit` revises an embedded recipe. -/
def reviseArgument (rule : Rule) (visit : Nat → Work Unit) (service : String) (a : Argument) :
    Work Argument := do
  if let .inlined mark _ := a then visit mark
  match Argument.reviseOuter rule service a with
  | .ok b => return b
  | .error e => throw e

/-- Revises the recipe of a mark, and those embedded in it, down to a depth. Positional arguments
count as replaced once all of them are revised, then keyword arguments likewise. -/
def revise (rule : Rule) : (depth : Nat) → (mark : Nat) → Work Unit
  | 0, _ => throw .tooDeep
  | depth + 1, mark => do
    let visit := reviseArgument rule (revise rule depth)
    if let some r := (← get).lookup mark then
      let arguments ← r.arguments.mapM (visit r.id)
      modify (change mark fun r => { r with arguments })
    if let some r := (← get).lookup mark then
      let keywords ← r.keywords.mapM fun (name, a) => do return (name, ← visit r.id a)
      modify (change mark fun r => { r with keywords })

/-- Revises recipes one after the other, each by its own rule: the pool as it is left, and what
went wrong. -/
def reviseThese (pool : Pool) (visits : List (Nat × Rule)) : Option Failure × Pool :=
  match (visits.forM fun (mark, rule) => revise rule pool.depth mark).run pool with
  | .ok _ pool => (none, pool)
  | .error e pool => (some e, pool)

end Pool

end Wiring
