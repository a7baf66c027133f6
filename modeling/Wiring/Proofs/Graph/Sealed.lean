import Wiring.Proofs.Graph.Cycles
import Wiring.Proofs.Graph.Reach

/-!
# Sealed graphs

A sealed graph can be made a container of: every argument is of a kind that compilation leaves,
every recipe has a factory, references and aliases lead to definitions that are there, cycles are
lazy, and all definitions are reached from the roots.
-/

namespace Wiring.Graph

variable {g : Graph} {d : Definition} {r : Reference} {a b : String}

/-- References name definitions and no aliases, and those that are not lazy lead in no circle. No
definition is embedded as well, and no collection was made by hand. -/
structure Layered (g : Graph) : Prop where
  unique : g.ids.Nodup
  alone : g.twins = []
  plain : g.Plain
  unaliased : ∀ d ∈ g.definitions, ∀ r ∈ Definition.references d, r.id ∉ g.aliasIds
  cycles : g.CyclesLazy

namespace Layered

/-- References name no aliases. -/
theorem free (h : g.Layered) (hd : d ∈ g.definitions) (hr : r ∈ Definition.references d) :
    g.findAlias? r.id = none :=
  findAlias?_eq_none_iff.2 (h.unaliased d hd r hr)

theorem resolveAlias_ok (h : g.Layered) (hd : d ∈ g.definitions)
    (hr : r ∈ Definition.references d) : g.resolveAlias r.id = .ok r.id :=
  resolveAlias_of_free (h.free hd hr)

/-- Arcs are references by name. -/
theorem arc_iff (h : g.Layered) {isLazy : Bool} : g.Arc isLazy a b ↔
    ∃ d d', g.find? a = some d ∧ g.find? b = some d' ∧
      ∃ r ∈ Definition.references d, r.id = b ∧ isLazy = (r.lazy || d'.isLazy) := by
  constructor
  · rintro ⟨d, d', hd, hd', r, hr, ht, hl⟩
    rw [h.resolveAlias_ok (mem_of_find? hd).1 hr] at ht
    exact ⟨d, d', hd, hd', r, hr, Except.ok.inj ht, hl⟩
  · rintro ⟨d, d', hd, hd', r, hr, rfl, hl⟩
    exact ⟨d, d', hd, hd', r, hr, h.resolveAlias_ok (mem_of_find? hd).1 hr, hl⟩

end Layered

/-- The graph is ready to be made a container of. -/
structure Sealed (g : Graph) : Prop extends Tidy g where
  settled : g.Settled
  made : ∀ d ∈ g.definitions, ∀ p ∈ Definition.parts d, ∃ f, p.factory = some f
  tagged : ∀ d ∈ g.definitions, ∀ p ∈ Definition.parts d, ∀ l ∈ p.tags, l.IsTag
  concrete : ∀ d ∈ g.definitions, d.isAbstract = false
  closed : ∀ d ∈ g.definitions, ∀ r ∈ Definition.references d,
    r.id ∉ g.aliasIds ∧ (r.id ∈ g.ids ∨ r.optional = true)
  direct : ∀ a ∈ g.aliases, a.isPublic = true ∧ a.target ∈ g.ids
  cycles : g.CyclesLazy
  reached : ∀ id ∈ g.ids, g.Reached id

namespace Sealed

theorem plain (h : g.Sealed) : g.Plain := h.settled.plain

theorem toLayered (h : g.Sealed) : g.Layered where
  unique := h.unique
  alone := h.alone
  plain := h.plain
  unaliased d hd r hr := (h.closed d hd r hr).1
  cycles := h.cycles

/-- References name no aliases. -/
theorem free (h : g.Sealed) (hd : d ∈ g.definitions) (hr : r ∈ Definition.references d) :
    g.findAlias? r.id = none :=
  h.toLayered.free hd hr

theorem resolveAlias_ok (h : g.Sealed) (hd : d ∈ g.definitions)
    (hr : r ∈ Definition.references d) : g.resolveAlias r.id = .ok r.id :=
  h.toLayered.resolveAlias_ok hd hr

theorem toDirect (h : g.Sealed) : g.Direct := fun a ha =>
  h.toTidy.findAlias?_eq_none (h.direct a ha).2

theorem resolveAlias_alias (h : g.Sealed) {a : Alias} (ha : a ∈ g.aliases) :
    g.resolveAlias a.id = .ok a.target :=
  resolveAlias_of_direct (findAlias?_of_mem h.uniqueAliases ha) (h.toDirect a ha)

/-- Arcs are references by name. -/
theorem arc_iff (h : g.Sealed) {isLazy : Bool} : g.Arc isLazy a b ↔
    ∃ d d', g.find? a = some d ∧ g.find? b = some d' ∧
      ∃ r ∈ Definition.references d, r.id = b ∧ isLazy = (r.lazy || d'.isLazy) :=
  h.toLayered.arc_iff

end Sealed

end Wiring.Graph
