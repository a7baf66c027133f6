import Wiring.Proofs.Graph.Leads
import Wiring.Proofs.Table

/-!
# Graphs as they are registered

What is registered has one identifier for each definition and alias, tags that are tags, and
arguments of the kinds that an application can write down: no recipe is embedded in another and no
collection is made by hand.
-/

namespace Wiring

/-- Whether an argument is of a kind that an application writes down. -/
def Argument.isDeclared : Argument → Bool
  | .reference _ | .parameter _ | .literal _ | .tagged _ | .autowire _ => true
  | _ => false

/-- Whether nothing is embedded in an argument and no collection is made by hand. -/
def Argument.isFlat : Argument → Bool
  | .inlined _ _ | .mixture _ _ => false
  | _ => true

/-- A label is a tag, whose attributes have different names. -/
def Label.IsTag (l : Label) : Prop := ∃ t, l = .tag t ∧ t.attributes.names.Nodup

/-- A definition is no template and carries the tag. -/
def Definition.Carries (d : Definition) (tag : String) : Prop :=
  d.isAbstract = false ∧ ∃ t, .tag t ∈ d.tags ∧ t.name = tag

theorem Argument.isFlat_of_declared {a : Argument} (h : a.isDeclared = true) :
    a.isFlat = true := by
  cases a <;> simp_all [isDeclared, isFlat]

/-! ## Flat definitions -/

namespace Argument

variable {a : Argument}

theorem ne_inlined (h : a.isFlat = true) (m : Nat) (r : Recipe Argument) : a ≠ .inlined m r := by
  rintro rfl
  simp [isFlat] at h

theorem isMixture_of_flat (h : a.isFlat = true) : a.isMixture = false := by
  cases a <;> simp_all [isFlat, isMixture]

end Argument

namespace Definition

/-- Nothing is embedded in a definition. -/
def Flat (d : Definition) : Prop := ∀ a ∈ d.allArguments, a.isFlat = true

variable {d : Definition}

theorem Flat.embedded_eq (h : d.Flat) : embedded d = [] := by
  rw [Definition.embedded_eq, List.flatMap_eq_nil_iff]
  exact fun a ha => Argument.embedded_eq_nil (Argument.ne_inlined (h a ha))

theorem Flat.parts_eq (h : d.Flat) : parts d = [d] := by
  rw [parts, h.embedded_eq, List.map_nil]

theorem Flat.plain (h : d.Flat) : d.Plain := by
  intro p hp a ha
  rw [h.parts_eq, List.mem_singleton] at hp
  exact Argument.isMixture_of_flat (h a (hp ▸ ha))

theorem Flat.mem_references (h : d.Flat) {r : Reference} :
    r ∈ references d ↔ ∃ a ∈ d.allArguments, r ∈ a.direct := by
  rw [Definition.mem_references, h.parts_eq]
  simp

end Definition

namespace Graph

variable {g g' : Graph}

/-- The property holds of all arguments of definitions. -/
def Holds (P : Argument → Prop) (g : Graph) : Prop :=
  ∀ d ∈ g.definitions, ∀ a ∈ d.allArguments, P a

/-- Nothing is embedded in the definitions. -/
def Flat (g : Graph) : Prop := ∀ d ∈ g.definitions, Definition.Flat d

/-- Definitions and aliases have identifiers of their own, and of what is embedded as well each is one
of the definitions. -/
structure Identified (g : Graph) : Prop where
  unique : g.ids.Nodup
  uniqueAliases : g.aliasIds.Nodup
  apart : ∀ id ∈ g.aliasIds, id ∉ g.ids
  twins : ∀ id ∈ g.twins.names, id ∈ g.ids

/-- Identifiers and labels are in order, and no definition is embedded. -/
structure Tidy (g : Graph) : Prop where
  unique : g.ids.Nodup
  uniqueAliases : g.aliasIds.Nodup
  apart : ∀ id ∈ g.aliasIds, id ∉ g.ids
  labels : ∀ d ∈ g.definitions, ∀ l ∈ d.tags, l.IsTag
  alone : g.twins = []

/-- What an application can register. -/
structure Registered (g : Graph) : Prop extends Tidy g where
  declared : g.Holds fun a => a.isDeclared = true

theorem Holds.mono {P Q : Argument → Prop} (h : g.Holds P) (imp : ∀ a, P a → Q a) : g.Holds Q :=
  fun d hd a ha => imp a (h d hd a ha)

theorem Registered.flat (h : g.Registered) : g.Flat :=
  fun d hd a ha => Argument.isFlat_of_declared (h.declared d hd a ha)

theorem Flat.plain (h : g.Flat) : g.Plain := fun d hd => (h d hd).plain

theorem Flat.isShared_eq_false (h : g.Flat) (alone : g.twins = []) : g.isShared = false := by
  refine isShared_eq_false_iff.2 ⟨alone, ?_⟩
  have : g.embedded = [] := List.flatMap_eq_nil_iff.2 fun d hd => (h d hd).embedded_eq
  simp [this]

namespace Tidy

theorem changed {R : Definition → Definition → Prop} (h : g.Tidy) (hc : Changed R g g')
    (labels : ∀ d d', R d d' → (∀ l ∈ d.tags, l.IsTag) → ∀ l ∈ d'.tags, l.IsTag) : g'.Tidy where
  unique := hc.ids_eq ▸ h.unique
  uniqueAliases := by
    rw [aliasIds, hc.aliases_eq]
    exact h.uniqueAliases
  apart := by
    rw [aliasIds, hc.aliases_eq, hc.ids_eq]
    exact h.apart
  labels d' hd' := by
    obtain ⟨d, hd, -, hR⟩ := hc.exists_old hd'
    exact labels d d' hR (h.labels d hd)
  alone := hc.twins_eq.trans h.alone

theorem revised {R : Definition → Argument → Argument → Prop} (h : g.Tidy)
    (hc : Revised R g g') : g'.Tidy :=
  h.changed hc fun _ _ hR hl => hR.tags_eq ▸ hl

theorem identified (h : g.Tidy) : g.Identified where
  unique := h.unique
  uniqueAliases := h.uniqueAliases
  apart := h.apart
  twins id hid := by simp [h.alone, Table.names] at hid

/-- A definition is no alias. -/
theorem findAlias?_eq_none (h : g.Tidy) {id : String} (hid : id ∈ g.ids) :
    g.findAlias? id = none :=
  findAlias?_eq_none_iff.2 fun ha => h.apart id ha hid

end Tidy

/-- What holds of revised arguments. -/
theorem Holds.revised {R : Definition → Argument → Argument → Prop} {P Q : Argument → Prop}
    (h : g.Holds P) (hc : Revised R g g') (step : ∀ d a b, P a → R d a b → Q b) : g'.Holds Q := by
  intro d' hd' b hb
  obtain ⟨d, hd, -, hR⟩ := hc.exists_old hd'
  obtain ⟨a, ha, hab⟩ := forall₂_mem_right hR.allArguments hb
  exact step d a b (h d hd a ha) hab

end Graph

end Wiring
