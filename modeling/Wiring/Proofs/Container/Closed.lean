import Mathlib
import Wiring.Proofs.Builder.Compilation
import Wiring.Proofs.Container.Freezing

/-!
# What the passes accept can be frozen

The container of a compiled graph is closed: whatever its plans and aliases name has a plan, and
there are no plans but those that can be reached from the outside.
-/

namespace Wiring

/-- The services that a plan needs at once or has handles of, in collections and embedded plans
too. -/
def ServicePlan.targets (p : ServicePlan) : List String := p.allBindings.flatMap Binding.targets

namespace Container

open Graph

variable {g f : Graph} {c : Container} {lockMode : LockMode} {privateIds : List String}

/-- What plans lead to from the public services and the public aliases. -/
inductive Reachable (c : Container) : String → Prop
  | service {id : String} {p : ServicePlan} :
    c.plan? id = some p → p.isPublic = true → Reachable c id
  | aliased {a : Alias} {id : String} :
    a ∈ c.graph.aliases → a.isPublic = true → c.aliases.get? a.id = some id → Reachable c id
  | step {a b : String} {p : ServicePlan} :
    Reachable c a → c.plan? a = some p → b ∈ p.targets → Reachable c b

/-- The container has one plan for each definition of `f`, in which nothing is left to be resolved
at any depth; what plans and aliases name has a plan, and every plan is reached. -/
structure Closed (f : Graph) (c : Container) : Prop where
  plans : List.Forall₂ (Planned f) f.definitions c.plans
  resolved : ∀ d ∈ f.definitions, ∀ q ∈ Definition.parts d, ∀ a ∈ q.allArguments,
    a.isSettled = true
  named : ∀ p ∈ c.plans, ∀ id ∈ p.targets, ∃ q, c.plan? id = some q
  aliases : ∀ e ∈ c.aliases, ∃ q, c.plan? e.2 = some q
  reached : ∀ p ∈ c.plans, c.Reachable p.id

/-- The plans of a sealed graph name what its references stand for. -/
theorem mem_targets {d : Definition} {p : ServicePlan} {b : String} (hg : g.Sealed)
    (hd : d ∈ g.definitions) (planned : Planned g d p) :
    b ∈ p.targets ↔ b ∈ g.ids ∧ ∃ r ∈ Definition.references d, r.id = b := by
  rw [ServicePlan.targets, reads_plan hg hd Binding.reads_targets (Definition.self_mem_parts d)
    planned, List.mem_flatMap]
  simp only [mem_targets_bound]
  exact ⟨fun ⟨r, hr, same, hb⟩ => ⟨hb, r, hr, same⟩, fun ⟨hb, r, hr, same⟩ => ⟨r, hr, same, hb⟩⟩

theorem Frozen.alias_target (hg : g.Sealed) (h : Frozen g lockMode privateIds c)
    {e : String × String} (he : e ∈ c.aliases) :
    ∃ a ∈ g.aliases, a.id = e.1 ∧ a.target = e.2 := by
  obtain ⟨a, ha, same, resolves⟩ := forall₂_mem_right h.aliases he
  refine ⟨a, ha, same, ?_⟩
  obtain ⟨target, ht, resolves⟩ := bind_eq_ok.1 resolves
  rw [hg.resolveAlias_alias ha] at ht
  rw [← Except.ok.inj ht, if_pos (has_iff.2 (hg.direct a ha).2)] at resolves
  exact pure_eq_ok.1 resolves

theorem Frozen.get?_alias (hg : g.Sealed) (h : Frozen g lockMode privateIds c) {a : Alias}
    (ha : a ∈ g.aliases) : c.aliases.get? a.id = some a.target := by
  obtain ⟨e, he, same, -⟩ := forall₂_mem_left h.aliases ha
  obtain ⟨a', ha', same', target⟩ := h.alias_target hg he
  have names : c.aliases.names = g.aliasIds :=
    (forall₂_map_eq.1 (h.aliases.imp fun _ _ h => h.1)).symm
  have found := Table.get?_of_mem (names ▸ hg.uniqueAliases) he
  have one := findAlias?_of_mem hg.uniqueAliases ha
  rw [same, ← same', findAlias?_of_mem hg.uniqueAliases ha'] at one
  rw [same, found, ← target, Option.some.inj one]

/-- The container of a sealed graph is closed. -/
theorem Frozen.closed (hg : g.Sealed) (h : Frozen g lockMode privateIds c) : Closed g c where
  plans := h.plans
  resolved := hg.settled
  named p hp id hid := by
    obtain ⟨d, hd, planned⟩ := forall₂_mem_right h.plans hp
    obtain ⟨there, -⟩ := (mem_targets hg hd planned).1 hid
    obtain ⟨d', hd'⟩ := exists_find? there
    exact (PlansOf.exists_plan h.plans hd').imp fun _ h => h.1
  aliases e he := by
    obtain ⟨a, ha, -, target⟩ := h.alias_target hg he
    obtain ⟨d', hd'⟩ := exists_find? (hg.direct a ha).2
    exact target ▸ (PlansOf.exists_plan h.plans hd').imp fun _ h => h.1
  reached p hp := by
    obtain ⟨d, hd, planned⟩ := forall₂_mem_right h.plans hp
    rw [planned.id_eq]
    suffices all : ∀ id, g.Reached id → c.Reachable id from all d.id (hg.reached d.id (id_mem_ids hd))
    intro id reached
    clear hd planned
    induction reached with
    | @root id hroot =>
      obtain ⟨d, hd, -, isPublic | ⟨a, ha, isPublic, resolves⟩⟩ := hroot
      · obtain ⟨p, hp, planned⟩ := PlansOf.exists_plan h.plans hd
        exact .service hp (planned.isPublic_eq.trans isPublic)
      · rw [hg.resolveAlias_alias ha] at resolves
        have aliases : c.graph.aliases = g.aliases := by
          rw [← Except.ok.inj (hg.copy_eq.symm.trans h.graph)]
          rfl
        exact .aliased (aliases ▸ ha) isPublic
          ((h.get?_alias hg ha).trans (congrArg some (Except.ok.inj resolves)))
    | @step a b d _ hd leads ih =>
      obtain ⟨p, hp, planned⟩ := PlansOf.exists_plan h.plans hd
      have hmem := (mem_of_find? hd).1
      rcases leads with ⟨r, hr, resolves, has⟩ | ⟨tag, ht, -⟩
      · rw [hg.resolveAlias_ok hmem hr] at resolves
        exact .step ih hp ((mem_targets hg hmem planned).2
          ⟨has_iff.1 has, r, hr, Except.ok.inj resolves⟩)
      · cases hg.settled d hmem d (Definition.self_mem_parts d) _ ht

/-- What the passes accept can be frozen, and the container is closed. -/
theorem exists_closed {rules : List TagRule} (registered : g.Registered)
    (sound : TagIndex.Sound rules) (h : g.runPasses rules = .ok f) (lockMode : LockMode)
    (privateIds : List String) :
    ∃ c, freeze f lockMode privateIds = .ok c ∧ c.Closed f := by
  obtain ⟨index, runs⟩ := runPasses_ok h
  obtain ⟨p, compiled⟩ := compiled_of_runs registered sound runs
  have hf := compiled.embedding.toSealed compiled.isSealed compiled.flat
  obtain ⟨c, frozen⟩ := exists_frozen hf lockMode privateIds
  exact ⟨c, freeze_eq_ok.2 frozen, frozen.closed hf⟩

theorem exists_closed_sample : ∃ f c, sample.runPasses [] = .ok f ∧
    freeze f .thread [] = .ok c ∧ c.Closed f := by
  have accepted : (sample.runPasses []).isOk = true := by cbv
  obtain ⟨f, h⟩ := exists_ok_of_isOk accepted
  obtain ⟨c, frozen, closed⟩ := exists_closed sample_registered TagIndex.sound_nil h .thread []
  exact ⟨f, c, h, frozen, closed⟩

end Container

end Wiring
