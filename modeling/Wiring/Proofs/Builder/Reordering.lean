import Mathlib
import Wiring.Proofs.Builder.Compilation
import Wiring.Proofs.Container.Reordered
import Wiring.Proofs.Graph.Snapshot
import Wiring.Proofs.Pass.Expansion
import Wiring.Proofs.Pass.Rounds
import Wiring.Proofs.Pass.Shuffling

/-!
# Compiling in another order

Registries that hold the same definitions, aliases and parameters in different orders are compiled
alike: the passes can be run on both or on neither, and what they leave differs in order and marks
alone. So do the containers, and nobody can tell one from the other.
-/

namespace Wiring

open Graph Pass TagIndex

variable {g g' g₁ g₂ g₃ b b' p r : Graph} {rules : List TagRule} {index : TagIndex}

/-! ## Priorities -/

/-- No priority among the tags of definitions is NaN. -/
def Graph.Numbered (g : Graph) : Prop := ∀ d ∈ g.definitions, Numeric d

namespace Graph.Numbered

theorem changed {R : Definition → Definition → Prop} (h : g.Numbered) (change : Changed R g g₁)
    (tags : ∀ d d', R d d' → d'.tags = d.tags) : g₁.Numbered := fun d' hd' => by
  obtain ⟨d, hd, -, hR⟩ := change.exists_old hd'
  unfold Numeric
  rw [tags d d' hR]
  exact h d hd

theorem resolveParameters (h : g.Numbered) (registered : g.Registered)
    (run : Build.Gives resolveParameters g () g₁) : g₁.Numbered := by
  obtain ⟨bag, resolved, -, revised⟩ :=
    resolveParameters_spec registered.toTidy registered.flat run
  exact changed (g := { g with parameters := bag }) h revised fun _ _ hR => hR.tags_eq

theorem expandTemplates (h : g.Numbered) (tidy : g.Tidy)
    (run : Build.Gives expandTemplates g () g₁) : g₁.Numbered := fun e he l hl => by
  obtain ⟨d, hd, -, n, expands⟩ := (expandTemplates_gives tidy run).exists_old he
  obtain ⟨d', hd', hl⟩ := expands.exists_tag hd hl
  exact h d' hd' l hl

theorem rebuild {index' : TagIndex} (h : g.Numbered) (numeric : ∀ r ∈ index.rules, r.tag.Numeric)
    (tidy : g.Tidy) (run : Build.Gives index.rebuild g index' g₁) : g₁.Numbered := fun d' hd' => by
  obtain ⟨d, hd, -, tagged⟩ := (rebuild_gives tidy.unique tidy.alone run).1.exists_old hd'
  exact retag_numeric numeric (h d hd) tagged

theorem autowire (h : g.Numbered) (valued : Valued g) (run : Build.Gives autowire g () g₁) :
    g₁.Numbered := by
  obtain ⟨index, -, wired, -⟩ := autowire_spec valued.toTidy valued.flat run
  exact h.changed wired fun _ _ hR => by rw [hR.frame]

theorem resolveAliases (h : g.Numbered) (valued : Valued g)
    (run : Build.Gives resolveAliases g () g₁) : g₁.Numbered := by
  obtain ⟨gs, short, -, resolved⟩ := resolveAliases_spec valued.toTidy valued.declared run
  have numbered : gs.Numbered := fun d hd => h d (short.definitions_eq ▸ hd)
  exact numbered.changed resolved fun _ _ hR => hR.tags_eq

end Graph.Numbered

/-! ## Up to removal -/

theorem begun_shuffled {index' : TagIndex} (h : Shuffled g g')
    (parameters : Bag.Shuffled g.parameters g'.parameters) (registered : g.Registered)
    (numeric : ∀ r ∈ index.rules, r.tag.Numeric) (numbered : g.Numbered)
    (h₁ : Build.Gives resolveParameters g () g₁) (h₂ : Build.Gives expandTemplates g₁ () g₂)
    (h₃ : Build.Gives index.rebuild g₂ index' g₃) :
    ∃ a₁ a₂ index'' a₃, Build.Does resolveParameters g' () a₁ ∧
      Build.Does expandTemplates a₁ () a₂ ∧ Build.Does index.rebuild a₂ index'' a₃ ∧
      Shuffled g₃ a₃ ∧ g₃.Numbered := by
  have valued₁ := Valued.of_parameters registered h₁
  have valued₂ := valued₁.expandTemplates h₂
  have numbered₂ := (numbered.resolveParameters registered h₁).expandTemplates valued₁.toTidy h₂
  obtain ⟨a₁, d₁, s₁⟩ :=
    resolveParameters_shuffled h parameters registered.toTidy registered.flat h₁
  obtain ⟨a₂, d₂, s₂⟩ := expandTemplates_shuffled valued₁.toTidy s₁ h₂
  obtain ⟨index'', a₃, d₃, s₃, -⟩ :=
    rebuild_shuffled s₂ valued₂.toTidy numeric numbered₂ h₃
  exact ⟨a₁, a₂, index'', a₃, d₁, d₂, d₃, s₃, numbered₂.rebuild numeric valued₂.toTidy h₃⟩

theorem baked_shuffled (h : Shuffled g g') (valued : Valued g) (numbered : g.Numbered)
    (h₁ : Build.Gives Pass.autowire g () g₁) (h₂ : Build.Gives resolveAliases g₁ () g₂)
    (h₃ : Build.Gives bakeCollections g₂ () g₃) :
    ∃ a₁ a₂ a₃, Build.Does Pass.autowire g' () a₁ ∧ Build.Does resolveAliases a₁ () a₂ ∧
      Build.Does bakeCollections a₂ () a₃ ∧ Shuffled g₃ a₃ := by
  have valued₁ := valued.autowire h₁
  have valued₂ := valued₁.resolveAliases h₂
  have numbered₂ := (numbered.autowire valued h₁).resolveAliases valued₁ h₂
  obtain ⟨a₁, d₁, s₁⟩ := autowire_shuffled h valued.toTidy valued.flat h₁
  obtain ⟨a₂, d₂, s₂⟩ := resolveAliases_shuffled s₁ valued₁.toTidy valued₁.flat h₂
  obtain ⟨a₃, d₃, s₃⟩ := bakeCollections_shuffled s₂ valued₂.toTidy valued₂.flat numbered₂ h₃
  exact ⟨a₁, a₂, a₃, d₁, d₂, d₃, s₃⟩

namespace Baked

theorem resolves (baked : Baked r b) : b.Resolves := fun d hd x hx =>
  ⟨x.id, resolveAlias_of_free (baked.free d hd x hx)⟩

theorem aliases_resolve (baked : Baked r b) :
    ∀ a ∈ b.aliases, ∃ t, b.resolveAlias a.id = .ok t := fun a ha =>
  ⟨a.target, resolveAlias_of_direct (findAlias?_of_mem baked.uniqueAliases ha) (baked.direct a ha)⟩

theorem stable (baked : Baked r b) (h : Shuffled b b') : b'.Stable :=
  Flat.stable (h.flat baked.flat) (h.tidy baked.toTidy).labels

/-- The checks accept a graph in any order. -/
theorem checks_shuffled (baked : Baked r b) (h : Shuffled b b')
    (accepted : checkDefinitions b = .ok () ∧ checkReferences b = .ok () ∧ checkCycles b = .ok ()) :
    checkDefinitions b' = .ok () ∧ checkReferences b' = .ok () ∧ checkCycles b' = .ok () := by
  have plain := baked.flat.plain
  have plain' := (h.flat baked.flat).plain
  exact ⟨checkDefinitions_shuffled h baked.toTidy plain plain' baked.resolves baked.aliases_resolve
      accepted.1,
    checkReferences_shuffled h baked.toTidy plain plain' accepted.2.1,
    checkCycles_shuffled h baked.toTidy plain plain' accepted.2.2⟩

theorem pruned_shuffled (baked : Baked r b) (h : Shuffled b b')
    (run : Build.Gives removeUnused (published b) () p) :
    ∃ p', Build.Does removeUnused (published b') () p' ∧ Shuffled p p' := by
  have tidy := published_tidy baked.toTidy
  refine removeUnused_shuffled (published_shuffled h) tidy baked.flat.plain (h.flat baked.flat).plain
    (fun d hd x hx => ?_) (fun a ha => ?_) run
  · exact ⟨x.id, resolveAlias_of_free (published_free (baked.free d hd x hx))⟩
  · exact ⟨a.target, resolveAlias_of_direct (findAlias?_of_mem tidy.uniqueAliases ha)
      (published_free (baked.direct a (List.mem_filter.1 ha).1))⟩

end Baked

/-! ## All passes -/

/-- A pass that can be run leads the way for those after it. -/
theorem Goes.job {b : Builtin} {phase : Phase} {rest : List (Builtin × Phase)} {index' : TagIndex}
    (ne : b ≠ .autoconfigure) (does : Build.Does b.job g () g₁)
    (stable : phase = .beforeRemoving → g.Stable ∧ g₁ = g) (goes : Goes rest index g₁ index' g') :
    Goes ((b, phase) :: rest) index g index' g' := by
  refine .cons ?_ stable goes
  rw [Builtin.run_eq ne]
  exact .bind does (.pure index)

/-- The passes that can be run have been run then. -/
theorem Goes.runs {passes : List (Builtin × Phase)} {index' : TagIndex}
    (h : Goes passes index g index' g') : Runs (passes.map (·.1)) index g index' g' := by
  induction h with
  | nil => exact .nil
  | cons does _ _ ih => exact .cons does.gives ih

/-- What the passes make of a registered graph they make of it in any order, up to order and marks. -/
theorem passes_shuffled {f : Graph} {index' : TagIndex} (h : Shuffled g g')
    (parameters : Bag.Shuffled g.parameters g'.parameters) (registered : g.Registered)
    (sound : Sound rules) (numeric : ∀ r ∈ rules, r.tag.Numeric) (numbered : g.Numbered)
    (run : Runs (Builtin.schedule.map (·.1)) { rules } g index' f) :
    ∃ index'' f', Goes (Builtin.schedule.map fun e => (e.1, e.2.1)) { rules } g' index'' f' ∧
      Matched f f' := by
  rcases run with _ | ⟨h₁, _ | ⟨h₂, _ | ⟨h₃, _ | ⟨h₄, _ | ⟨h₅, _ | ⟨h₆, _ | ⟨h₇, _ | ⟨h₈, _ | ⟨h₉,
    _ | ⟨h₁₀, _ | ⟨h₁₁, _ | ⟨h₁₂, last⟩⟩⟩⟩⟩⟩⟩⟩⟩⟩⟩⟩
  cases last
  obtain ⟨j₁, rfl⟩ := Builtin.gives_job h₁ (by decide)
  obtain ⟨j₂, rfl⟩ := Builtin.gives_job h₂ (by decide)
  obtain ⟨j₄, rfl⟩ := Builtin.gives_job h₄ (by decide)
  obtain ⟨j₅, rfl⟩ := Builtin.gives_job h₅ (by decide)
  obtain ⟨j₆, rfl⟩ := Builtin.gives_job h₆ (by decide)
  obtain ⟨j₇, rfl⟩ := Builtin.gives_job h₇ (by decide)
  obtain ⟨j₈, rfl⟩ := Builtin.gives_job h₈ (by decide)
  obtain ⟨j₉, rfl⟩ := Builtin.gives_job h₉ (by decide)
  obtain ⟨j₁₀, rfl⟩ := Builtin.gives_job h₁₀ (by decide)
  obtain ⟨j₁₁, rfl⟩ := Builtin.gives_job h₁₁ (by decide)
  obtain ⟨j₁₂, rfl⟩ := Builtin.gives_job h₁₂ (by decide)
  obtain ⟨a₁, a₂, index₃, a₃, d₁, d₂, d₃, s₃, numbered₃⟩ :=
    begun_shuffled h parameters registered numeric numbered j₁ j₂ h₃
  have start := begun registered sound j₁ j₂ h₃
  obtain ⟨a₄, a₅, a₆, d₄, d₅, d₆, s₆⟩ := baked_shuffled s₃ start.toValued numbered₃ j₄ j₅ j₆
  have done := baked start j₄ j₅ j₆
  obtain ⟨c₁, rfl⟩ := Builtin.gives_validate j₇
  obtain ⟨c₂, rfl⟩ := Builtin.gives_validate j₈
  obtain ⟨c₃, rfl⟩ := Builtin.gives_validate j₉
  obtain rfl := removePrivateAliases_spec j₁₀
  obtain ⟨e₁, e₂, e₃⟩ := done.checks_shuffled s₆ ⟨c₁, c₂, c₃⟩
  obtain ⟨a₁₁, d₁₁, s₁₁⟩ := done.pruned_shuffled s₆ j₁₁
  have stable := done.stable s₆
  -- up to here the other graph goes the same way, so what is left of it is sealed as well
  have goes {rest : List (Builtin × Phase)} {index' : TagIndex} {f : Graph}
      (goes : Goes rest index₃ a₁₁ index' f) :
      Goes ([(.resolveParameters, .beforeOptimization), (.expandTemplates, .beforeOptimization),
        (.autoconfigure, .beforeOptimization), (.autowire, .beforeOptimization),
        (.resolveAliases, .optimize), (.bakeCollections, .optimize),
        (.checkDefinitions, .beforeRemoving), (.checkReferences, .beforeRemoving),
        (.checkCycles, .beforeRemoving), (.removePrivateAliases, .remove),
        (.removeUnused, .remove)] ++ rest) { rules } g' index' f :=
    .job (by decide) d₁ nofun <| .job (by decide) d₂ nofun <| .cons d₃ nofun <|
    .job (by decide) d₄ nofun <| .job (by decide) d₅ nofun <| .job (by decide) d₆ nofun <|
    .job (by decide) (Builtin.validate_does e₁) (fun _ => ⟨stable, rfl⟩) <|
    .job (by decide) (Builtin.validate_does e₂) (fun _ => ⟨stable, rfl⟩) <|
    .job (by decide) (Builtin.validate_does e₃) (fun _ => ⟨stable, rfl⟩) <|
    .job (by decide) (removePrivateAliases_takes a₆) nofun <| .job (by decide) d₁₁ nofun goes
  have before : Runs Builtin.untilRemoval { rules } g' index₃ a₁₁ := (goes .nil).runs
  have pruned := removeUnused_spec (published_tidy done.toTidy) done.flat.plain j₁₁
  obtain ⟨hs, flat, -⟩ := sealed done (checked done.flat.plain c₁ c₂ c₃) pruned
  obtain ⟨hs', -⟩ := sealed_of_runs (h.registered registered) sound before
  obtain ⟨a₁₂, d₁₂, matched⟩ := inlineServices_shuffled s₁₁ hs flat hs' j₁₂
  exact ⟨index₃, a₁₂, goes (.job (by decide) d₁₂ nofun .nil), matched⟩

/-! ## Containers -/

namespace Bag.Shuffled

theorem symm {bag bag' : Bag} (h : Shuffled bag bag') : Shuffled bag' bag where
  unique := (h.raw.map _).nodup_iff.1 h.unique
  raw := h.raw.symm
  resolved := by
    have rel := h.resolved
    revert rel
    generalize bag.resolved = x, bag'.resolved = y
    rintro (⟨unique, perm⟩ | -)
    · exact .some ⟨(perm.map _).nodup_iff.1 unique, perm.symm⟩
    · exact .none

end Bag.Shuffled

namespace Graph

variable {lockMode : LockMode} {c c' : Container}

namespace Shuffled

theorem freshened (h : Shuffled g g') (flat : g.Flat) : Shuffled g.freshened g'.freshened where
  definitions := by
    rw [flat.freshened_definitions, (h.flat flat).freshened_definitions]
    exact h.definitions
  aliases := h.aliases
  twins_eq := rfl

theorem privateIds (h : Shuffled g g') : (Yard.privateIds g).Perm (Yard.privateIds g') :=
  ((h.definitions.filter _).map _).append ((h.aliases.filter _).map _)

theorem numbered (h : Shuffled g g') (numbered : g.Numbered) : g'.Numbered :=
  fun d hd => numbered d (h.mem_iff.1 hd)

end Shuffled

/-- What compiles in one order compiles in the other, to a container of a graph that differs from the
first in order and marks alone. -/
theorem exists_compile_shuffled (h : Shuffled g g')
    (parameters : Bag.Shuffled g.parameters g'.parameters) (registered : g.Registered)
    (sound : Sound rules) (numeric : ∀ r ∈ rules, r.tag.Numeric) (numbered : g.Numbered)
    (compiled : g.compile rules lockMode = .ok c) :
    ∃ c' f f', g'.compile rules lockMode = .ok c' ∧ f.Sealed ∧ f'.Sealed ∧ Matched f f' ∧
      Container.Frozen f lockMode (Yard.privateIds g.freshened) c ∧
      Container.Frozen f' lockMode (Yard.privateIds g'.freshened) c' := by
  obtain ⟨source, f, index, copied, runs, frozen⟩ := compile_ok compiled
  obtain rfl := Except.ok.inj (registered.copy_eq.symm.trans copied)
  have registered' := h.registered registered
  have same := registered.flat.freshened_definitions
  obtain ⟨index', f', goes, matched⟩ :=
    passes_shuffled (h.freshened registered.flat) parameters registered.freshened sound numeric
      (fun d hd => numbered d (same ▸ hd)) runs
  obtain ⟨p, before⟩ := compiled_of_runs registered.freshened sound runs
  have runs' : Runs (Builtin.schedule.map (·.1)) { rules } g'.freshened index' f' := by
    simpa only [List.map_map, Function.comp_def] using goes.runs
  obtain ⟨p', before'⟩ := compiled_of_runs registered'.freshened sound runs'
  have hf := before.embedding.toSealed before.isSealed before.flat
  have hf' := before'.embedding.toSealed before'.isSealed before'.flat
  obtain ⟨c', frozen'⟩ := Container.exists_frozen hf' lockMode (Yard.privateIds g'.freshened)
  exact ⟨c', f, f', compile_does registered'.copy_eq goes (Container.freeze_eq_ok.2 frozen'), hf, hf',
    matched, Container.freeze_eq_ok.1 frozen, frozen'⟩

/-- The small application with its definitions in the opposite order. -/
def backwards : Graph := { sample with definitions := sample.definitions.reverse }

end Graph

end Wiring
