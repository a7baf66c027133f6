import Mathlib
import Wiring.Proofs.Builder.Compilation
import Wiring.Proofs.Container.Visibility
import Wiring.Proofs.Pass.Exposure

/-!
# What a compilation lets through

With the passes of the library a container shows what its registry shows, templates apart. Passes
of an application may change what is public; but what was private in the registry stays refused.
-/

namespace Wiring

open Graph Pass Container

variable {g : Graph} {c : Container} {lockMode : LockMode} {rules : List TagRule} {id : String}

/-! ## The passes of the library -/

namespace Graph

/-- The passes up to removal show the public services and aliases of a graph, and no templates. -/
theorem exposes_of_prepared {g₀ p : Graph} {index : TagIndex} (keyed : g₀.Keyed)
    (alone : g₀.twins = []) (h : Runs Builtin.untilRemoval { rules } g₀ index p) :
    Exposes g₀ p := by
  rcases h with _ | ⟨h₁, _ | ⟨h₂, _ | ⟨h₃, _ | ⟨h₄, _ | ⟨h₅, _ | ⟨h₆, _ | ⟨h₇, _ | ⟨h₈, _ | ⟨h₉,
    _ | ⟨h₁₀, _ | ⟨h₁₁, last⟩⟩⟩⟩⟩⟩⟩⟩⟩⟩⟩
  cases last
  have start : Stands g₀ g₀ := ⟨rfl, rfl, alone⟩
  have s₁ := keeps_resolveParameters.gives start (Builtin.gives_job h₁ (by decide)).1
  have s₂ := keeps_expandTemplates.gives s₁ (Builtin.gives_job h₂ (by decide)).1
  have s₃ := (TagIndex.keeps_rebuild _).gives s₂ h₃
  have s₄ := (keeps_autowire keyed).gives s₃ (Builtin.gives_job h₄ (by decide)).1
  have s₅ := (keeps_resolveAliases keyed).gives s₄ (Builtin.gives_job h₅ (by decide)).1
  have s₆ := keeps_bakeCollections.gives s₅ (Builtin.gives_job h₆ (by decide)).1
  obtain ⟨-, rfl⟩ := Builtin.gives_validate (Builtin.gives_job h₇ (by decide)).1
  obtain ⟨checked, rfl⟩ := Builtin.gives_validate (Builtin.gives_job h₈ (by decide)).1
  obtain ⟨-, rfl⟩ := Builtin.gives_validate (Builtin.gives_job h₉ (by decide)).1
  obtain rfl := removePrivateAliases_spec (Builtin.gives_job h₁₀ (by decide)).1
  exact s₆.exposes keyed checked (Builtin.gives_job h₁₁ (by decide)).1

/-- All passes together show that, too. -/
theorem exposes_of_runs {g₀ f : Graph} {index : TagIndex} (keyed : g₀.Keyed) (alone : g₀.twins = [])
    (h : Runs (Builtin.schedule.map (·.1)) { rules } g₀ index f) : Exposes g₀ f := by
  rw [Builtin.schedule_eq] at h
  obtain ⟨index₁, p, before, last⟩ := h.split
  obtain - | ⟨run, last⟩ := last
  cases last
  exact (exposes_of_prepared keyed alone before).inlineServices
    (Builtin.gives_job run (by decide)).1

/-- What a compilation makes of a registered graph: a sealed graph that shows what is registered,
services embedded in it, and the container of that. -/
theorem compiled_of_compile (registered : g.Registered) (sound : TagIndex.Sound rules)
    (h : g.compile rules lockMode = .ok c) : ∃ p f, Compiled g.freshened p f ∧
      Exposes g.freshened p ∧ Frozen f lockMode (Yard.privateIds g.freshened) c := by
  obtain ⟨source, f, index, copied, runs, frozen⟩ := compile_ok h
  obtain rfl := Except.ok.inj (registered.copy_eq.symm.trans copied)
  have tidy := registered.freshened.toTidy
  rw [Builtin.schedule_eq] at runs
  obtain ⟨index₁, p, before, last⟩ := runs.split
  exact ⟨p, f, compiled_of_prepared registered.freshened sound before last,
    exposes_of_prepared ⟨tidy.unique, tidy.uniqueAliases, tidy.apart⟩ tidy.alone before,
    freeze_eq_ok.1 frozen⟩

/-- A public service that is no template, or a public alias. -/
def Publishes (g : Graph) (id : String) : Prop :=
  (∃ d ∈ g.definitions, d.id = id ∧ d.isPublic = true ∧ d.isAbstract = false) ∨
    ∃ a ∈ g.aliases, a.id = id ∧ a.isPublic = true

/-- A private definition, a template or not, or a private alias. -/
def Hides (g : Graph) (id : String) : Prop :=
  (∃ d ∈ g.definitions, d.id = id ∧ d.isPublic = false) ∨
    ∃ a ∈ g.aliases, a.id = id ∧ a.isPublic = false

/-- There is a definition of the identifier, and none that is private. -/
def IsPublic (g : Graph) (id : String) : Prop :=
  id ∈ g.ids ∧ ∀ d ∈ g.definitions, d.id = id → d.isPublic = true

theorem mem_privateIds : id ∈ Yard.privateIds g ↔ g.Hides id := by
  simp only [Yard.privateIds, Hides, List.mem_append, List.mem_map, List.mem_filter,
    Bool.not_eq_true']
  refine or_congr ?_ ?_
  all_goals exact exists_congr fun _ => by tauto

section Faces

theorem publishes_iff : g.Publishes id ↔
    (∃ x ∈ g.faces, x.id = id ∧ x.isPublic = true ∧ x.isAbstract = false) ∨
      (id, true) ∈ g.aliasFaces := by
  simp [Publishes, faces, aliasFaces, Recipe.face]

theorem hides_iff : g.Hides id ↔
    (∃ x ∈ g.faces, x.id = id ∧ x.isPublic = false) ∨ (id, false) ∈ g.aliasFaces := by
  simp [Hides, faces, aliasFaces, Recipe.face]

theorem isPublic_iff : g.IsPublic id ↔
    id ∈ g.ids ∧ ∀ x ∈ g.faces, x.id = id → x.isPublic = true := by
  simp [IsPublic, faces, Recipe.face]

variable {g' : Graph} (faces : g'.faces = g.faces) (aliases : g'.aliases = g.aliases)

include faces aliases

theorem hides_congr : g'.Hides id ↔ g.Hides id := by
  rw [hides_iff, hides_iff, faces, aliasFaces, aliases, aliasFaces]

theorem publishes_congr : g'.Publishes id ↔ g.Publishes id := by
  rw [publishes_iff, publishes_iff, faces, aliasFaces, aliases, aliasFaces]

theorem keyed_congr (keyed : g.Keyed) : g'.Keyed := by
  have ids : g'.ids = g.ids := by rw [ids_eq_faces, faces, ids_eq_faces]
  have aliasIds : g'.aliasIds = g.aliasIds := by rw [Graph.aliasIds, aliases, Graph.aliasIds]
  exact ⟨ids ▸ keyed.unique, aliasIds ▸ keyed.uniqueAliases, ids ▸ aliasIds ▸ keyed.apart⟩

end Faces

theorem Keyed.not_hides (keyed : g.Keyed) (h : g.Publishes id) : ¬ g.Hides id := by
  rintro (⟨d, hd, rfl, hidden⟩ | ⟨a, ha, rfl, hidden⟩)
  · rcases h with ⟨e, he, same, shown, -⟩ | ⟨a, ha, same, -⟩
    · obtain rfl := eq_of_id_eq keyed.unique he hd same
      exact nomatch shown.symm.trans hidden
    · exact keyed.apart d.id (same ▸ List.mem_map_of_mem ha) (id_mem_ids hd)
  · rcases h with ⟨e, he, same, -⟩ | ⟨b, hb, same, shown⟩
    · exact keyed.apart a.id (List.mem_map_of_mem ha) (same ▸ id_mem_ids he)
    · obtain rfl := List.inj_on_of_nodup_map keyed.uniqueAliases hb ha same
      exact nomatch shown.symm.trans hidden

variable {f : Graph}

theorem Exposes.mem_aliasIds (h : Exposes g f) : id ∈ f.aliasIds ↔ (id, true) ∈ g.aliasFaces := by
  rw [aliasIds_eq_faces, h.aliasFaces, List.mem_map]
  constructor
  · rintro ⟨⟨_, _⟩, hx, rfl⟩
    obtain ⟨hx, rfl⟩ := List.mem_filter.1 hx
    exact hx
  · exact fun hx => ⟨_, List.mem_filter.2 ⟨hx, rfl⟩, rfl⟩

/-- What is private in a frozen graph was private before. -/
theorem Exposes.mem_privateIds (h : Exposes g f) (frozen : Frozen f lockMode (Yard.privateIds g) c) :
    id ∈ c.privateIds ↔ g.Hides id := by
  rw [frozen.mem_private, Graph.mem_privateIds]
  refine ⟨fun hid => hid.elim (fun hidden => hidden) ?_, .inl⟩
  rintro ⟨d, hd, rfl, hidden⟩
  exact hides_iff.2 (.inl ⟨d.face, h.faces (face_mem hd), rfl, hidden⟩)

/-- What is left of a graph can be fetched if and only if it was published. -/
theorem Exposes.mem_serviceIds (h : Exposes g f) (keyed : g.Keyed)
    (frozen : Frozen f lockMode (Yard.privateIds g) c) : id ∈ c.serviceIds ↔ g.Publishes id := by
  rw [frozen.mem_serviceIds, h.mem_privateIds frozen, h.mem_aliasIds]
  constructor
  · rintro (⟨there, shown⟩ | aliased)
    · obtain ⟨d, hd, rfl⟩ := mem_ids.1 there
      have known := h.faces (face_mem hd)
      refine publishes_iff.2 (.inl ⟨d.face, known, rfl, ?_, h.concrete d hd⟩)
      by_contra hidden
      exact shown (hides_iff.2 (.inl ⟨d.face, known, rfl, by simpa using hidden⟩))
    · exact publishes_iff.2 (.inr aliased)
  · intro published
    refine (publishes_iff.1 published).imp_left ?_
    rintro ⟨x, hx, rfl, isPublic, concrete⟩
    refine ⟨?_, keyed.not_hides published⟩
    rw [ids_eq_faces]
    exact List.mem_map_of_mem (h.kept x hx isPublic concrete)

/-- With the passes of the library, a container accepts the public services of its registry, unless
they are templates, and the public aliases. Of all others it refuses what is private as such, and
does not find the rest. -/
theorem compile_visibility (keyed : g.Keyed) (h : g.compile rules lockMode = .ok c) :
    c.serviceIds.Pairwise (· < ·) ∧ ∀ id,
      (id ∈ c.serviceIds ↔ g.Publishes id) ∧
      (g.Publishes id → c.Accepts id) ∧
      (¬ g.Publishes id → g.Hides id → c.Refuses id (.access (.str id))) ∧
      (¬ g.Publishes id → ¬ g.Hides id → c.Refuses id (.notFound (.str id) c.serviceIds)) := by
  obtain ⟨source, f, index, copied, runs, frozen⟩ := compile_ok h
  obtain ⟨faces, aliases, alone⟩ := copy_shows copied
  have keyed := keyed_congr faces aliases keyed
  have exposes := exposes_of_runs keyed alone runs
  have frozen := freeze_eq_ok.1 frozen
  have apart : ∀ id ∈ f.aliasIds, id ∉ f.ids := fun id hid there => by
    have aliased := exposes.mem_aliasIds.1 hid
    obtain ⟨d, hd, rfl⟩ := mem_ids.1 there
    refine keyed.apart d.id ?_ ?_
    · rw [aliasIds_eq_faces]
      exact List.mem_map_of_mem aliased
    · rw [ids_eq_faces]
      exact List.mem_map_of_mem (exposes.faces (face_mem hd))
  refine ⟨frozen.serviceIds_sorted exposes.unique ?_ apart, fun id => ?_⟩
  · rw [aliasIds_eq_faces, exposes.aliasFaces]
    exact (List.filter_sublist.map _).nodup (source.aliasIds_eq_faces ▸ keyed.uniqueAliases)
  rw [← publishes_congr faces aliases, ← hides_congr faces aliases]
  have listed : id ∈ c.serviceIds ↔ source.Publishes id := exposes.mem_serviceIds keyed frozen
  have free (unpublished : ¬ source.Publishes id) : id ∉ f.aliasIds := fun hid =>
    unpublished (publishes_iff.2 (.inr (exposes.mem_aliasIds.1 hid)))
  refine ⟨listed, fun h => frozen.accepts (listed.2 h), fun h hidden => ?_, fun h shown => ?_⟩
  · exact frozen.refuses_private (free h) ((exposes.mem_privateIds frozen).2 hidden)
  · have unhidden : id ∉ c.privateIds := fun hid => shown ((exposes.mem_privateIds frozen).1 hid)
    refine frozen.refuses_unknown (free h) unhidden fun there => ?_
    exact h (listed.1 (frozen.mem_serviceIds.2 (.inl ⟨there, unhidden⟩)))

theorem compile_visibility_sample : ∃ c, sample.compile [] .thread = .ok c ∧
    c.serviceIds.Pairwise (· < ·) ∧ ∀ id,
      (id ∈ c.serviceIds ↔ sample.Publishes id) ∧
      (sample.Publishes id → c.Accepts id) ∧
      (¬ sample.Publishes id → sample.Hides id → c.Refuses id (.access (.str id))) ∧
      (¬ sample.Publishes id → ¬ sample.Hides id →
        c.Refuses id (.notFound (.str id) c.serviceIds)) := by
  have keyed : sample.Keyed := ⟨by decide, by decide, by decide⟩
  obtain ⟨c, h⟩ := sample_compiles
  exact ⟨c, h, compile_visibility keyed h⟩

end Graph

/-! ## Passes of an application -/

namespace Yard

variable {σ γ π ρ : Type} {yard : Yard σ γ π ρ} {rounds : Nat} {s s' : σ}

/-- A compilation boots the providers, copies the registry and freezes what the passes make of it. -/
theorem compile_ok (h : yard.compile rounds s = .ok c s') :
    ∃ s₁ source f lockMode, yard.bootProviders rounds s = .ok () s₁ ∧
      (yard.graph (yard.builder s₁).registry s₁).copy = .ok source ∧
      Frozen f lockMode (privateIds source) c := by
  have check_ok {α : Type} {x : Except Failure α} {a : α} {t t' : σ} :
      (check x : Work σ α) t = .ok a t' ↔ x = .ok a ∧ t = t' := by
    cases x <;> simp [check]
  unfold compile at h
  simp only [Run.bind_ok, Run.get_bind, check_ok] at h
  obtain ⟨_, s₁, booted, source, _, ⟨copied, rfl⟩, working, s₂, -, final, s₃, -, container, _,
    ⟨frozen, rfl⟩, _, _, -, rest⟩ := h
  obtain ⟨rfl, -⟩ := Run.pure_ok.1 rest
  exact ⟨s₁, source, _, _, booted, copied, freeze_eq_ok.1 frozen⟩

/-- Whatever passes there are, a container accepts the aliases of its final graph, and the services
that are public there and not private in the registry. So it accepts what is public in the final
graph, and nothing else, if that graph has made no private service public and has no private alias.
All others are refused. -/
theorem compile_accepts (h : yard.compile rounds s = .ok c s') :
    ∃ s₁, yard.bootProviders rounds s = .ok () s₁ ∧ ∀ id,
      (c.Accepts id ↔ id ∈ c.graph.aliasIds ∨
        c.graph.IsPublic id ∧ ¬ (yard.graph (yard.builder s₁).registry s₁).Hides id) ∧
      ((c.graph.IsPublic id → ¬ (yard.graph (yard.builder s₁).registry s₁).Hides id) →
        (∀ a ∈ c.graph.aliases, a.id = id → a.isPublic = true) →
        (c.Accepts id ↔
          c.graph.IsPublic id ∨ ∃ a ∈ c.graph.aliases, a.id = id ∧ a.isPublic = true)) ∧
      (¬ c.Accepts id →
        c.Refuses id (.access (.str id)) ∨ c.Refuses id (.notFound (.str id) c.serviceIds)) := by
  obtain ⟨s₁, source, f, lockMode, booted, copied, frozen⟩ := compile_ok h
  refine ⟨s₁, booted, fun id => ?_⟩
  generalize yard.graph (yard.builder s₁).registry s₁ = registry at copied
  obtain ⟨faces, aliases, -⟩ := copy_shows copied
  obtain ⟨faces', aliases', -⟩ := copy_shows frozen.graph
  have hidden : id ∈ c.privateIds ↔
      registry.Hides id ∨ ∃ x ∈ f.faces, x.id = id ∧ x.isPublic = false := by
    rw [frozen.mem_private, Graph.mem_privateIds, hides_congr faces aliases]
    simp [Graph.faces, Recipe.face]
  have isPublic : c.graph.IsPublic id ↔
      id ∈ f.ids ∧ ¬ ∃ x ∈ f.faces, x.id = id ∧ x.isPublic = false := by
    rw [isPublic_iff, faces', ids_eq_faces, faces', ids_eq_faces]
    simp
  have aliased : id ∈ c.graph.aliasIds ↔ id ∈ f.aliasIds := by rw [aliasIds, aliases', aliasIds]
  have listed : c.Accepts id ↔ id ∈ c.graph.aliasIds ∨ c.graph.IsPublic id ∧ ¬ registry.Hides id := by
    have : c.Accepts id ↔ id ∈ c.serviceIds := ⟨fun h => h.listed, frozen.accepts⟩
    rw [this, frozen.mem_serviceIds, hidden, isPublic, aliased, or_comm]
    refine or_congr_right ?_
    constructor
    · rintro ⟨there, known⟩
      exact ⟨⟨there, fun hid => known (.inr hid)⟩, fun hid => known (.inl hid)⟩
    · rintro ⟨⟨there, shown⟩, free⟩
      exact ⟨there, fun hid => hid.elim free shown⟩
  refine ⟨listed, fun kept shown => ?_, fun refused => ?_⟩
  · rw [listed, or_comm]
    refine or_congr ⟨fun h => h.1, fun h => ⟨h, kept h⟩⟩ ⟨fun hid => ?_, ?_⟩
    · obtain ⟨a, ha, same⟩ := List.mem_map.1 hid
      exact ⟨a, ha, same, shown a ha same⟩
    · rintro ⟨a, ha, rfl, -⟩
      exact List.mem_map_of_mem ha
  · have free : id ∉ f.aliasIds := fun hid => refused (listed.2 (.inl (aliased.2 hid)))
    by_cases secret : id ∈ c.privateIds
    · exact .inl (frozen.refuses_private free secret)
    · refine .inr (frozen.refuses_unknown free secret fun there => refused (frozen.accepts ?_))
      exact frozen.mem_serviceIds.2 (.inl ⟨there, secret⟩)

theorem compile_accepts_sample : ∃ c w,
    Workshop.yard.compile 1 (Workshop.start sample []) = .ok c w ∧
    ∃ s₁, Workshop.yard.bootProviders 1 (Workshop.start sample []) = .ok () s₁ ∧ ∀ id,
      (c.Accepts id ↔ id ∈ c.graph.aliasIds ∨ c.graph.IsPublic id ∧
        ¬ (Workshop.yard.graph (Workshop.yard.builder s₁).registry s₁).Hides id) ∧
      ((c.graph.IsPublic id →
          ¬ (Workshop.yard.graph (Workshop.yard.builder s₁).registry s₁).Hides id) →
        (∀ a ∈ c.graph.aliases, a.id = id → a.isPublic = true) →
        (c.Accepts id ↔
          c.graph.IsPublic id ∨ ∃ a ∈ c.graph.aliases, a.id = id ∧ a.isPublic = true)) ∧
      (¬ c.Accepts id →
        c.Refuses id (.access (.str id)) ∨ c.Refuses id (.notFound (.str id) c.serviceIds)) := by
  have accepted :
      ((Workshop.yard.compile 1).run' (Workshop.start sample [])).isSome = true := by cbv
  cases h : Workshop.yard.compile 1 (Workshop.start sample []) with
  | error e w =>
    simp [EStateM.run', EStateM.run, h] at accepted
  | ok c w => exact ⟨c, w, rfl, compile_accepts h⟩

end Yard

end Wiring
