import Mathlib
import Wiring.Proofs.Factory.Signature
import Wiring.Proofs.Pass.Inlining
import Wiring.Proofs.Pass.Preparation

/-!
# What the passes make of a registered graph

The passes up to removal leave a sealed graph, and the last one embeds services in it until no
candidates are left. There is nothing left to do for any of them then: a graph that is sealed and
spent, and in which nothing is left to be embedded, is left by every pass as it is.
-/

namespace Wiring

open Graph Autowire CapabilityIndex TagIndex Pass

variable {g p f : Graph} {rules : List TagRule} {index : TagIndex}

/-- What is spent stays so when services are embedded in others. -/
theorem Graph.Embedding.spent (h : Embedding p g) (hs : p.Sealed) (flat : p.Flat) (spent : p.Spent) :
    g.Spent := by
  have origin : ∀ d ∈ g.definitions,
      ∃ e ∈ p.definitions, Recipe.Revised Argument.Grafted e d := fun d hd =>
    h.grafts d (mem_parts_of_definition hd)
  have narrowed : Narrowed p g := fun d hd => by
    obtain ⟨e, he, hR⟩ := origin d hd
    exact ⟨e, he, hR.id_eq, hR.isAbstract_eq, hR.factory_eq, hR.capabilities_eq⟩
  have slots : ∀ d ∈ g.definitions, ∀ a ∈ d.allArguments, a.isSlot = false := fun d hd a ha => by
    have := (h.toSealed hs flat).settled d hd d (Definition.self_mem_parts d) a ha
    cases a <;> simp_all [Argument.isSettled, Argument.isSlot]
  obtain ⟨index, hi⟩ := ofGraph_succeeds.2 fun d hd _ => spent.provided d hd
  exact {
    frozen := by
      rw [h.parameters_eq]
      exact spent.frozen
    parentless := fun d hd => by
      obtain ⟨e, he, hR⟩ := origin d hd
      exact hR.parent_eq.trans (spent.parentless e he)
    provided := fun d hd => by
      obtain ⟨e, he, hR⟩ := origin d hd
      obtain ⟨vs, hv⟩ := spent.provided e he
      refine ⟨vs, ?_⟩
      rw [hR.frame]
      exact hv
    entries := fun d hd => by
      obtain ⟨e, he, hR⟩ := origin d hd
      obtain ⟨best, hb⟩ := spent.entries e he
      refine ⟨best, ?_⟩
      rw [hR.frame]
      exact hb
    named := fun d hd k hk => by
      obtain ⟨e, he, hR⟩ := origin d hd
      obtain ⟨k', hk', same, -⟩ := forall₂_mem_right hR.keywords hk
      exact same ▸ spent.named e he k' hk'
    fitting := fun d hd => by
      obtain ⟨e, he, hR⟩ := origin d hd
      refine ⟨slots d hd, fun auto parameters hp => ?_⟩
      rw [hR.factory_eq] at hp
      exact Signature.bind_congr hR.length_eq.symm hR.names_eq.symm
        ((spent.fitting e he).bound (hR.autowired_eq ▸ auto) parameters hp)
    filled := fun index' hi' d hd => by
      obtain ⟨e, he, hR⟩ := origin d hd
      refine (spent.filled index hi e he).narrowed hi hi' narrowed (fun name target ht absent => ?_) hR
        (slots d hd)
      refine ⟨target, by rw [resolveAlias_congr h.aliases_eq, ht], ?_⟩
      exact has_eq_false_iff.2 fun there => has_eq_false_iff.1 absent (h.ids_subset there) }

/-- What comes of the registered graph `g`: `p` is left by the passes up to removal, and in `f`
services are embedded until no candidates are left. -/
structure Compiled (g p f : Graph) : Prop where
  visible : g.Visible p
  isSealed : p.Sealed
  flat : p.Flat
  spent : p.Spent
  embedding : Embedding p f
  candidates : Pass.candidates f = []

/-- What is sealed is compiled once services are embedded in it. -/
theorem compiled_of_prepared {index' : TagIndex} (registered : g.Registered) (sound : Sound rules)
    (before : Runs Builtin.untilRemoval { rules } g index p)
    (last : Runs [.inlineServices] index p index' f) : Compiled g p f := by
  obtain ⟨hs, flat, spent, visible⟩ := sealed_of_runs registered sound before
  obtain - | ⟨run, last⟩ := last
  cases last
  obtain ⟨job, -⟩ := Builtin.gives_job run (by decide)
  obtain ⟨embedding, none⟩ := inlineServices_spec hs flat job
  exact ⟨visible, hs, flat, spent, embedding, none⟩

theorem compiled_of_runs (registered : g.Registered) (sound : Sound rules)
    (h : Runs (Builtin.schedule.map (·.1)) { rules } g index f) : ∃ p, Compiled g p f := by
  rw [Builtin.schedule_eq] at h
  obtain ⟨index₁, p, before, last⟩ := h.split
  exact ⟨p, compiled_of_prepared registered sound before last⟩

/-! ## A small application

The store is embedded in the application, and the mailer refers back to it through an alias. -/

/-- A class that is made without arguments. -/
def Factory.simple (name : String) : Factory where
  type := ⟨name, .declared⟩
  lineage := [⟨name, .declared⟩, .root]
  maker := name
  receiver := none
  parameters := []
  hints := .ok []

/-- An application with a store and a mailer. -/
def Graph.sample : Graph where
  definitions := [
    { id := "app", factory := some (.simple "App")
      arguments := [.reference ⟨"store", false, false⟩, .reference ⟨"mail", false, true⟩] },
    { id := "store", factory := some (.simple "Store"), isPublic := false },
    { id := "mail", factory := some (.simple "Mailer"), isPublic := false, isLazy := true
      arguments := [.reference ⟨"main", false, true⟩] }]
  aliases := [⟨"main", "app", true⟩]

theorem Graph.sample_registered : sample.Registered where
  unique := by decide
  uniqueAliases := by decide
  apart := by decide
  labels := by simp [sample]
  alone := rfl
  declared := by simp [Holds, sample, Recipe.allArguments, Argument.isDeclared]

theorem Graph.sample_compiles : ∃ c, sample.compile [] .thread = .ok c :=
  exists_ok_of_isOk (by cbv)

theorem TagIndex.sound_nil : Sound [] := fun _ h => nomatch h

/-! ## Passes with nothing to do -/

section Idle

/-- Validation leaves a graph that it accepts as it is. -/
theorem Builtin.validate_does {check : Graph → Except Failure Unit} (accepted : check g = .ok ()) :
    Build.Does (validate check) g () g :=
  .bind .graph (.check accepted)

section Checks

variable (hg : g.Sealed)

include hg

theorem Graph.Sealed.aliases_resolve : ∀ a ∈ g.aliases, ∃ t, g.resolveAlias a.id = .ok t :=
  fun _ ha => ⟨_, hg.resolveAlias_alias ha⟩

theorem Graph.Sealed.references_resolve :
    ∀ d ∈ g.definitions, ∀ r ∈ Definition.references d, ∃ t, g.resolveAlias r.id = .ok t :=
  fun _ hd r hr => ⟨r.id, hg.resolveAlias_ok hd hr⟩

theorem Graph.Sealed.checkDefinitions_ok (spent : g.Spent) : checkDefinitions g = .ok () := by
  obtain ⟨reached, hr⟩ := reachableIds_succeeds hg.toTidy hg.plain hg.aliases_resolve
    hg.references_resolve
  refine Pass.checkDefinitions_ok.2 ⟨reached, hr, fun d hd => ?_⟩
  exact ⟨spent.parentless d hd, fun _ => hg.made d hd d (Definition.self_mem_parts d),
    fun _ => spent.named d hd, fun _ _ => spent.fitting d hd⟩

theorem Graph.Sealed.checkReferences_ok : checkReferences g = .ok () := by
  refine (Pass.checkReferences_ok hg.plain).2 ⟨fun a ha => ?_, fun d hd _ r hr => ?_⟩
  · obtain ⟨d, hd⟩ := exists_find? (hg.direct a ha).2
    exact checkAlias_ok.2 ⟨a.target, d, resolveAlias_leads (hg.resolveAlias_alias ha), hd,
      fun _ => hg.concrete d (mem_of_find? hd).1⟩
  · refine checkReference_ok.2 ⟨r.id, resolveAlias_leads (hg.resolveAlias_ok hd hr), fun missing => ?_,
      fun d' hd' => hg.concrete d' (mem_of_find? hd').1⟩
    exact (hg.closed d hd r hr).2.resolve_left (find?_eq_none_iff.1 missing)

theorem Graph.Sealed.checkCycles_ok : checkCycles g = .ok () :=
  (validate_ok hg.plain).2 ⟨hg.references_resolve, hg.cycles⟩

end Checks

variable (hg : g.Sealed) (spent : g.Spent) (alone : g.isShared = false)
  (none : candidates g = [])

include hg spent alone none

/-- Every pass but the autoconfiguration does nothing. -/
theorem Builtin.job_does (b : Builtin) : Build.Does b.job g () g := by
  obtain ⟨found, gathered⟩ := gather_succeeds.2 fun d hd _ => spent.entries d hd
  cases b with
  | resolveParameters =>
    obtain ⟨resolved, frozen⟩ := spent.frozen
    exact resolveParameters_does alone hg.settled frozen
  | expandTemplates => exact expandTemplates_does spent.parentless
  | autoconfigure => exact .pure ()
  | autowire =>
    obtain ⟨index, indexed⟩ := ofGraph_succeeds.2 fun d hd _ => spent.provided d hd
    exact autowire_does hg.toTidy hg.plain hg.aliases_resolve hg.references_resolve indexed
      (spent.filled index indexed)
  | resolveAliases =>
    exact resolveAliases_does hg.toTidy alone hg.settled hg.toDirect fun d hd r hr => hg.free hd hr
  | bakeCollections => exact bakeCollections_does alone hg.settled spent.provided gathered
  | checkDefinitions => exact validate_does (hg.checkDefinitions_ok spent)
  | checkReferences => exact validate_does hg.checkReferences_ok
  | checkCycles => exact validate_does hg.checkCycles_ok
  | removePrivateAliases => exact removePrivateAliases_does fun a ha => (hg.direct a ha).1
  | removeUnused =>
    exact removeUnused_does hg.toTidy hg.plain hg.aliases_resolve hg.references_resolve hg.reached
  | inlineServices => exact inlineServices_does hg.plain none

/-- No pass does anything where there are no rules. -/
theorem Builtin.run_does (b : Builtin) (noRules : index.rules = []) :
    ∃ index' : TagIndex, index'.rules = [] ∧ Build.Does (b.run index) g index' g := by
  by_cases auto : b = .autoconfigure
  · subst auto
    obtain ⟨found, gathered⟩ := gather_succeeds.2 fun d hd _ => spent.entries d hd
    refine ⟨_, ?_, rebuild_does noRules (fun d hd _ => spent.provided d hd) gathered⟩
    exact noRules
  · rw [run_eq auto]
    exact ⟨index, noRules, (job_does hg spent alone none b).bind (.pure index)⟩

end Idle

end Wiring
