import Wiring.Pass.Removal
import Wiring.Proofs.Graph.Reach

/-!
# What removal keeps

What is reached from the roots is kept, in its order, and nothing else is.
-/

namespace Wiring.Pass

open Graph

variable {g g' : Graph} {u : Unit}

/-- `g'` is `g` without what is not reached. -/
structure Pruned (g g' : Graph) : Prop where
  frame : g' = { g with definitions := g'.definitions }
  sublist : List.Sublist g'.definitions g.definitions
  mem_iff : ∀ d, d ∈ g'.definitions ↔ d ∈ g.definitions ∧ g.Reached d.id

theorem remove_eq (alone : g.twins = []) (id : String) :
    g.remove id = { g with definitions := g.definitions.filter fun d => !(d.id == id) } := by
  unfold remove
  rw [alone]
  rfl

/-- The definitions that the walk finds are left, and nothing else is changed. -/
theorem removeUnused_eq (alone : g.twins = []) (h : Build.Gives removeUnused g u g') :
    ∃ reached, g.reachableIds = .ok reached ∧
      g' = { g with definitions := g.definitions.filter fun d => decide (d.id ∈ reached) } := by
  obtain ⟨_, _, hg, h⟩ := Build.gives_bind h
  obtain ⟨rfl, rfl⟩ := Build.gives_graph.1 hg
  obtain ⟨reached, _, hc, h⟩ := Build.gives_bind h
  obtain ⟨hr, rfl⟩ := Build.gives_check.1 hc
  have removed := Build.gives_forM
    (fun done g₁ => g₁ = { g with definitions := g.definitions.filter fun d => decide (d.id ∉ done) })
    h (by simp) fun done id rest g₁ g₂ _ inv run => by
      obtain ⟨_, _, hn, run⟩ := Build.gives_bind run
      obtain rfl := Build.gives_note.1 hn
      obtain rfl := Build.gives_change.1 run
      rw [remove_eq (by rw [inv]; exact alone), inv, List.filter_filter]
      congr 2
      funext d
      by_cases hd : d.id ∈ done <;> by_cases e : d.id = id <;> simp [hd, e]
  refine ⟨reached, hr, removed.trans ?_⟩
  congr 1
  refine List.filter_congr fun d hd => ?_
  have listed : d.id ∈ g.ids := id_mem_ids hd
  by_cases kept : d.id ∈ reached <;> simp [listed, kept]

theorem removeUnused_spec (tidy : g.Tidy) (plain : g.Plain)
    (h : Build.Gives removeUnused g u g') : Pruned g g' := by
  obtain ⟨reached, hr, removed⟩ := removeUnused_eq tidy.alone h
  rw [removed]
  refine ⟨rfl, List.filter_sublist, fun d => ?_⟩
  rw [List.mem_filter, decide_eq_true_iff, mem_reachableIds tidy plain hr]

namespace Pruned

variable {id : String} {d : Definition}

theorem ids_subset (h : Pruned g g') : g'.ids ⊆ g.ids := (h.sublist.map _).subset

theorem aliases_eq (h : Pruned g g') : g'.aliases = g.aliases := by rw [h.frame]

theorem tidy (h : Pruned g g') (tidy : g.Tidy) : g'.Tidy where
  unique := (h.sublist.map _).nodup tidy.unique
  uniqueAliases := by
    rw [aliasIds, h.aliases_eq]
    exact tidy.uniqueAliases
  apart id hid hids := by
    rw [aliasIds, h.aliases_eq] at hid
    exact tidy.apart id hid (h.ids_subset hids)
  labels d hd := tidy.labels d ((h.mem_iff d).1 hd).1
  alone := by
    rw [h.frame]
    exact tidy.alone

theorem find?_iff (h : Pruned g g') (tidy : g.Tidy) :
    g'.find? id = some d ↔ g.find? id = some d ∧ g.Reached id := by
  rw [find?_eq_some_iff (h.tidy tidy).unique, find?_eq_some_iff tidy.unique, h.mem_iff]
  constructor
  · rintro ⟨⟨hd, hr⟩, rfl⟩
    exact ⟨⟨hd, rfl⟩, hr⟩
  · rintro ⟨⟨hd, rfl⟩, hr⟩
    exact ⟨⟨hd, hr⟩, rfl⟩

theorem mem_ids (h : Pruned g g') (tidy : g.Tidy) : id ∈ g'.ids ↔ g.Reached id := by
  constructor
  · intro hid
    obtain ⟨d, hd⟩ := exists_find? hid
    exact ((h.find?_iff tidy).1 hd).2
  · intro hr
    obtain ⟨d, hd⟩ := exists_find? (has_iff.1 hr.has)
    exact Graph.mem_ids.2 ⟨d, mem_of_find? ((h.find?_iff tidy).2 ⟨hd, hr⟩)⟩

/-- What is kept is reached from what is kept. -/
theorem reached (h : Pruned g g') (tidy : g.Tidy) (hid : id ∈ g'.ids) : g'.Reached id := by
  have hr := (h.mem_ids tidy).1 hid
  clear hid
  induction hr with
  | @root id hroot =>
    have kept := Reached.root hroot
    obtain ⟨d, hd, concrete, why⟩ := hroot
    refine .root ⟨d, (h.find?_iff tidy).2 ⟨hd, kept⟩, concrete, ?_⟩
    rwa [h.aliases_eq, resolveAlias_congr h.aliases_eq]
  | @step a b d ha hd hb ih =>
    have kept := Reached.step ha hd hb
    refine .step ih ((h.find?_iff tidy).2 ⟨hd, ha⟩) ?_
    rcases hb with ⟨r, hr, hres, -⟩ | ⟨tag, htag, e, he, ne, carried⟩
    · refine .inl ⟨r, hr, ?_, has_iff.2 ((h.mem_ids tidy).2 kept)⟩
      rwa [resolveAlias_congr h.aliases_eq]
    · exact .inr ⟨tag, htag, e, (h.find?_iff tidy).2 ⟨he, kept⟩, ne, carried⟩

end Pruned

/-- Where everything is reached, the pass changes nothing. -/
theorem removeUnused_does (tidy : g.Tidy) (plain : g.Plain)
    (aliases : ∀ a ∈ g.aliases, ∃ t, g.resolveAlias a.id = .ok t)
    (references : ∀ d ∈ g.definitions, ∀ r ∈ Definition.references d,
      ∃ t, g.resolveAlias r.id = .ok t)
    (all : ∀ id ∈ g.ids, g.Reached id) : Build.Does removeUnused g () g := by
  obtain ⟨reached, hr⟩ := reachableIds_succeeds tidy plain aliases references
  refine .bind .graph (.bind (.check hr) ?_)
  have nothing : (g.ids.filter fun id => !reached.contains id) = [] :=
    List.filter_eq_nil_iff.2 fun id hid => by
      simpa using (mem_reachableIds tidy plain hr).2 (all id hid)
  rw [nothing]
  exact .pure ()

end Wiring.Pass
