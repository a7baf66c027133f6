import Wiring.Proofs.Builder.Workshop
import Wiring.Proofs.Graph.Shuffled
import Wiring.Proofs.Parameter.Resolution
import Wiring.Proofs.Pass.Aliases
import Wiring.Proofs.Pass.Autowiring
import Wiring.Proofs.Pass.Checks
import Wiring.Proofs.Pass.Collections
import Wiring.Proofs.Pass.Parameters
import Wiring.Proofs.Pass.Removal
import Wiring.Proofs.Tag.Autoconfiguration

/-!
# Passes on graphs in another order

What a pass makes of a graph it makes of the graph in any other order, up to that order. Each time it
is enough that the pass can be run on the second graph: what comes of it is told by what the pass
does to each definition and alias.
-/

namespace Wiring.Pass

open Graph TagIndex Autowire

variable {g g' g₁ : Graph}

/-! ## Parameters -/

theorem resolveParameters_shuffled (h : Shuffled g g')
    (parameters : Bag.Shuffled g.parameters g'.parameters) (tidy : g.Tidy) (flat : g.Flat)
    (run : Build.Gives resolveParameters g () g₁) :
    ∃ g₁', Build.Does resolveParameters g' () g₁' ∧ Shuffled g₁ g₁' := by
  obtain ⟨_, _, hf, run⟩ := Build.gives_bind run
  obtain ⟨_, _, hg, hf⟩ := Build.gives_bind hf
  obtain ⟨rfl, rfl⟩ := Build.gives_graph.1 hg
  obtain ⟨⟨bag, resolved⟩, _, hc, hf⟩ := Build.gives_bind hf
  obtain ⟨resolves, rfl⟩ := Build.gives_check.1 hc
  obtain ⟨_, _, hb, hf⟩ := Build.gives_bind hf
  obtain rfl := Build.gives_change.1 hb
  obtain ⟨rfl, rfl⟩ := Build.gives_pure.1 hf
  obtain ⟨bag', resolved', resolves', same⟩ := parameters.resolveAll resolves
  have rules (service : String) : parameterRule resolved' service = parameterRule resolved service := by
    funext a
    cases a <;> simp only [parameterRule, same]
  have frozen : Shuffled { g with parameters := bag } { g' with parameters := bag' } :=
    ⟨h.definitions, h.aliases, h.twins_eq⟩
  obtain ⟨g₁', revised, shuffled⟩ := frozen.reviseAll flat tidy.alone (fun d _ => rules d.id)
    (Build.gives_changeOrFail.1 run)
  refine ⟨g₁', ?_, shuffled⟩
  exact .bind (.bind .graph (.bind (.check resolves') (.bind (.change rfl) (.pure resolved'))))
    (.changeOrFail revised)

/-! ## Autowiring -/

section Autowiring

variable {index index' : CapabilityIndex} {g₁' : Graph} {id : String}

/-- What is reached when autowiring is done in one order is reached in the other. -/
theorem Autowired.reached (h : Shuffled g g') (tidy : g.Tidy) (agrees : index.Agrees index')
    (wired : Autowired g index g₁) (wired' : Autowired g' index' g₁')
    (reached : g₁'.Reached id) : g₁.Reached id := by
  have chosen := chosen_of_agrees (h.resolveAlias_eq tidy) h.has_eq agrees
  have kept := wired.changed.wired
  have kept' := wired'.changed.wired
  induction reached with
  | root root =>
    refine .root ((kept.isRoot_iff Wired.visibility).2 ((h.isRoot_iff tidy).1 ?_))
    exact (kept'.isRoot_iff Wired.visibility).1 root
  | step ha hd leads ih =>
    obtain ⟨d₀, hd₀, filled', -⟩ := wired'.changed.find?_old hd
    rw [h.find?_eq tidy] at hd₀
    obtain ⟨d₁, hd₁, filled, -⟩ := wired.changed.find?_new hd₀
    obtain rfl := (mem_of_find? hd₀).2
    obtain rfl := ((filled ih).wires.follows chosen).unique (filled' ha).wires
    refine .step ih hd₁ ((kept.leadsTo_iff Wired.tagging).2 ((h.leadsTo_iff tidy).1 ?_))
    exact (kept'.leadsTo_iff Wired.tagging).1 leads

/-- The pass succeeds where each definition that is reached can be filled. -/
theorem autowire_fills {P : String → Prop} (tidy : g.Tidy) (flat : g.Flat)
    (indexed : CapabilityIndex.ofGraph g = .ok index)
    (aliases : ∀ a ∈ g.aliases, a.isPublic = true → ∃ t, g.resolveAlias a.id = .ok t)
    (roots : ∀ id, g.IsRoot id → P id)
    (each : ∀ d ∈ g.definitions, P d.id → ∃ d', Visited g index d d' ∧ ∀ b, g.LeadsTo d' b → P b) :
    ∃ g', Build.Does autowire g () g' := by
  obtain ⟨ids, hr⟩ := rootIds_succeeds.2 aliases
  have root (id : String) (hid : id ∈ ids) : P id ∧ g.has id = true :=
    have hid := (mem_rootIds tidy.unique hr).1 hid
    ⟨roots id hid, hid.has⟩
  obtain ⟨out, -, g', walk, -⟩ : ∃ out queue g', Build.Does
      (Walk.breadthFirst (autowireVisit index) g.definitions.length ids []) g out g' ∧
      WiredWhere (· ∈ out) index g g' ∧ ∀ x ∈ queue, P x ∧ g.has x = true :=
    Walk.exists_breadthFirst
      (fun g₁ queue visited => WiredWhere (· ∈ visited) index g g₁ ∧
        ∀ x ∈ queue, P x ∧ g.has x = true) ⟨.start g, root⟩
      fun g₁ queue visited id rest ⟨inv, hq⟩ e => by
        obtain ⟨hid, new, hrest⟩ := Walk.Travels.mem_of_dropWhile_cons e
        obtain ⟨hP, there⟩ := hq id hid
        obtain ⟨d, hd⟩ := exists_find? (has_iff.1 there)
        obtain ⟨hmem, rfl⟩ := mem_of_find? hd
        obtain ⟨d', filled, onward⟩ := each d hmem hP
        obtain ⟨found, g₂, does, hf⟩ := WiredWhere.visit_does tidy flat inv new hd filled
        refine ⟨found, g₂, does, WiredWhere.visit tidy flat inv new does.gives, fun x hx => ?_⟩
        rcases List.mem_append.1 hx with hx | hx
        · exact hq x (hrest x hx)
        · exact ⟨onward x ((hf x).1 hx), ((hf x).1 hx).has⟩
  exact ⟨g', .bind .graph (.bind (.check indexed) (.bind (.check hr) (.discard walk)))⟩

theorem autowire_shuffled (h : Shuffled g g') (tidy : g.Tidy) (flat : g.Flat)
    (run : Build.Gives autowire g () g₁) :
    ∃ g₁', Build.Does autowire g' () g₁' ∧ Shuffled g₁ g₁' := by
  obtain ⟨index, hi, wired⟩ := autowire_gives tidy flat run
  obtain ⟨index', hi', agrees⟩ := CapabilityIndex.ofGraph_shuffled h hi
  have chosen := chosen_of_agrees (h.resolveAlias_eq tidy) h.has_eq agrees
  have kept := wired.changed.wired
  have filled {d d' : Definition} (h₀ : Visited g index d d') : Visited g' index' d d' :=
    ⟨h₀.wires.follows chosen, fun r hr => h.resolveAlias_eq tidy ▸ h₀.leads r hr⟩
  obtain ⟨g₁', does⟩ := autowire_fills (P := g₁.Reached) (h.tidy tidy) (h.flat flat) hi'
    (fun a ha isPublic => h.resolveAlias_eq tidy ▸ wired.aliases a (h.aliases.mem_iff.2 ha) isPublic)
    (fun id root => .root ((kept.isRoot_iff Wired.visibility).2 ((h.isRoot_iff tidy).1 root)))
    fun d hd reached => by
      have hd := find?_of_mem tidy.unique (h.mem_iff.1 hd)
      obtain ⟨d', hd', done, -⟩ := wired.changed.find?_new hd
      refine ⟨d', filled (done reached), fun b leads => .step reached hd' ?_⟩
      exact (kept.leadsTo_iff Wired.tagging).2 ((h.leadsTo_iff tidy).1 leads)
  obtain ⟨index'', hi'', wired'⟩ := autowire_gives (h.tidy tidy) (h.flat flat) does.gives
  obtain rfl := Except.ok.inj (hi'.symm.trans hi'')
  have same (id : String) : g₁'.Reached id ↔ g₁.Reached id :=
    ⟨wired.reached h tidy agrees wired', wired'.reached h.symm (h.tidy tidy) agrees.symm wired⟩
  obtain ⟨g₂, changed, shuffled⟩ := h.changed wired.changed
  suffices one : g₁' = g₂ from ⟨g₁', does, one ▸ shuffled⟩
  refine wired'.changed.unique changed fun d hd e e' ⟨he, other⟩ ⟨he', other'⟩ => ?_
  by_cases reached : g₁.Reached d.id
  · exact (he ((same _).2 reached)).wires.unique (filled (he' reached)).wires
  · rw [other fun h => reached ((same _).1 h), other' reached]

end Autowiring

/-! ## Aliases -/

theorem shortenAliases_shuffled (h : Shuffled g g') (tidy : g.Tidy)
    (run : Build.Gives (g.aliases.forM shortenAlias) g () g₁) :
    ∃ g₁', Build.Does (g'.aliases.forM shortenAlias) g' () g₁' ∧ Shuffled g₁ g₁' := by
  have tidy' := h.tidy tidy
  have movable : ∀ a ∈ g.aliases, Movable g a := (Build.gives_forM
    (fun done g₁ => Shortened g g₁ ∧ ∀ a ∈ done, Movable g a) run ⟨.refl g, by simp⟩
    fun done a rest g₁ g₂ split ⟨inv, movable⟩ run => by
      refine ⟨(shortenAlias_spec tidy.identified inv (by simp [split]) run).1, fun b hb => ?_⟩
      rcases List.mem_append.1 hb with hb | hb
      · exact movable b hb
      · exact List.mem_singleton.1 hb ▸ movable_of_shortenAlias inv run).2
  obtain ⟨g₁', does, -⟩ : ∃ g₁', Build.Does (g'.aliases.forM shortenAlias) g' () g₁' ∧
      Shortened g' g₁' :=
    Build.Does.exists_forM _ (fun _ g₁ => Shortened g' g₁) (.refl g') fun done a rest g₁ split inv => by
      have ha : a ∈ g'.aliases := by simp [split]
      have movable : Movable g' a := by
        obtain ⟨t, ht, named⟩ := movable a (h.aliases.mem_iff.2 ha)
        exact ⟨t, by rw [h.resolveAlias_eq tidy, ht], named⟩
      obtain ⟨g₂, does⟩ := shortenAlias_does inv (List.mem_map_of_mem ha) movable
      exact ⟨g₂, does, (shortenAlias_spec tidy'.identified inv ha does.gives).1⟩
  refine ⟨g₁', does, ?_⟩
  obtain ⟨short, direct⟩ := shortenAliases_spec tidy.identified run
  obtain ⟨short', direct'⟩ := shortenAliases_spec tidy'.identified does.gives
  obtain ⟨moved, hmoved, perm⟩ := forall₂_perm (short.moved direct) h.aliases
  have same : g₁'.aliases = moved := by
    rw [← List.forall₂_eq_eq_eq]
    refine (forall₂_comp (short'.moved direct').flip hmoved).imp ?_
    rintro b b' ⟨a, ⟨hb, leads⟩, hb', leads'⟩
    rw [hb, hb', leads'.unique ((h.leads_iff tidy).1 leads)]
  refine ⟨?_, same ▸ perm, ?_⟩
  · rw [short.definitions_eq, short'.definitions_eq]
    exact h.definitions
  · rw [short.twins_eq, short'.twins_eq]
    exact h.twins_eq

theorem resolveAliases_shuffled (h : Shuffled g g') (tidy : g.Tidy) (flat : g.Flat)
    (run : Build.Gives resolveAliases g () g₁) :
    ∃ g₁', Build.Does resolveAliases g' () g₁' ∧ Shuffled g₁ g₁' := by
  obtain ⟨_, _, hg, run⟩ := Build.gives_bind run
  obtain ⟨rfl, rfl⟩ := Build.gives_graph.1 hg
  obtain ⟨_, s, hs, run⟩ := Build.gives_bind run
  obtain ⟨s', does, shuffled⟩ := shortenAliases_shuffled h tidy hs
  have short := (shortenAliases_spec tidy.identified hs).1
  have tidyₛ := short.tidy tidy
  have rules : aliasRule s' = aliasRule s := by
    funext a
    cases a <;> simp only [aliasRule, shuffled.resolveAlias_eq tidyₛ]
  obtain ⟨g₁', revised, shuffled'⟩ := shuffled.reviseAll
    (fun d hd => flat d (short.definitions_eq ▸ hd)) tidyₛ.alone (fun _ _ => rules)
    (Build.gives_changeOrFail.1 run)
  exact ⟨g₁', .bind .graph (.bind does (.changeOrFail revised)), shuffled'⟩

theorem published_shuffled (h : Shuffled g g') : Shuffled (published g) (published g') :=
  ⟨h.definitions, h.aliases.filter _, h.twins_eq⟩

/-! ## Collections -/

theorem bakeCollections_shuffled (h : Shuffled g g') (tidy : g.Tidy) (flat : g.Flat)
    (numbers : ∀ d ∈ g.definitions, Numeric d) (run : Build.Gives bakeCollections g () g₁) :
    ∃ g₁', Build.Does bakeCollections g' () g₁' ∧ Shuffled g₁ g₁' := by
  obtain ⟨index, g₂, hi, baked⟩ := Build.gives_bind run
  obtain rfl := rebuild_of_no_rules rfl hi
  have numeric : ∀ r ∈ TagIndex.rules {}, r.tag.Numeric := fun _ hr => nomatch hr
  obtain ⟨index', g₂', does, shuffled, same⟩ := rebuild_shuffled h tidy numeric numbers hi
  have rules (consumer : String) : collectionRule index' consumer = collectionRule index consumer := by
    funext a
    cases a <;> simp only [collectionRule, same]
  obtain ⟨g₁', revised, shuffled'⟩ := shuffled.reviseAll flat tidy.alone (fun d _ => rules d.id)
    (Build.gives_changeOrFail.1 baked)
  exact ⟨g₁', .bind does (.changeOrFail revised), shuffled'⟩

/-! ## Checks -/

section Checks

variable (h : Shuffled g g') (tidy : g.Tidy)

include h tidy

theorem reachableIds_shuffled (plain : g.Plain) (plain' : g'.Plain) (resolves : g.Resolves)
    (aliases : ∀ a ∈ g.aliases, ∃ t, g.resolveAlias a.id = .ok t) {reached : List String}
    (run : g.reachableIds = .ok reached) :
    ∃ reached', g'.reachableIds = .ok reached' ∧ ∀ id, id ∈ reached' ↔ id ∈ reached := by
  obtain ⟨reached', run'⟩ := reachableIds_succeeds (h.tidy tidy) plain'
    (fun a ha => by
      obtain ⟨t, ht⟩ := aliases a (h.aliases.mem_iff.2 ha)
      exact ⟨t, by rw [h.resolveAlias_eq tidy, ht]⟩)
    fun d hd r hr => by
      obtain ⟨t, ht⟩ := resolves d (h.mem_iff.1 hd) r hr
      exact ⟨t, by rw [h.resolveAlias_eq tidy, ht]⟩
  refine ⟨reached', run', fun id => ?_⟩
  rw [mem_reachableIds (h.tidy tidy) plain' run', mem_reachableIds tidy plain run,
    h.reached_iff tidy]

theorem checkDefinitions_shuffled (plain : g.Plain) (plain' : g'.Plain) (resolves : g.Resolves)
    (aliases : ∀ a ∈ g.aliases, ∃ t, g.resolveAlias a.id = .ok t)
    (accepted : checkDefinitions g = .ok ()) : checkDefinitions g' = .ok () := by
  obtain ⟨reached, hr, constructible⟩ := checkDefinitions_ok.1 accepted
  obtain ⟨reached', hr', same⟩ := reachableIds_shuffled h tidy plain plain' resolves aliases hr
  refine checkDefinitions_ok.2 ⟨reached', hr', fun d hd => ?_⟩
  have hd := constructible d (h.mem_iff.1 hd)
  exact ⟨hd.parentless, hd.made, hd.named, fun concrete hid => hd.fitting concrete ((same _).1 hid)⟩

theorem checkReferences_shuffled (plain : g.Plain) (plain' : g'.Plain)
    (accepted : checkReferences g = .ok ()) : checkReferences g' = .ok () := by
  obtain ⟨aliases, references⟩ := (checkReferences_ok plain).1 accepted
  refine (checkReferences_ok plain').2 ⟨fun a ha => ?_, fun d hd concrete r hr => ?_⟩
  · have accepted := checkAlias_ok.1 (aliases a (h.aliases.mem_iff.2 ha))
    rw [checkAlias_ok]
    simpa only [h.leads_iff tidy, h.find?_eq tidy] using accepted
  · have accepted := checkReference_ok.1 (references d (h.mem_iff.1 hd) concrete r hr)
    rw [checkReference_ok]
    simpa only [h.leads_iff tidy, h.find?_eq tidy] using accepted

theorem checkCycles_shuffled (plain : g.Plain) (plain' : g'.Plain)
    (accepted : checkCycles g = .ok ()) : checkCycles g' = .ok () := by
  obtain ⟨resolves, lazily⟩ := (validate_ok plain).1 accepted
  have arcs (isLazy : Bool) (a b : String) : g'.Arc isLazy a b ↔ g.Arc isLazy a b := by
    unfold Arc
    rw [h.find?_eq tidy, h.resolveAlias_eq tidy]
  have depends : g'.Depends = g.Depends := by
    funext a b
    exact propext (exists_congr fun isLazy => arcs isLazy a b)
  refine (validate_ok plain').2 ⟨fun d hd r hr => ?_, fun a b arc => ?_⟩
  · rw [h.resolveAlias_eq tidy]
    exact resolves d (h.mem_iff.1 hd) r hr
  · rw [depends]
    exact lazily a b ((arcs _ _ _).1 arc)

end Checks

/-! ## Removal -/

/-- The pass takes out what the walk does not find. -/
theorem removeUnused_takes (alone : g.twins = []) {reached : List String}
    (hr : g.reachableIds = .ok reached) : Build.Does removeUnused g ()
      { g with definitions := g.definitions.filter fun d => decide (d.id ∈ reached) } := by
  let without (done : List String) : Graph :=
    { g with definitions := g.definitions.filter fun d => decide (d.id ∉ done) }
  obtain ⟨g₁, does, e⟩ : ∃ g₁, Build.Does ((g.ids.filter fun id => !reached.contains id).forM
      fun id => do
        Build.note (.unused id)
        Build.change fun g => g.remove id) g () g₁ ∧
      g₁ = without (g.ids.filter fun id => !reached.contains id) :=
    Build.Does.exists_forM _ (fun done g₁ => g₁ = without done) (by simp [without])
      fun done id rest g₁ _ inv => by
      refine ⟨_, .bind (.note _) (.change rfl), ?_⟩
      rw [remove_eq (by rw [inv]; exact alone), inv]
      simp only [without, List.filter_filter]
      congr 2
      funext d
      by_cases hd : d.id ∈ done <;> by_cases e : d.id = id <;> simp [hd, e]
  have left : g₁ = { g with definitions := g.definitions.filter fun d => decide (d.id ∈ reached) } := by
    rw [e]
    simp only [without]
    congr 1
    refine List.filter_congr fun d hd => ?_
    have listed : d.id ∈ g.ids := id_mem_ids hd
    by_cases kept : d.id ∈ reached <;> simp [listed, kept]
  exact left ▸ .bind .graph (.bind (.check hr) does)

theorem removeUnused_shuffled (h : Shuffled g g') (tidy : g.Tidy) (plain : g.Plain)
    (plain' : g'.Plain) (resolves : g.Resolves)
    (aliases : ∀ a ∈ g.aliases, ∃ t, g.resolveAlias a.id = .ok t)
    (run : Build.Gives removeUnused g () g₁) :
    ∃ g₁', Build.Does removeUnused g' () g₁' ∧ Shuffled g₁ g₁' := by
  obtain ⟨reached, hr, rfl⟩ := removeUnused_eq tidy.alone run
  obtain ⟨reached', hr', same⟩ := reachableIds_shuffled h tidy plain plain' resolves aliases hr
  refine ⟨_, removeUnused_takes (h.tidy tidy).alone hr', ?_, h.aliases, h.twins_eq⟩
  simp only [same]
  exact h.definitions.filter _

end Wiring.Pass
