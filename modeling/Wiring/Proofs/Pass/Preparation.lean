import Wiring.Proofs.Autowire.Narrowing
import Wiring.Proofs.Builder.Workshop
import Wiring.Proofs.Graph.Sealed
import Wiring.Proofs.Pass.Aliases
import Wiring.Proofs.Pass.Autowiring
import Wiring.Proofs.Pass.Checks
import Wiring.Proofs.Pass.Collections
import Wiring.Proofs.Pass.Parameters
import Wiring.Proofs.Pass.Removal
import Wiring.Proofs.Pass.Templates

/-!
# From registered graphs to sealed ones

Each pass up to removal establishes a part of what makes a graph sealed, and the later ones keep
it. What they leave has nothing in it for them to do once more.
-/

namespace Wiring

open Graph Autowire CapabilityIndex TagIndex Pass

variable {g g' g₁ : Graph} {index : CapabilityIndex} {u : Unit} {id : String}

/-! ## Before autowiring -/

/-- Whether an argument is of a kind that is written down, and no parameter. -/
def Argument.isValued : Argument → Bool
  | .reference _ | .literal _ | .tagged _ | .autowire _ => true
  | _ => false

theorem Argument.isDeclared_of_valued {a : Argument} (h : a.isValued = true) :
    a.isDeclared = true := by
  cases a <;> simp_all [isValued, isDeclared]

/-- Nothing is in the definitions but what is written down there, parameters apart. -/
structure Valued (g : Graph) : Prop extends Tidy g where
  valued : g.Holds fun a => a.isValued = true

namespace Valued

theorem declared (h : Valued g) : g.Holds fun a => a.isDeclared = true :=
  h.valued.mono fun _ => Argument.isDeclared_of_valued

theorem flat (h : Valued g) : g.Flat := fun d hd a ha =>
  Argument.isFlat_of_declared (h.declared d hd a ha)

theorem of_parameters (registered : g.Registered) (run : Build.Gives resolveParameters g () g₁) :
    Valued g₁ := by
  obtain ⟨bag, resolved, resolves, revised⟩ :=
    resolveParameters_spec registered.toTidy registered.flat run
  have tidy : Tidy { g with parameters := bag } :=
    ⟨registered.unique, registered.uniqueAliases, registered.apart, registered.labels,
      registered.alone⟩
  refine ⟨tidy.revised revised, Holds.revised (g := { g with parameters := bag })
    (P := fun a => a.isDeclared = true) registered.declared revised ?_⟩
  intro d a b ha hab
  cases a with
  | parameter name =>
    obtain ⟨v, rfl⟩ := hab
    rfl
  | reference | literal | tagged | autowire => exact (hab : b = _) ▸ rfl
  | _ => cases ha

theorem written (h : Valued g) : ∀ d ∈ g.definitions, Written (fun a => a.isValued = true) d :=
  fun d hd => ⟨h.valued d hd, h.labels d hd⟩

theorem expandTemplates (h : Valued g) (run : Build.Gives expandTemplates g () g₁) : Valued g₁ := by
  have expanding := expandTemplates_spec h.alone inherited_written h.written run
  exact ⟨expanding.tidy h.toTidy fun _ written => written.2, fun d hd => (expanding.each d hd).1⟩

theorem rebuild {rules index' : TagIndex} (h : Valued g) (sound : Sound rules.rules)
    (run : Build.Gives rules.rebuild g index' g₁) : Valued g₁ := by
  have rebuilt := rebuild_spec sound h.toTidy run
  refine ⟨Retagged.tidy h.toTidy rebuilt.changed, fun d' hd' a ha => ?_⟩
  obtain ⟨d, hd, -, hR⟩ := rebuilt.changed.exists_old hd'
  refine h.valued d hd a ?_
  rw [hR.frame] at ha
  exact ha

theorem autowire (h : Valued g) (run : Build.Gives autowire g () g₁) : Valued g₁ := by
  obtain ⟨index, -, wired, -⟩ := autowire_spec h.toTidy h.flat run
  refine ⟨h.toTidy.wired wired, fun d' hd' a ha => ?_⟩
  obtain ⟨d, hd, -, hR⟩ := wired.exists_old hd'
  rcases hR.arguments a ha with ha | ⟨id, rfl⟩ | rfl
  · exact h.valued d hd a ha
  · rfl
  · rfl

theorem resolveAliases (h : Valued g) (run : Build.Gives resolveAliases g () g₁) : Valued g₁ := by
  obtain ⟨gs, short, -, resolved⟩ := resolveAliases_spec h.toTidy h.declared run
  refine ⟨(short.tidy h.toTidy).revised resolved, Holds.revised (P := fun a => a.isValued = true)
    (fun d hd => h.valued d (short.definitions_eq ▸ hd)) resolved ?_⟩
  intro d a b ha hab
  cases a with
  | reference r =>
    obtain ⟨t, -, rfl⟩ := hab
    rfl
  | _ => exact (hab : b = _) ▸ ha

end Valued

/-- Parameters are resolved, and what definitions provide can be told; `r` is the graph as it was
registered. -/
structure Begun (r g : Graph) : Prop extends Valued g where
  visible : r.Visible g
  frozen : ∃ resolved, g.parameters.resolved = some resolved
  provided : ∀ d ∈ g.definitions, d.isAbstract = false → ∃ vs, d.providedCapabilities = .ok vs

theorem Bag.resolved_of_resolveAll {bag bag' : Bag} {resolved : Table Value}
    (h : bag.resolveAll = .ok (bag', resolved)) : bag'.resolved = some resolved := by
  unfold resolveAll at h
  cases hr : bag.resolved with
  | some r =>
    rw [hr] at h
    obtain ⟨rfl, rfl⟩ := Prod.mk.inj (Except.ok.inj h)
    exact hr
  | none =>
    rw [hr] at h
    obtain ⟨r, -, h⟩ := bind_eq_ok.1 h
    obtain ⟨rfl, rfl⟩ := Prod.mk.inj (pure_eq_ok.1 h)
    rfl

theorem begun {g₂ g₃ : Graph} {rules index' : TagIndex} (registered : g.Registered)
    (sound : Sound rules.rules) (h₁ : Build.Gives resolveParameters g () g₁)
    (h₂ : Build.Gives expandTemplates g₁ () g₂) (h₃ : Build.Gives rules.rebuild g₂ index' g₃) :
    Begun g g₃ := by
  obtain ⟨bag, resolved, resolves, revised⟩ :=
    resolveParameters_spec registered.toTidy registered.flat h₁
  have valued₁ := Valued.of_parameters registered h₁
  have valued₂ := valued₁.expandTemplates h₂
  have expanding := expandTemplates_spec valued₁.alone inherited_written valued₁.written h₂
  have rebuilt := rebuild_spec sound valued₂.toTidy h₃
  have visible : g.Visible g₁ := revised.visible fun _ _ hR => hR.isPublic_eq
  refine ⟨valued₂.rebuild sound h₃, ?_, ⟨resolved, ?_⟩, rebuilt.provided⟩
  · exact (visible.trans (expanding.place.visible fun _ _ same => same)).trans
      (rebuilt.changed.visible fun _ _ hR => by rw [hR.frame])
  · rw [rebuilt.changed.parameters_eq, expanding.place.parameters_eq, revised.parameters_eq]
    exact Bag.resolved_of_resolveAll resolves

/-! ## Up to the checks -/

/-- What holds when all is autowired, aliases are resolved and collections are baked; `g` is the
graph before that. -/
structure Baked (g g' : Graph) : Prop extends Tidy g' where
  kinds : g'.Holds fun a => a.isFlat = true ∧ (a.isSettled = true ∨ a.isSlot = true)
  free : ∀ d ∈ g'.definitions, ∀ r ∈ Definition.references d, g'.findAlias? r.id = none
  direct : g'.Direct
  ids_eq : g'.ids = g.ids
  aliasIds_eq : g'.aliasIds = g.aliasIds
  leads_iff : ∀ id target, g'.Leads id target ↔ g.Leads id target
  frozen : ∃ resolved, g'.parameters.resolved = some resolved
  visible : g.Visible g'
  narrowed : Narrowed g g'
  indexed : ∃ index, ofGraph g = .ok index
  filled : ∀ index, ofGraph g = .ok index → ∀ d ∈ g'.definitions, g'.Reached d.id →
    ∃ d₀, Filled g index d₀ ∧ Recipe.Revised (fun _ _ => True) d₀ d ∧
      ∀ a ∈ d.allArguments, a.isSlot = false
  entries : ∀ d ∈ g'.definitions, d.isAbstract = false → ∃ best, bestEntries d = .ok best
  provided : ∀ d ∈ g'.definitions, d.isAbstract = false → ∃ vs, d.providedCapabilities = .ok vs

/-- A collection that is baked is all that comes of what is valued. -/
theorem kind_of_collected {g₂ : Graph} {a b : Argument} (h : Collected g₂ id a b)
    (valued : a.isValued = true) :
    b.isFlat = true ∧ (b.isSettled = true ∨ b.isSlot = true) := by
  cases a with
  | tagged tag =>
    obtain ⟨ids, -, rfl⟩ := h
    exact ⟨rfl, .inl rfl⟩
  | reference | literal => exact (h : b = _) ▸ ⟨rfl, .inl rfl⟩
  | autowire => exact (h : b = _) ▸ ⟨rfl, .inr rfl⟩
  | _ => cases valued

/-- No slot is opened where aliases are resolved and collections are baked. -/
theorem isSlot_of_collected {g₂ : Graph} {a b c : Argument} (resolved : Resolved g₁ a b)
    (collected : Collected g₂ id b c) (filled : a.isSlot = false) : c.isSlot = false := by
  cases a with
  | reference r =>
    obtain ⟨t, -, rfl⟩ := resolved
    obtain rfl : c = _ := collected
    rfl
  | tagged tag =>
    obtain rfl : b = _ := resolved
    obtain ⟨ids, -, rfl⟩ := collected
    rfl
  | _ =>
    obtain rfl : b = _ := resolved
    obtain rfl : c = _ := collected
    exact filled

theorem baked {r g₂ g₃ : Graph} (begun : Begun r g) (h₁ : Build.Gives Pass.autowire g () g₁)
    (h₂ : Build.Gives resolveAliases g₁ () g₂) (h₃ : Build.Gives bakeCollections g₂ () g₃) :
    Baked g g₃ := by
  have valued₁ := begun.toValued.autowire h₁
  have valued₂ := valued₁.resolveAliases h₂
  have tidy₂ := valued₂.toTidy
  obtain ⟨index, hi, wired, filled⟩ := autowire_spec begun.toTidy begun.flat h₁
  obtain ⟨gs, short, direct, resolved⟩ := resolveAliases_spec valued₁.toTidy valued₁.declared h₂
  obtain ⟨⟨tags, rebuilt⟩, collected⟩ := bakeCollections_spec tidy₂ valued₂.declared h₃
  have tidy₃ := tidy₂.revised collected
  have aliases₃ : g₃.aliases = gs.aliases := by rw [collected.aliases_eq, resolved.aliases_eq]
  have free₃ {id : String} : g₃.findAlias? id = none ↔ g₁.findAlias? id = none := by
    rw [collected.findAlias?_eq, resolved.findAlias?_eq, short.free_iff]
  have origin : ∀ d ∈ g₃.definitions, ∃ d₂ ∈ g₂.definitions, ∃ d₁ ∈ g₁.definitions,
      ∃ d₀ ∈ g.definitions, Wired d₀ d₁ ∧ Recipe.Revised (Resolved g₁) d₁ d₂ ∧
        Recipe.Revised (Collected g₂ d₂.id) d₂ d := by
    intro d hd
    obtain ⟨d₂, hd₂, -, h₂⟩ := collected.exists_old hd
    obtain ⟨d₁, hd₁, -, h₁⟩ := resolved.exists_old hd₂
    rw [short.definitions_eq] at hd₁
    obtain ⟨d₀, hd₀, -, h₀⟩ := wired.exists_old hd₁
    exact ⟨d₂, hd₂, d₁, hd₁, d₀, hd₀, h₀, h₁, h₂⟩
  exact {
    tidy₃ with
    kinds := Holds.revised (P := fun a => a.isValued = true) valued₂.valued collected
      fun d a b valued made => kind_of_collected made valued
    free := by
      intro d hd r hr
      obtain ⟨d₂, hd₂, d₁, hd₁, -, -, -, hR₁, hR₂⟩ := origin d hd
      rcases Collected.exists_reference hR₂ (valued₂.declared d₂ hd₂) hr with hr | ⟨_, -, member⟩
      · obtain ⟨_, -, leads, -⟩ := Resolved.exists_reference hR₁ (valued₁.declared d₁ hd₁) hr
        exact free₃.2 leads.target_free
      · rw [collected.findAlias?_eq]
        exact tidy₂.findAlias?_eq_none (has_iff.1 member.has)
    direct := fun a ha => free₃.2 (short.free_iff.1 (direct a (aliases₃ ▸ ha)))
    ids_eq := by rw [collected.ids_eq, resolved.ids_eq, short.ids_eq, wired.ids_eq]
    aliasIds_eq := by
      rw [collected.aliasIds_eq, resolved.aliasIds_eq, short.aliasIds_eq, wired.aliasIds_eq]
    leads_iff := fun id target => by
      rw [leads_congr aliases₃, short.leads_iff, leads_congr wired.aliases_eq]
    frozen := by
      rw [collected.parameters_eq, resolved.parameters_eq, short.parameters_eq, wired.parameters_eq]
      exact begun.frozen
    visible := by
      intro d hd
      obtain ⟨d₂, -, d₁, -, d₀, hd₀, hR₀, hR₁, hR₂⟩ := origin d hd
      refine ⟨d₀, hd₀, ?_, ?_⟩
      · rw [hR₂.id_eq, hR₁.id_eq, hR₀.id_eq]
      · rw [hR₂.isPublic_eq, hR₁.isPublic_eq, hR₀.isPublic_eq]
    narrowed := by
      intro d hd
      obtain ⟨d₂, -, d₁, -, d₀, hd₀, hR₀, hR₁, hR₂⟩ := origin d hd
      refine ⟨d₀, hd₀, ?_, ?_, ?_, ?_⟩
      · rw [hR₂.id_eq, hR₁.id_eq, hR₀.id_eq]
      · rw [hR₂.isAbstract_eq, hR₁.isAbstract_eq, hR₀.isAbstract_eq]
      · rw [hR₂.factory_eq, hR₁.factory_eq, hR₀.frame]
      · rw [hR₂.capabilities_eq, hR₁.capabilities_eq, hR₀.frame]
    indexed := ⟨index, hi⟩
    filled := by
      intro index' hi' d hd reached
      obtain rfl := Except.ok.inj (hi.symm.trans hi')
      obtain ⟨d₂, -, d₁, hd₁, -, -, -, hR₁, hR₂⟩ := origin d hd
      have ways := (resolveAliases_sameWays valued₁.toTidy valued₁.declared h₂).trans
        (bakeCollections_sameWays tidy₂ valued₂.declared h₃)
      have reached₁ := ways.reached reached
      obtain ⟨e, he, hfilled⟩ := filled d.id reached₁
      obtain rfl : e = d₁ := by
        refine eq_of_id_eq valued₁.unique (mem_of_find? he).1 hd₁ ?_
        rw [(mem_of_find? he).2, hR₂.id_eq, hR₁.id_eq]
      refine ⟨e, hfilled, (hR₁.comp hR₂).mono fun _ _ _ => trivial, fun c hc => ?_⟩
      obtain ⟨a, ha, b, hab, hbc⟩ := forall₂_mem_right (hR₁.comp hR₂).allArguments hc
      exact isSlot_of_collected hab hbc (hfilled.slots a ha)
    entries := by
      intro d hd concrete
      obtain ⟨d₂, hd₂, -, -, -, -, -, -, hR₂⟩ := origin d hd
      obtain ⟨found, hf, -⟩ := rebuilt.entries
      obtain ⟨best, hb⟩ := gather_succeeds.1 ⟨found, hf⟩ d₂ hd₂ (hR₂.isAbstract_eq ▸ concrete)
      refine ⟨best, ?_⟩
      rw [hR₂.frame]
      exact hb
    provided := by
      intro d hd concrete
      obtain ⟨d₂, hd₂, -, -, -, -, -, -, hR₂⟩ := origin d hd
      obtain ⟨vs, hv⟩ := rebuilt.provided d₂ hd₂ (hR₂.isAbstract_eq ▸ concrete)
      refine ⟨vs, ?_⟩
      rw [hR₂.frame]
      exact hv }

/-! ## From the checks to removal -/

/-- Nothing is left to do for the passes that come before the checks. -/
structure Graph.Spent (g : Graph) : Prop where
  frozen : ∃ resolved, g.parameters.resolved = some resolved
  parentless : ∀ d ∈ g.definitions, d.parent = none
  provided : ∀ d ∈ g.definitions, ∃ vs, Recipe.providedCapabilities d = .ok vs
  entries : ∀ d ∈ g.definitions, ∃ best, bestEntries d = .ok best
  named : ∀ d ∈ g.definitions, ∀ k ∈ d.keywords, Text.isArgumentName k.1 = true
  fitting : ∀ d ∈ g.definitions, Fitting d
  filled : ∀ index, ofGraph g = .ok index → ∀ d ∈ g.definitions, Filled g index d

/-- The graph has passed all checks. -/
structure Checked (g : Graph) : Prop where
  constructible : ∃ reached, g.reachableIds = .ok reached ∧
    ∀ d ∈ g.definitions, Constructible reached d
  aliases : ∀ a ∈ g.aliases, ∃ target d, g.Leads a.id target ∧ g.find? target = some d ∧
    (a.isPublic = true → d.isAbstract = false)
  references : ∀ d ∈ g.definitions, d.isAbstract = false → ∀ r ∈ Definition.references d,
    ∃ target, g.Leads r.id target ∧ (g.find? target = none → r.optional = true) ∧
      ∀ d, g.find? target = some d → d.isAbstract = false
  cycles : g.CyclesLazy

theorem checked (plain : g.Plain) (h₁ : checkDefinitions g = .ok ())
    (h₂ : checkReferences g = .ok ()) (h₃ : checkCycles g = .ok ()) : Checked g where
  constructible := checkDefinitions_ok.1 h₁
  aliases a ha := checkAlias_ok.1 (((checkReferences_ok plain).1 h₂).1 a ha)
  references d hd concrete r hr :=
    checkReference_ok.1 (((checkReferences_ok plain).1 h₂).2 d hd concrete r hr)
  cycles := ((validate_ok plain).1 h₃).2

namespace Baked

variable {b p : Graph} {d : Definition} {r : Reference}

theorem flat (h : Baked g b) : b.Flat := fun d hd a ha => (h.kinds d hd a ha).1

theorem not_tagged (h : Baked g b) (hd : d ∈ b.definitions) {tag : String} :
    .tagged tag ∉ d.allArguments := fun ha => by
  have := (h.kinds d hd _ ha).2
  simp [Argument.isSettled, Argument.isSlot] at this

theorem leads_reference (h : Baked g b) (hd : d ∈ b.definitions)
    (hr : r ∈ Definition.references d) {target : String} : b.Leads r.id target ↔ target = r.id :=
  Leads.of_free (h.free d hd r hr)

/-- What is reached is no template. -/
theorem concrete (h : Baked g b) (checked : Checked b) (reached : b.Reached id)
    (hd : b.find? id = some d) : d.isAbstract = false := by
  induction reached generalizing d with
  | root hroot =>
    obtain ⟨e, he, concrete, -⟩ := hroot
    exact Option.some.inj (he.symm.trans hd) ▸ concrete
  | step _ ha hb ih =>
    have hmem := (mem_of_find? ha).1
    rcases hb with ⟨r, hr, hres, -⟩ | ⟨tag, htag, -⟩
    · obtain ⟨target, leads, -, concrete⟩ := checked.references _ hmem (ih ha) r hr
      exact concrete d (leads.unique (resolveAlias_leads hres) ▸ hd)
    · exact absurd htag (h.not_tagged hmem)

theorem reached_of_published (h : Baked g b) (reached : (published b).Reached id) : b.Reached id :=
  (published_sameWays h.toTidy h.direct h.free).reached reached

/-- What a reached definition refers to is reached, if it is there. -/
theorem reached_reference (h : Baked g b) (hd : d ∈ b.definitions)
    (reached : (published b).Reached d.id) (hr : r ∈ Definition.references d)
    (there : r.id ∈ b.ids) : (published b).Reached r.id :=
  .step reached (find?_of_mem (published_tidy h.toTidy).unique hd)
    (.inl ⟨r, hr, resolveAlias_of_free (published_free (h.free d hd r hr)), has_iff.2 there⟩)

theorem free_pruned (pruned : Pruned (published b) p) (free : b.findAlias? id = none) :
    p.findAlias? id = none := by
  have free := published_free free
  rwa [findAlias?_eq_none_iff, aliasIds, ← pruned.aliases_eq, ← aliasIds,
    ← findAlias?_eq_none_iff] at free

/-- A definition that is missing where autowiring looks for it is missing in the end. -/
theorem missing (h : Baked g b) (checked : Checked b) (pruned : Pruned (published b) p)
    {name target : String} (hres : g.resolveAlias name = .ok target)
    (absent : g.has target = false) :
    ∃ target, p.resolveAlias name = .ok target ∧ p.has target = false := by
  have leads := resolveAlias_leads hres
  have free : b.findAlias? name = none := by
    refine findAlias?_eq_none_iff.2 fun hname => ?_
    obtain ⟨a, ha, rfl⟩ := List.mem_map.1 hname
    obtain ⟨t, d, ht, hd, -⟩ := checked.aliases a ha
    obtain rfl := ((h.leads_iff _ _).1 ht).unique leads
    rw [has_eq_false_iff, ← h.ids_eq] at absent
    exact absent (mem_ids.2 ⟨d, mem_of_find? hd⟩)
  refine ⟨name, resolveAlias_of_free (free_pruned pruned free), has_eq_false_iff.2 fun hname => ?_⟩
  obtain rfl := (Leads.of_free free).1 ((h.leads_iff _ _).2 leads)
  rw [has_eq_false_iff, ← h.ids_eq] at absent
  exact absent (pruned.ids_subset hname)

section Kept

variable (h : Baked g b) (pruned : Pruned (published b) p)

include h pruned

theorem kept (hd : d ∈ p.definitions) : d ∈ b.definitions ∧ b.Reached d.id := by
  obtain ⟨hd, reached⟩ := (pruned.mem_iff d).1 hd
  exact ⟨hd, h.reached_of_published reached⟩

theorem concrete_kept (checked : Checked b) (hd : d ∈ p.definitions) : d.isAbstract = false :=
  h.concrete checked (h.kept pruned hd).2 (find?_of_mem h.unique (h.kept pruned hd).1)

theorem slots_kept (hd : d ∈ p.definitions) : ∀ a ∈ d.allArguments, a.isSlot = false := by
  obtain ⟨index, hi⟩ := h.indexed
  obtain ⟨-, -, -, slots⟩ := h.filled index hi d (h.kept pruned hd).1 (h.kept pruned hd).2
  exact slots

theorem flat_kept : p.Flat := fun d hd => h.flat d (h.kept pruned hd).1

theorem free_kept (hd : d ∈ p.definitions) (hr : r ∈ Definition.references d) :
    p.findAlias? r.id = none :=
  free_pruned pruned (h.free d (h.kept pruned hd).1 r hr)

theorem arc_kept {isLazy : Bool} {x y : String} (arc : p.Arc isLazy x y) : b.Arc isLazy x y := by
  have tidy := published_tidy h.toTidy
  obtain ⟨d, d', hd, hd', r, hr, hres, hl⟩ := arc
  have hmem := (mem_of_find? hd).1
  rw [resolveAlias_of_free (h.free_kept pruned hmem hr)] at hres
  refine ⟨d, d', ((pruned.find?_iff tidy).1 hd).1, ((pruned.find?_iff tidy).1 hd').1, r, hr, ?_, hl⟩
  rw [resolveAlias_of_free (h.free d (h.kept pruned hmem).1 r hr), hres]

/-- What a definition that is kept refers to is kept, or need not be there. -/
theorem closed_kept (checked : Checked b) (hd : d ∈ p.definitions)
    (hr : r ∈ Definition.references d) : r.id ∈ p.ids ∨ r.optional = true := by
  have hmem := (h.kept pruned hd).1
  obtain ⟨target, leads, optional, -⟩ :=
    checked.references d hmem (h.concrete_kept pruned checked hd) r hr
  obtain rfl := (h.leads_reference hmem hr).1 leads
  by_cases there : r.id ∈ b.ids
  · exact .inl ((pruned.mem_ids (published_tidy h.toTidy)).2
      (h.reached_reference hmem ((pruned.mem_iff d).1 hd).2 hr there))
  · exact .inr (optional (find?_eq_none_iff.2 there))

/-- The aliases that are left are public, and what they stand for is kept. -/
theorem direct_kept (checked : Checked b) {a : Alias} (ha : a ∈ p.aliases) :
    a.isPublic = true ∧ a.target ∈ p.ids := by
  have tidy := published_tidy h.toTidy
  rw [pruned.aliases_eq] at ha
  obtain ⟨hmem, isPublic⟩ := List.mem_filter.1 ha
  obtain ⟨target, d, leads, hd, concrete⟩ := checked.aliases a hmem
  have onward := resolveAlias_of_direct (findAlias?_of_mem h.uniqueAliases hmem) (h.direct a hmem)
  obtain rfl := leads.unique (resolveAlias_leads onward)
  refine ⟨isPublic, (pruned.mem_ids tidy).2 (.root ⟨d, hd, concrete isPublic, .inr ⟨a, ha, isPublic,
    ?_⟩⟩)⟩
  exact resolveAlias_of_direct (findAlias?_of_mem tidy.uniqueAliases ha)
    (published_free (h.direct a hmem))

/-- Nothing is left to do in what is kept. -/
theorem spent (checked : Checked b) : p.Spent := by
  obtain ⟨index, hi⟩ := h.indexed
  obtain ⟨resolved, frozen⟩ := h.frozen
  obtain ⟨reached, hreached, constructible⟩ := checked.constructible
  have constructible {d : Definition} (hd : d ∈ p.definitions) :=
    constructible d (h.kept pruned hd).1
  have concrete {d : Definition} (hd : d ∈ p.definitions) := h.concrete_kept pruned checked hd
  exact {
    frozen := ⟨resolved, by rw [pruned.frame]; exact frozen⟩
    parentless := fun d hd => (constructible hd).parentless
    provided := fun d hd => h.provided d (h.kept pruned hd).1 (concrete hd)
    entries := fun d hd => h.entries d (h.kept pruned hd).1 (concrete hd)
    named := fun d hd => (constructible hd).named (concrete hd)
    fitting := fun d hd => (constructible hd).fitting (concrete hd)
      ((mem_reachableIds h.toTidy h.flat.plain hreached).2 (h.kept pruned hd).2)
    filled := fun index' hi' d hd => by
      obtain ⟨d₀, filled, revised, slots⟩ :=
        h.filled index hi d (h.kept pruned hd).1 (h.kept pruned hd).2
      have narrowed : Narrowed g p := fun d hd => h.narrowed d (h.kept pruned hd).1
      exact filled.narrowed hi hi' narrowed (fun _ _ => h.missing checked pruned) revised slots }

end Kept

end Baked

/-- What is kept of a graph that has passed the checks is sealed, and nothing is left to do in it. -/
theorem sealed {b p : Graph} (h : Baked g b) (checked : Checked b)
    (pruned : Pruned (published b) p) : p.Sealed ∧ p.Flat ∧ p.Spent := by
  have tidy := published_tidy h.toTidy
  have flat := h.flat_kept pruned
  refine ⟨{ pruned.tidy tidy with
    settled := fun d hd q hq a ha => ?_
    made := fun d hd q hq => ?_
    tagged := fun d hd q hq => ?_
    concrete := fun d hd => h.concrete_kept pruned checked hd
    closed := fun d hd r hr => ⟨findAlias?_eq_none_iff.1 (h.free_kept pruned hd hr),
      h.closed_kept pruned checked hd hr⟩
    direct := fun a ha => h.direct_kept pruned checked ha
    cycles := fun x y arc path => checked.cycles x y (h.arc_kept pruned arc)
      (Relation.ReflTransGen.mono (fun _ _ step => step.imp fun _ => h.arc_kept pruned) _ _ path)
    reached := fun id hid => pruned.reached tidy hid }, flat, h.spent pruned checked⟩
  all_goals
    -- a definition that is kept has no part but itself
    rw [(flat d hd).parts_eq, List.mem_singleton] at hq
    subst hq
  · exact ((h.kinds q (h.kept pruned hd).1 a ha).2).resolve_right
      (by simp [h.slots_kept pruned hd a ha])
  · obtain ⟨reached, -, constructible⟩ := checked.constructible
    exact (constructible q (h.kept pruned hd).1).made (h.concrete_kept pruned checked hd)
  · exact h.labels q (h.kept pruned hd).1

/-! ## The passes of each phase -/

/-- The passes of a phase, in the order in which they run. -/
def Builtin.ofPhase (phase : Phase) : List Builtin :=
  (schedule.filter fun e => e.2.1 = phase).map (·.1)

/-- The passes that run before autowiring. -/
def Builtin.beforeAutowiring : List Builtin := [resolveParameters, expandTemplates, autoconfigure]

/-- The passes of the phases up to removal. -/
def Builtin.untilRemoval : List Builtin :=
  (schedule.filter fun e => e.2.1 != .afterRemoving).map (·.1)

theorem Builtin.schedule_eq : schedule.map (·.1) = untilRemoval ++ [.inlineServices] := rfl

theorem Builtin.untilRemoval_eq : untilRemoval = beforeAutowiring ++ [.autowire] ++
    ofPhase .optimize ++ (ofPhase .beforeRemoving ++ ofPhase .remove) := rfl

section Phases

variable {s a b p : Graph} {rules : List TagRule} {index index' : TagIndex}

theorem begun_of_runs (registered : g.Registered) (sound : Sound rules)
    (h : Runs Builtin.beforeAutowiring { rules } g index s) : Begun g s := by
  obtain ⟨g₁, j₁, h⟩ := h.of_job (by decide)
  obtain ⟨g₂, j₂, _ | ⟨j₃, last⟩⟩ := h.of_job (by decide)
  cases last
  exact begun registered sound j₁ j₂ j₃

/-- When aliases are resolved and collections are baked, the same is reached as after autowiring. -/
theorem baked_of_runs (begun : Begun g s) (run : Build.Gives Pass.autowire s () a)
    (h : Runs (Builtin.ofPhase .optimize) index a index' b) : Baked s b ∧ SameWays a b := by
  obtain ⟨g₁, j₁, h⟩ := h.of_job (by decide)
  obtain ⟨g₂, j₂, ⟨⟩⟩ := h.of_job (by decide)
  have valued := begun.toValued.autowire run
  have valued' := valued.resolveAliases j₁
  exact ⟨baked begun run j₁ j₂, (resolveAliases_sameWays valued.toTidy valued.declared j₁).trans
    (bakeCollections_sameWays valued'.toTidy valued'.declared j₂)⟩

/-- Removal starts from a graph that has passed the checks, without its private aliases. -/
theorem checked_of_runs (plain : b.Plain)
    (h : Runs (Builtin.ofPhase .beforeRemoving ++ Builtin.ofPhase .remove) index b index' p) :
    Checked b ∧ Build.Gives removeUnused (published b) () p := by
  obtain ⟨g₁, j₁, h₁⟩ := h.of_job (by decide)
  obtain ⟨g₂, j₂, h₂⟩ := h₁.of_job (by decide)
  obtain ⟨g₃, j₃, h₃⟩ := h₂.of_job (by decide)
  obtain ⟨g₄, j₄, h₄⟩ := h₃.of_job (by decide)
  obtain ⟨g₅, j₅, ⟨⟩⟩ := h₄.of_job (by decide)
  obtain ⟨c₁, rfl⟩ := Builtin.gives_validate j₁
  obtain ⟨c₂, rfl⟩ := Builtin.gives_validate j₂
  obtain ⟨c₃, rfl⟩ := Builtin.gives_validate j₃
  obtain rfl := removePrivateAliases_spec j₄
  exact ⟨checked plain c₁ c₂ c₃, j₅⟩

/-- What the passes up to removal make of a registered graph is sealed, and nothing is left to do in
it. What is left is as visible as it was. -/
theorem sealed_of_runs (registered : g.Registered) (sound : Sound rules)
    (h : Runs Builtin.untilRemoval { rules } g index' p) :
    p.Sealed ∧ p.Flat ∧ p.Spent ∧ g.Visible p := by
  rw [Builtin.untilRemoval_eq] at h
  obtain ⟨index₁, b, h, kept⟩ := h.split
  obtain ⟨index₂, a, h, optimized⟩ := h.split
  obtain ⟨index₃, s, start, autowired⟩ := h.split
  obtain ⟨_, run, ⟨⟩⟩ := autowired.of_job (by decide)
  have begun := begun_of_runs registered sound start
  obtain ⟨baked, -⟩ := baked_of_runs begun run optimized
  obtain ⟨checked, removes⟩ := checked_of_runs baked.flat.plain kept
  have pruned := removeUnused_spec (published_tidy baked.toTidy) baked.flat.plain removes
  obtain ⟨isSealed, flat, spent⟩ := sealed baked checked pruned
  exact ⟨isSealed, flat, spent, (begun.visible.trans baked.visible).trans fun d hd =>
    ⟨d, pruned.sublist.subset hd, rfl, rfl⟩⟩

end Phases

end Wiring
