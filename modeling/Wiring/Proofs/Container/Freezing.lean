import Wiring.Container.Basic
import Wiring.Proofs.Container.Order
import Wiring.Proofs.Container.Plans
import Wiring.Proofs.Graph.Copying
import Wiring.Proofs.Ranks

/-!
# Containers of sealed graphs

A sealed graph can be frozen. The container has one plan for each definition, and what the plans
depend on are the arcs of the graph.
-/

namespace Wiring.Container

open Graph

variable {g : Graph} {c : Container} {d : Definition} {p : ServicePlan} {lockMode : LockMode}
  {privateIds : List String} {id a b : String}

/-- The container is made of the graph. -/
structure Frozen (g : Graph) (lockMode : LockMode) (privateIds : List String) (c : Container) :
    Prop where
  plans : List.Forall₂ (Planned g) g.definitions c.plans
  aliases : List.Forall₂ (fun x e => x.id = e.1 ∧ g.resolveAliasStrict x.id = .ok e.2) g.aliases
    c.aliases
  graph : g.copy = .ok c.graph
  heights : ServicePlan.heights c.plans = .ok c.heights
  locks : buildLocks g c.plans lockMode = .ok c.locks
  lockMode_eq : c.lockMode = lockMode
  privateIds_eq : c.privateIds = privateIds ++ (c.plans.filter fun p => !p.isPublic).map (·.id)
  orders : c.orders = c.plans.map fun p => (p.id, ServicePlan.order c.plans c.heights p.id)

theorem freeze_eq_ok : freeze g lockMode privateIds = .ok c ↔ Frozen g lockMode privateIds c := by
  have aliases {found : Table String} : (g.aliases.mapM fun x => do
      return (x.id, ← g.resolveAliasStrict x.id)) = .ok found ↔
      List.Forall₂ (fun x e => x.id = e.1 ∧ g.resolveAliasStrict x.id = .ok e.2) g.aliases found := by
    rw [mapM_eq_ok]
    refine forall₂_congr_mem fun x _ e => ?_
    simp only [bind_eq_ok, pure_eq_ok, Prod.ext_iff]
    constructor
    · rintro ⟨t, ht, h, h'⟩
      exact ⟨h, h' ▸ ht⟩
    · rintro ⟨h, ht⟩
      exact ⟨_, ht, h, rfl⟩
  simp only [freeze, bind_eq_ok, pure_eq_ok, mapM_eq_ok, plan_eq_ok, aliases]
  constructor
  · rintro ⟨plans, hp, as, ha, graph, hg, heights, hh, locks, hl, rfl⟩
    exact ⟨hp, ha, hg, hh, hl, rfl, rfl, rfl⟩
  · rintro ⟨hp, ha, hg, hh, hl, rfl, h₁, h₂⟩
    refine ⟨_, hp, _, ha, _, hg, _, hh, _, hl, ?_⟩
    rw [← h₁, ← h₂]

/-! ## Plans and arcs -/

theorem mem_targets_bound {r : Reference} :
    b ∈ (g.bound r).targets ↔ r.id = b ∧ b ∈ g.ids := by
  unfold bound
  cases hf : g.find? r.id with
  | none =>
    refine ⟨fun h => (by simp [Binding.targets] at h), ?_⟩
    rintro ⟨rfl, hb⟩
    exact absurd hb (find?_eq_none_iff.1 hf)
  | some d =>
    have there : r.id ∈ g.ids := mem_ids.2 ⟨d, mem_of_find? hf⟩
    dsimp only
    split
    all_goals
      rw [Binding.targets, List.mem_singleton]
      constructor
      · rintro rfl
        exact ⟨rfl, there⟩
      · rintro ⟨rfl, -⟩
        rfl

/-- There is one plan for each definition. -/
abbrev PlansOf (g : Graph) (plans : List ServicePlan) : Prop :=
  List.Forall₂ (Planned g) g.definitions plans

namespace PlansOf

variable {plans : List ServicePlan}

theorem ids_eq (h : PlansOf g plans) : plans.map (·.id) = g.ids :=
  (forall₂_map_eq.1 (h.imp fun _ _ hp => hp.id_eq.symm)).symm

theorem find?_rel (h : PlansOf g plans) (id : String) :
    Option.Rel (Planned g) (g.find? id) (plans.find? fun p => p.id == id) :=
  forall₂_find? h fun d p hp => by rw [hp.id_eq]

theorem exists_plan (h : PlansOf g plans) (hd : g.find? id = some d) :
    ∃ p, plans.find? (fun p => p.id == id) = some p ∧ Planned g d p := by
  have rel := find?_rel h id
  rw [hd] at rel
  cases hp : plans.find? (fun p => p.id == id) with
  | none => rw [hp] at rel; cases rel
  | some p =>
    rw [hp] at rel
    cases rel with
    | some planned => exact ⟨p, rfl, planned⟩

theorem exists_definition (h : PlansOf g plans)
    (hp : plans.find? (fun p => p.id == id) = some p) : ∃ d, g.find? id = some d ∧ Planned g d p := by
  have rel := find?_rel h id
  rw [hp] at rel
  cases hd : g.find? id with
  | none => rw [hd] at rel; cases rel
  | some d =>
    rw [hd] at rel
    cases rel with
    | some planned => exact ⟨d, rfl, planned⟩

/-- The services that a service depends on are those that its arcs lead to at once. -/
theorem mem_dependenciesOf (h : PlansOf g plans) :
    b ∈ ServicePlan.dependenciesOf plans a ↔ g.Arc false a b := by
  unfold ServicePlan.dependenciesOf Arc
  cases hp : plans.find? fun p => p.id == a with
  | none =>
    refine ⟨fun h => (by simp at h), ?_⟩
    rintro ⟨d, -, hd, -⟩
    obtain ⟨p, hp', -⟩ := exists_plan h hd
    exact nomatch hp.symm.trans hp'
  | some p =>
    obtain ⟨d, hd, planned⟩ := exists_definition h hp
    rw [Option.map_some, Option.getD_some, planned.dependencies_eq, List.mem_eraseDups,
      planned.mem_eager]
    constructor
    · rintro ⟨r, hr, leads, d', hd', eager⟩
      exact ⟨d, d', hd, hd', r, hr, leads, eager.symm⟩
    · rintro ⟨d₁, d', hd₁, hd', r, hr, leads, eager⟩
      obtain rfl := Option.some.inj (hd.symm.trans hd₁)
      exact ⟨r, hr, leads, d', hd', eager.symm⟩

/-- What a service depends on has a plan. -/
theorem dependencies_planned (h : PlansOf g plans) (hb : b ∈ ServicePlan.dependenciesOf plans a) :
    b ∈ ServicePlan.planned plans := by
  obtain ⟨-, d', -, hd', -⟩ := (mem_dependenciesOf h).1 hb
  rw [ServicePlan.planned, ids_eq h]
  exact mem_ids.2 ⟨d', mem_of_find? hd'⟩

end PlansOf

theorem Frozen.orderOf_eq (h : Frozen g lockMode privateIds c) (hid : id ∈ g.ids) :
    c.orderOf id = ServicePlan.order c.plans c.heights id := by
  have same : c.orders =
      (c.plans.map (·.id)).map fun id => (id, ServicePlan.order c.plans c.heights id) := by
    rw [h.orders, List.map_map]
    rfl
  rw [orderOf, same, Table.get?_map_self (PlansOf.ids_eq h.plans ▸ hid)]
  rfl

/-! ## Freezing -/

/-- Dependencies of plans rank the services of a sealed graph. -/
theorem exists_ranks (hg : g.Sealed) : ∃ rank : String → Nat,
    (∀ a ∈ g.ids, rank a < g.ids.length) ∧ ∀ a b, g.Arc false a b → rank b < rank a := by
  obtain ⟨rank, bound, falling⟩ := exists_rank (E := g.Arc false)
    (fun a b eager path => hg.cycles a b eager
      (Relation.ReflTransGen.mono (fun _ _ h => ⟨false, h⟩) _ _ path)) g.ids
  refine ⟨rank, bound, fun a b arc => falling a b arc ?_⟩
  obtain ⟨-, d', -, hd', -⟩ := arc
  exact mem_ids.2 ⟨d', mem_of_find? hd'⟩

/-- A sealed graph can be frozen. -/
theorem exists_frozen (hg : g.Sealed) (lockMode : LockMode) (privateIds : List String) :
    ∃ c, Frozen g lockMode privateIds c := by
  obtain ⟨plans, hplans⟩ : ∃ plans, PlansOf g plans := forall₂_exists fun d hd =>
    planned_of_sealed hg hd (Definition.self_mem_parts d)
  obtain ⟨aliases, haliases⟩ : ∃ aliases : Table String, List.Forall₂
      (fun x e => x.id = e.1 ∧ g.resolveAliasStrict x.id = .ok e.2) g.aliases aliases :=
    forall₂_exists fun x hx => ⟨(x.id, x.target), rfl, by
      unfold resolveAliasStrict
      rw [hg.resolveAlias_alias hx, ok_bind, if_pos (has_iff.2 (hg.direct x hx).2)]
      rfl⟩
  obtain ⟨rank, bound, falling⟩ := exists_ranks hg
  have ids : ServicePlan.planned plans = g.ids := PlansOf.ids_eq hplans
  have length : plans.length = g.ids.length := by rw [← ids, ServicePlan.planned, List.length_map]
  obtain ⟨heights, hheights⟩ : ∃ heights, ServicePlan.heights plans = .ok heights := by
    refine ServicePlan.heights_ok rank (fun a _ b => PlansOf.dependencies_planned hplans)
      (fun a ha => ?_) fun a _ b hb => falling a b ((PlansOf.mem_dependenciesOf hplans).1 hb)
    exact length ▸ bound a (ids ▸ ha)
  obtain ⟨locks, hlocks⟩ : ∃ locks, buildLocks g plans lockMode = .ok locks := by
    cases lockMode with
    | unguarded => exact ⟨_, rfl⟩
    | thread =>
      have resolves : g.Resolves := fun d hd r hr => ⟨_, hg.resolveAlias_ok hd hr⟩
      obtain ⟨edges, hedges, -⟩ := bind_eq_ok.1 ((validate_ok hg.plain).2 ⟨resolves, hg.cycles⟩)
      exact ⟨_, bind_eq_ok.2 ⟨edges, hedges, rfl⟩⟩
  exact ⟨{
    plans, aliases, graph := g.freshened, lockMode, heights, locks
    privateIds := privateIds ++ (plans.filter fun p => !p.isPublic).map (·.id)
    orders := plans.map fun p => (p.id, ServicePlan.order plans heights p.id) },
    hplans, haliases, hg.copy_eq, hheights, hlocks, rfl, rfl, rfl⟩

end Wiring.Container
