import Mathlib.Data.String.Basic
import Wiring.Container.Construction
import Wiring.Proofs.Container.Freezing

/-!
# What can be fetched

The aliases of a frozen graph can be fetched, and those of its services that are not known to be
private. Whatever is private is refused as such, and all else is unknown.
-/

namespace Wiring.Container

open Graph

variable {g : Graph} {c : Container} {lockMode : LockMode} {privateIds : List String} {id : String}

/-- The identifier can be fetched: it is listed, and it stands for a service that has a plan. -/
structure Accepts (c : Container) (id : String) : Prop where
  has : c.has id = true
  listed : id ∈ c.serviceIds
  fetched : ∃ target plan, c.plan? target = some plan ∧
    c.resolutionOrder id = .ok (c.orderOf target) ∧
    ∀ (σ : Type) (app : Application σ) (self : Nat),
      c.get app self id = c.deferredGet app self target

/-- The identifier cannot be fetched, and whoever tries is told why. -/
structure Refuses (c : Container) (id : String) (why : Failure) : Prop where
  hidden : c.has id = false
  unlisted : id ∉ c.serviceIds
  ordered : c.resolutionOrder id = .error why
  fetched : ∀ (σ : Type) (app : Application σ) (self : Nat) (m : Machine σ),
    c.get app self id m = .error why m

theorem Accepts.not_refuses (h : c.Accepts id) (why : Failure) : ¬ c.Refuses id why :=
  fun refused => refused.unlisted h.listed

theorem mem_serviceIds : id ∈ c.serviceIds ↔
    (id ∈ c.plans.map (·.id) ∧ id ∉ c.privateIds) ∨ id ∈ c.aliases.names := by
  unfold serviceIds Failure.sortTexts
  rw [List.mem_mergeSort, List.mem_append, List.mem_filter]
  simp

theorem has_iff_mem : c.has id = true ↔ id ∈ c.serviceIds := by
  rw [mem_serviceIds, has, isPublicPlan, Bool.or_eq_true, Table.has_iff, or_comm]
  simp [plan?, List.find?_isSome]

/-- An identifier is fetched through what it stands for. -/
theorem get_eq {target : String} (h : c.publicTarget id = .ok target) (σ : Type)
    (app : Application σ) (self : Nat) : c.get app self id = c.deferredGet app self target := by
  unfold get
  rw [h]
  rfl

theorem refuses_of (unlisted : id ∉ c.serviceIds) {why : Failure}
    (h : c.publicTarget id = .error why) : c.Refuses id why where
  hidden := by rwa [← Bool.not_eq_true, has_iff_mem]
  unlisted := unlisted
  ordered := by rw [resolutionOrder, h]; rfl
  fetched σ app self m := by
    unfold get
    rw [h]
    rfl

namespace Frozen

theorem alias_names (h : Frozen g lockMode privateIds c) : c.aliases.names = g.aliasIds :=
  (forall₂_map_eq.1 (h.aliases.imp fun _ _ h => h.1)).symm

theorem mem_private (h : Frozen g lockMode privateIds c) : id ∈ c.privateIds ↔
    id ∈ privateIds ∨ ∃ d ∈ g.definitions, d.id = id ∧ d.isPublic = false := by
  rw [h.privateIds_eq, List.mem_append, List.mem_map]
  refine or_congr_right ⟨fun ⟨p, hp, same⟩ => ?_, fun ⟨d, hd, same, hidden⟩ => ?_⟩
  · obtain ⟨hp, hidden⟩ := List.mem_filter.1 hp
    obtain ⟨d, hd, planned⟩ := forall₂_mem_right h.plans hp
    refine ⟨d, hd, planned.id_eq ▸ same, ?_⟩
    rw [← planned.isPublic_eq]
    simpa using hidden
  · obtain ⟨p, hp, planned⟩ := forall₂_mem_left h.plans hd
    refine ⟨p, List.mem_filter.2 ⟨hp, ?_⟩, planned.id_eq.trans same⟩
    rw [planned.isPublic_eq, hidden]
    rfl

theorem mem_serviceIds (h : Frozen g lockMode privateIds c) : id ∈ c.serviceIds ↔
    (id ∈ g.ids ∧ id ∉ c.privateIds) ∨ id ∈ g.aliasIds := by
  rw [Container.mem_serviceIds, PlansOf.ids_eq h.plans, h.alias_names]

theorem plan?_isSome (h : Frozen g lockMode privateIds c) (hid : id ∈ g.ids) :
    ∃ plan, c.plan? id = some plan := by
  obtain ⟨d, hd⟩ := exists_find? hid
  exact (PlansOf.exists_plan h.plans hd).imp fun _ h => h.1

/-- What is listed is accepted. -/
theorem accepts (h : Frozen g lockMode privateIds c) (listed : id ∈ c.serviceIds) :
    c.Accepts id := by
  obtain ⟨target, plan, ht, hp⟩ :
      ∃ target plan, c.publicTarget id = .ok target ∧ c.plan? target = some plan := by
    unfold publicTarget
    cases ha : c.aliases.get? id with
    | some target =>
      obtain ⟨x, -, -, resolves⟩ := forall₂_mem_right h.aliases (Table.mem_of_get? ha)
      obtain ⟨t, -, resolves⟩ := bind_eq_ok.1 resolves
      split at resolves
      next there =>
        obtain rfl := pure_eq_ok.1 resolves
        obtain ⟨plan, hp⟩ := h.plan?_isSome (has_iff.1 there)
        exact ⟨t, plan, rfl, hp⟩
      next => cases resolves
    | none =>
      have free := h.alias_names ▸ Table.get?_eq_none_iff.1 ha
      obtain ⟨there, shown⟩ := (h.mem_serviceIds.1 listed).resolve_right free
      obtain ⟨plan, hp⟩ := h.plan?_isSome there
      exact ⟨id, plan, by simp [shown, hp], hp⟩
  refine ⟨has_iff_mem.2 listed, listed, target, plan, hp, ?_, get_eq ht⟩
  rw [resolutionOrder, ht]
  rfl

/-- What is private is refused as such. -/
theorem refuses_private (h : Frozen g lockMode privateIds c) (free : id ∉ g.aliasIds)
    (hidden : id ∈ c.privateIds) : c.Refuses id (.access (.str id)) := by
  refine refuses_of (fun listed => ?_) ?_
  · exact (h.mem_serviceIds.1 listed).elim (fun shown => shown.2 hidden) free
  · unfold publicTarget
    rw [Table.get?_eq_none_iff.2 (h.alias_names ▸ free)]
    simp [hidden]

/-- What is neither there nor known to be private is not found. -/
theorem refuses_unknown (h : Frozen g lockMode privateIds c) (free : id ∉ g.aliasIds)
    (shown : id ∉ c.privateIds) (absent : id ∉ g.ids) :
    c.Refuses id (.notFound (.str id) c.serviceIds) := by
  refine refuses_of (fun listed => ?_) ?_
  · exact (h.mem_serviceIds.1 listed).elim (fun there => absent there.1) free
  · have unplanned : c.plan? id = none := List.find?_eq_none.2 fun p hp same =>
      absent (PlansOf.ids_eq h.plans ▸ List.mem_map.2 ⟨p, hp, by simpa using same⟩)
    unfold publicTarget
    rw [Table.get?_eq_none_iff.2 (h.alias_names ▸ free)]
    simp [shown, unplanned]

/-- Where no identifier is taken twice, each is listed once, in order. -/
theorem serviceIds_sorted (h : Frozen g lockMode privateIds c) (unique : g.ids.Nodup)
    (uniqueAliases : g.aliasIds.Nodup) (apart : ∀ id ∈ g.aliasIds, id ∉ g.ids) :
    c.serviceIds.Pairwise (· < ·) := by
  have nodup : c.serviceIds.Nodup := by
    unfold serviceIds Failure.sortTexts
    rw [(List.mergeSort_perm _ _).nodup_iff, PlansOf.ids_eq h.plans, h.alias_names,
      List.nodup_append]
    refine ⟨unique.filter _, uniqueAliases, fun a ha b hb same => ?_⟩
    exact apart b hb (same ▸ (List.mem_filter.1 ha).1)
  have sorted : c.serviceIds.Pairwise fun a b => decide (a ≤ b) = true :=
    List.pairwise_mergeSort (fun a b c => by simpa using le_trans)
      (fun a b => by simpa using le_total a b) _
  exact (sorted.and nodup).imp fun ⟨le, ne⟩ => lt_of_le_of_ne (of_decide_eq_true le) ne

end Frozen

end Wiring.Container
