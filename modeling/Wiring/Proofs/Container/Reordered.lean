import Wiring.Container.Construction
import Wiring.Proofs.Container.Freezing
import Wiring.Proofs.Graph.Matched
import Wiring.Proofs.Tag.Order

/-!
# Containers in another order

Containers whose plans and aliases differ in order alone tell the same services from the same
identifiers, and construct the same things in the same order, whatever the factories do.
-/

namespace Wiring

namespace ServicePlan

variable {plans plans' : List ServicePlan} {found found' : Table Nat}

section Perm

variable (perm : plans.Perm plans') (unique : (plans.map (·.id)).Nodup)

include perm unique

theorem find?_plans_perm (id : String) :
    (plans'.find? fun p => p.id == id) = plans.find? fun p => p.id == id :=
  find?_perm perm fun _ hp _ hq hp' hq' =>
    List.inj_on_of_nodup_map unique hp hq ((beq_iff_eq.1 hp').trans (beq_iff_eq.1 hq').symm)

theorem dependenciesOf_perm : dependenciesOf plans' = dependenciesOf plans := by
  funext id
  unfold dependenciesOf
  rw [find?_plans_perm perm unique]

/-- Heights do not depend on the order in which they are found. -/
theorem height_perm (h : ServicePlan.heights plans = .ok found)
    (h' : ServicePlan.heights plans' = .ok found') (id : String) :
    (found'.get? id).getD 0 = (found.get? id).getD 0 := by
  have right := heights_right h' id
  rw [dependenciesOf_perm perm unique] at right
  exact right.unique (heights_right h id)

theorem order_perm (h : ServicePlan.heights plans = .ok found)
    (h' : ServicePlan.heights plans' = .ok found') : order plans' found' = order plans found := by
  have same : byHeight plans' found' = byHeight plans found := by
    funext id
    unfold byHeight
    simp only [height_perm perm unique h h', dependenciesOf_perm perm unique]
  funext id
  unfold order
  rw [same, perm.length_eq]

end Perm

end ServicePlan

namespace Container

open Graph

variable {c c' : Container} {σ : Type} {id : String}

/-- The containers differ in the order of what they hold alone. -/
structure Reordered (c c' : Container) : Prop where
  unique : (c.plans.map (·.id)).Nodup
  uniqueAliases : c.aliases.names.Nodup
  uniqueOrders : c.orders.names.Nodup
  plans : c.plans.Perm c'.plans
  aliases : c.aliases.Perm c'.aliases
  privateIds : c.privateIds.Perm c'.privateIds
  orders : c.orders.Perm c'.orders
  locks : c.locks.names.Perm c'.locks.names

namespace Reordered

variable (h : Reordered c c')

include h

/-! ## What is found -/

theorem plan?_eq : c'.plan? = c.plan? :=
  funext (ServicePlan.find?_plans_perm h.plans h.unique)

theorem get?_alias (id : String) : c'.aliases.get? id = c.aliases.get? id :=
  Table.get?_perm h.uniqueAliases h.aliases

theorem orderOf_eq : c'.orderOf = c.orderOf := by
  funext id
  unfold orderOf
  rw [Table.get?_perm h.uniqueOrders h.orders]

theorem isPrivate_eq (id : String) : c'.privateIds.contains id = c.privateIds.contains id :=
  h.privateIds.contains_eq.symm

theorem isLocked_eq (id : String) : c'.locks.has id = c.locks.has id := by
  rw [Bool.eq_iff_iff, Table.has_iff, Table.has_iff, h.locks.mem_iff]

theorem serviceIds_eq : c'.serviceIds = c.serviceIds := by
  refine (Failure.sortTexts_eq_of_perm (.append ?_ (h.aliases.map _))).symm
  simp only [h.isPrivate_eq]
  exact (h.plans.map _).filter _

theorem publicTarget_eq : c'.publicTarget = c.publicTarget := by
  funext id
  unfold publicTarget
  rw [h.get?_alias, h.isPrivate_eq, h.plan?_eq, h.serviceIds_eq]

theorem resolutionOrder_eq : c'.resolutionOrder = c.resolutionOrder := by
  funext id
  unfold resolutionOrder
  rw [h.publicTarget_eq, h.orderOf_eq]

theorem planCount_eq : c'.planCount = c.planCount :=
  (h.plans.foldl_eq' (fun p _ q _ n => by omega) 0).symm

/-! ## What is done -/

variable (app : Application σ) (self : Nat)

theorem constructGuarded_eq : c'.constructGuarded app self = c.constructGuarded app self := by
  funext resolve plan
  unfold constructGuarded
  rw [h.isLocked_eq]

theorem prewarm_eq : c'.prewarm app self = c.prewarm app self := by
  funext resolve id
  unfold prewarm
  rw [h.orderOf_eq, h.plan?_eq, h.constructGuarded_eq]

theorem resolve_eq (room : Nat) : c'.resolve app self room = c.resolve app self room := by
  induction room with
  | zero => rfl
  | succ room ih =>
    funext id
    unfold resolve
    rw [ih, h.plan?_eq, h.serviceIds_eq, h.prewarm_eq, h.constructGuarded_eq]

theorem deferredGet_eq : c'.deferredGet app self = c.deferredGet app self := by
  funext id
  unfold deferredGet
  rw [h.planCount_eq, h.resolve_eq]

theorem get_eq : c'.get app self = c.get app self := by
  funext id
  unfold get
  rw [h.publicTarget_eq, h.deferredGet_eq]

end Reordered

/-! ## Containers of matching graphs -/

variable {f f' : Graph} {lockMode : LockMode} {privateIds privateIds' : List String}

theorem buildLocks_names {g : Graph} {plans : List ServicePlan} {locks : Table Nat}
    (h : buildLocks g plans lockMode = .ok locks) : locks.names =
      if lockMode = .thread then (plans.filter (·.isShared)).map (·.id) else [] := by
  cases lockMode with
  | unguarded =>
    obtain rfl := Except.ok.inj h
    rfl
  | thread =>
    obtain ⟨edges, -, h⟩ := bind_eq_ok.1 h
    obtain rfl := pure_eq_ok.1 h
    rw [Table.names, List.map_map, if_pos rfl]
    rfl

theorem Frozen.aliases_perm (h : Frozen f lockMode privateIds c)
    (h' : Frozen f' lockMode privateIds' c') (matched : Matched f f') (tidy : f.Tidy) :
    c.aliases.Perm c'.aliases := by
  obtain ⟨es, hes, perm⟩ := forall₂_perm h.aliases matched.aliases
  suffices same : c'.aliases = es from same ▸ perm
  rw [← List.forall₂_eq_eq_eq]
  refine (forall₂_comp h'.aliases.flip hes).imp ?_
  rintro e e' ⟨a, ⟨name, target⟩, name', target'⟩
  rw [matched.resolveAliasStrict_eq tidy, target'] at target
  exact Prod.ext (name.symm.trans name') (Except.ok.inj target).symm

theorem Frozen.plans_perm (h : Frozen f lockMode privateIds c)
    (h' : Frozen f' lockMode privateIds' c') (matched : Matched f f') (tidy : f.Tidy) :
    c.plans.Perm c'.plans := by
  obtain ⟨plans, planned, perm⟩ := matched.plans tidy h.plans
  have first := mapM_eq_ok.2 (planned.imp fun _ _ hp => plan_eq_ok.2 hp)
  have second := mapM_eq_ok.2 (h'.plans.imp fun _ _ hp => plan_eq_ok.2 hp)
  exact Except.ok.inj (second.symm.trans first) ▸ perm

/-- Containers of graphs that differ in order and marks differ in order alone. -/
theorem Frozen.reordered (h : Frozen f lockMode privateIds c)
    (h' : Frozen f' lockMode privateIds' c') (matched : Matched f f') (tidy : f.Tidy)
    (hidden : privateIds.Perm privateIds') : Reordered c c' := by
  have plans := h.plans_perm h' matched tidy
  have unique : (c.plans.map (·.id)).Nodup := PlansOf.ids_eq h.plans ▸ tidy.unique
  have names : c.aliases.names = f.aliasIds :=
    (forall₂_map_eq.1 (h.aliases.imp fun _ _ h => h.1)).symm
  have ordered : c.orders.names = c.plans.map (·.id) := by
    rw [h.orders, Table.names, List.map_map]
    rfl
  exact {
    unique := unique
    uniqueAliases := names ▸ tidy.uniqueAliases
    uniqueOrders := ordered ▸ unique
    plans := plans
    aliases := h.aliases_perm h' matched tidy
    privateIds := by
      rw [h.privateIds_eq, h'.privateIds_eq]
      exact hidden.append ((plans.filter _).map _)
    orders := by
      rw [h.orders, h'.orders, ServicePlan.order_perm plans unique h.heights h'.heights]
      exact plans.map _
    locks := by
      rw [buildLocks_names h.locks, buildLocks_names h'.locks]
      split
      · exact (plans.filter _).map _
      · exact .refl _ }

end Container

end Wiring
