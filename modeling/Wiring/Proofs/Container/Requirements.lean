import Mathlib
import Wiring.Proofs.Builder.Compilation
import Wiring.Proofs.Container.Log

/-!
# What construction orders list

Whatever graph a container is made of, the construction order of a service lists what the arcs of
the graph that are not lazy lead to from the service, and nothing else. Each service stands there
once, and after all that its own arcs lead to. That there is such an order is known from the
heights: they could not have been measured if services went around in a circle.
-/

namespace Wiring

open Container

variable {g : Graph} {c : Container} {lockMode : LockMode} {privateIds : List String}
  {plan : ServicePlan}

namespace Container.Frozen

open Graph

variable {id x y : String}

theorem mem_planned (frozen : Frozen g lockMode privateIds c) :
    id ∈ ServicePlan.planned c.plans ↔ id ∈ g.ids := by
  rw [ServicePlan.planned, PlansOf.ids_eq frozen.plans]

/-- Dependencies lead where arcs lead that are not lazy. -/
theorem reaches_iff (frozen : Frozen g lockMode privateIds c) :
    Walk.Reaches (ServicePlan.dependenciesOf c.plans) x y ↔
      Relation.ReflTransGen (g.Arc false) x y := by
  have step (a b : String) := @PlansOf.mem_dependenciesOf g a b c.plans frozen.plans
  constructor
  · exact Relation.ReflTransGen.mono (fun a b h => (step a b).1 h) _ _
  · exact Relation.ReflTransGen.mono (fun a b h => (step a b).2 h) _ _

/-- The construction order of a service lists what it leads to. -/
theorem mem_orderOf (frozen : Frozen g lockMode privateIds c) (there : id ∈ g.ids) :
    x ∈ c.orderOf id ↔ Relation.ReflTransGen (g.Arc false) id x := by
  rw [frozen.orderOf_eq there, ← frozen.reaches_iff]
  exact ServicePlan.mem_order (fun a _ b => PlansOf.dependencies_planned frozen.plans)
    (frozen.mem_planned.2 there)

/-- A construction order ends with its service. -/
theorem orderOf_split (frozen : Frozen g lockMode privateIds c) (hp : c.plan? id = some plan) :
    c.orderOf id = (c.orderOf id).dropLast ++ [id] := by
  obtain ⟨d, hd, -⟩ := PlansOf.exists_definition frozen.plans hp
  obtain ⟨before, order, -, -⟩ := @ServicePlan.order_eq id c.plans c.heights
    (List.ne_nil_of_mem (List.mem_of_find?_eq_some hp))
  rw [frozen.orderOf_eq (mem_ids.2 ⟨d, mem_of_find? hd⟩), order, List.dropLast_concat]

theorem orderOf_nodup (frozen : Frozen g lockMode privateIds c) (hp : c.plan? id = some plan) :
    (c.orderOf id).Nodup := by
  obtain ⟨d, hd, -⟩ := PlansOf.exists_definition frozen.plans hp
  rw [frozen.orderOf_eq (mem_ids.2 ⟨d, mem_of_find? hd⟩)]
  exact ServicePlan.order_nodup

/-- Services that one service leads to have its heights below them, so they do not lead back. -/
theorem acyclic (frozen : Frozen g lockMode privateIds c) (arc : g.Arc false x y) :
    ¬ Relation.ReflTransGen (g.Arc false) y x := fun back =>
  ServicePlan.heights_acyclic frozen.heights
    (.head' ((PlansOf.mem_dependenciesOf frozen.plans).2 arc) (frozen.reaches_iff.2 back))

end Container.Frozen

namespace Graph

/-- The construction order of a service in any container: it lists the service last, nothing twice,
all that arcs lead to that are not lazy and nothing else, and before each service what the arcs of
that one lead to. -/
theorem freeze_orders (frozen : freeze g lockMode privateIds = .ok c) (hp : plan ∈ c.plans) :
    (∃ before, c.orderOf plan.id = before ++ [plan.id]) ∧ (c.orderOf plan.id).Nodup ∧
      (∀ x, x ∈ c.orderOf plan.id ↔ Relation.ReflTransGen (g.Arc false) plan.id x) ∧
      ∀ before x after, c.orderOf plan.id = before ++ x :: after →
        ∀ y, g.Arc false x y → y ∈ before := by
  have frozen := freeze_eq_ok.1 frozen
  have there : plan.id ∈ g.ids := frozen.mem_planned.1 (List.mem_map.2 ⟨plan, hp, rfl⟩)
  obtain ⟨d, hd⟩ := exists_find? there
  obtain ⟨found, hp', -⟩ := PlansOf.exists_plan frozen.plans hd
  refine ⟨⟨_, frozen.orderOf_split hp'⟩, frozen.orderOf_nodup hp',
    fun x => frozen.mem_orderOf there, ?_⟩
  intro before x after split y arc
  have sorted := frozen.order_sorted hp'
  exact sorted before x after split y ((PlansOf.mem_dependenciesOf frozen.plans).2 arc)

/-- A meal is cooked in a pot and of a sauce, both over one flame that the sauce knows by another
name. The guest is asked in no earlier than the meal is there. -/
def kitchen : Graph where
  definitions := [
    { id := "meal", factory := some (.simple "Meal")
      arguments := [
        .collection "tools" [⟨"pot", false, false⟩, ⟨"guest", false, true⟩],
        .inlined 0 { id := "sauce", factory := some (.simple "Sauce")
                     arguments := [.reference ⟨"fire", false, false⟩] }] },
    { id := "pot", factory := some (.simple "Pot")
      arguments := [.reference ⟨"flame", false, false⟩] },
    { id := "guest", factory := some (.simple "Guest")
      arguments := [.reference ⟨"meal", false, false⟩] },
    { id := "flame", factory := some (.simple "Flame") }]
  aliases := [⟨"fire", "flame", true⟩]

theorem freeze_orders_kitchen : ∃ c, freeze kitchen .thread [] = .ok c ∧
    c.orderOf "meal" = ["flame", "pot", "meal"] ∧ ∃ plan ∈ c.plans, plan.id = "meal" ∧
      ∀ x, x ∈ ["flame", "pot", "meal"] ↔ Relation.ReflTransGen (kitchen.Arc false) "meal" x := by
  have laid : (freeze kitchen .thread []).map (fun c => (c.orderOf "meal",
      c.plans.map (·.id))) = .ok (["flame", "pot", "meal"], ["meal", "pot", "guest", "flame"]) := by
    cbv
  obtain ⟨c, frozen, read⟩ := map_eq_ok.1 laid
  obtain ⟨order, ids⟩ := Prod.mk.inj read
  obtain ⟨plan, hp, same⟩ : ∃ plan ∈ c.plans, plan.id = "meal" :=
    List.mem_map.1 (ids ▸ List.mem_cons_self)
  refine ⟨c, frozen, order, plan, hp, same, fun x => ?_⟩
  have listed := (freeze_orders frozen hp).2.2.1 x
  rwa [same, order] at listed

end Graph

end Wiring
