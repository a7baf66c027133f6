import Wiring.Proofs.Container.Requirements
import Wiring.Proofs.Container.Stack
import Wiring.Proofs.Container.Tally
import Wiring.Proofs.Container.Visibility

/-!
# Names of plans

What is under construction is known by its name, be it a service or a plan in the place of an
argument. So nothing is in its own way as long as no plan is made for one of its own name. Then the
names have ranks that fall from each plan to what it is made of.
-/

namespace Wiring.Container

open Graph

variable {σ : Type} {g : Graph} {c : Container} {lockMode : LockMode} {privateIds : List String}
  {d : Definition} {plan : ServicePlan} {arc : Bool → String → String → Prop} {a b x : String}

/-- A plan named `a` has a plan named `b` in it, or needs the service `b` before. -/
def Leads (c : Container) (a b : String) : Prop :=
  ∃ plan, c.Holds plan ∧ plan.id = a ∧ (b ∈ plan.allBindings.flatMap Binding.made ∨
    b ∈ plan.allBindings.flatMap Binding.eager)

/-- No plan in another one has the name of a service, and no plan is made for one of its own
name. -/
structure Distinct (c : Container) : Prop where
  apart : ∀ id plan, c.plan? id = some plan →
    ∀ x ∈ plan.allBindings.flatMap Binding.made, c.plan? x = none
  loopFree : ∀ a, ¬ Relation.TransGen c.Leads a a

/-- Whether a service is shared. -/
def shares (c : Container) (id : String) : Bool := (c.plan? id).any (·.isShared)

theorem shares_eq (hp : c.plan? a = some plan) : c.shares a = plan.isShared := by
  rw [shares, hp, Option.any_some]

theorem shares_eq_true : c.shares a = true ↔ ∃ plan, c.plan? a = some plan ∧
    plan.isShared = true := by
  rw [shares, Option.any_eq_true]

/-! ## What plans lead to -/

/-- What is made for a plan of the container is made for a service. -/
theorem Holds.made (held : c.Holds plan) : ∀ x ∈ plan.made, x ∈ c.makes := by
  induction held with
  | plan hp => exact fun x hx => mem_makes hp hx
  | @inner host plan _ hb ih =>
    intro x hx
    refine ih x ?_
    rw [ServicePlan.made_eq]
    exact List.mem_cons_of_mem _ (List.mem_flatMap.2 ⟨_, hb, hx⟩)

/-- What a service depends on it leads to. -/
theorem Frozen.leads (frozen : Frozen g lockMode privateIds c)
    (hb : b ∈ ServicePlan.dependenciesOf c.plans a) : c.Leads a b := by
  obtain ⟨d, -, hd, -⟩ := (PlansOf.mem_dependenciesOf frozen.plans).1 hb
  obtain ⟨plan, hp, -⟩ := PlansOf.exists_plan frozen.plans hd
  have needed := (frozen.mem_dependencies hp).1 hb
  rw [Binding.reads_eager.inline] at needed
  exact ⟨plan, .plan hp, id_of_plan? hp, .inr needed⟩

theorem Frozen.leads_path (frozen : Frozen g lockMode privateIds c)
    (path : Walk.Reaches (ServicePlan.dependenciesOf c.plans) a b) :
    Relation.ReflTransGen c.Leads a b :=
  Relation.ReflTransGen.mono (fun _ _ step => frozen.leads step) _ _ path

/-- Every plan of a container is one of a recipe. -/
theorem Frozen.planned (frozen : Frozen g lockMode privateIds c) (held : c.Holds plan) :
    ∃ d, Planned g d plan := by
  induction held with
  | plan hp =>
    obtain ⟨d, -, planned⟩ := PlansOf.exists_definition frozen.plans hp
    exact ⟨d, planned⟩
  | inner _ hb ih =>
    obtain ⟨d, planned⟩ := ih
    obtain ⟨a, -, bound⟩ := forall₂_mem_right planned.allBindings hb
    cases a with
    | inlined m q =>
      obtain ⟨_, planned, same⟩ := bind_inlined.1 bound
      cases same
      exact ⟨q, planned⟩
    | reference r =>
      rw [Graph.bind] at bound
      obtain ⟨_, -, ⟨-, same⟩ | ⟨d, -, same⟩⟩ := bindReference_cases bound
      · cases same
      · split at same <;> cases same
    | collection tag members =>
      obtain ⟨_, -, same⟩ := bind_collection.1 bound
      cases same
    | mixture tag members =>
      simp only [Graph.bind, bind_eq_ok, pure_eq_ok] at bound
      obtain ⟨_, -, same⟩ := bound
      cases same
    | _ => simp [Graph.bind] at bound

/-- What a plan leads to is made by the container. -/
theorem Frozen.leads_makes (frozen : Frozen g lockMode privateIds c) (leads : c.Leads a b) :
    b ∈ c.makes := by
  obtain ⟨plan, held, -, made | needed⟩ := leads
  · refine held.made b ?_
    rw [ServicePlan.made_eq]
    exact List.mem_cons_of_mem _ made
  · obtain ⟨d, planned⟩ := frozen.planned held
    obtain ⟨other, hp⟩ := frozen.plan?_isSome (planned.eager_mem_ids needed)
    exact mem_makes hp (id_of_plan? hp ▸ other.id_mem_made)

/-! ## Plans follow what they lead to -/

/-- Arcs go where plans lead. Of lazy ones nothing is known. -/
def arcs (c : Container) (isLazy : Bool) (a b : String) : Prop := isLazy = false → c.Leads a b

/-- What a reference is bound to is there. -/
theorem Frozen.wired_reference (frozen : Frozen g lockMode privateIds c) {consumer : String}
    {r : Reference} {i : Binding} (bound : g.bindReference consumer r = .ok i)
    (leads : ∀ x ∈ i.eager, c.Leads a x) : Wired c c.arcs a i := by
  obtain ⟨target, -, ⟨-, rfl⟩ | ⟨d, hd, rfl⟩⟩ := bindReference_cases bound
  · exact .value
  · by_cases lazily : (r.lazy || d.isLazy) = true
    · rw [if_pos lazily]
      exact .deferred fun h => nomatch h
    · rw [if_neg lazily] at leads ⊢
      refine .service (fun _ => leads target ?_)
        (frozen.plan?_isSome (mem_ids.2 ⟨d, mem_of_find? hd⟩))
      rw [Binding.eager]
      exact List.mem_singleton.2 rfl

/-- What the arguments of a recipe are bound to is there. -/
theorem Frozen.wired (frozen : Frozen g lockMode privateIds c) (planned : Planned g d plan)
    (held : c.Holds plan) : ∀ b ∈ plan.allBindings, Wired c c.arcs plan.id b := by
  induction d using Definition.induct generalizing plan with
  | step d ih =>
    intro b hb
    obtain ⟨a, ha, bound⟩ := forall₂_mem_right planned.allBindings hb
    have needs : ∀ x ∈ b.eager, c.Leads plan.id x := fun x hx =>
      ⟨plan, held, rfl, .inr (List.mem_flatMap.2 ⟨b, hb, hx⟩)⟩
    -- what the members of a collection are bound to
    have collected {tag : String} {items : List Binding} (same : b = .collection tag items)
        (each : ∀ i ∈ items, ∃ r, g.bindReference d.id r = .ok i) :
        Wired c c.arcs plan.id b := by
      subst same
      refine .collection fun i hi => ?_
      obtain ⟨r, hr⟩ := each i hi
      refine frozen.wired_reference hr fun x hx => needs x ?_
      rw [Binding.reads_eager.collection]
      exact List.mem_flatMap.2 ⟨i, hi, hx⟩
    cases a with
    | literal v =>
      obtain rfl := Except.ok.inj (bound.symm.trans (by rw [Graph.bind]))
      exact .value
    | reference r =>
      rw [Graph.bind] at bound
      exact frozen.wired_reference bound needs
    | collection tag members =>
      obtain ⟨items, each, same⟩ := bind_collection.1 bound
      refine collected same fun i hi => ?_
      obtain ⟨r, -, hr⟩ := forall₂_mem_right each hi
      exact ⟨r, hr⟩
    | mixture tag members =>
      simp only [Graph.bind, bind_eq_ok, pure_eq_ok, mapM_eq_ok] at bound
      obtain ⟨items, each, same⟩ := bound
      refine collected same.symm fun i hi => ?_
      obtain ⟨y, -, r, -, hr⟩ := forall₂_mem_right each hi
      exact ⟨r, hr⟩
    | inlined m q =>
      obtain ⟨inner, planned', rfl⟩ := bind_inlined.1 bound
      have held' := Holds.inner held hb
      refine .inline (fun _ => ⟨plan, held, rfl, .inl ?_⟩) held' (ih m q ha planned' held')
      exact List.mem_flatMap.2 ⟨_, hb, inner.id_mem_made⟩
    | _ => simp [Graph.bind] at bound

theorem Frozen.laid (frozen : Frozen g lockMode privateIds c) : c.Laid c.arcs where
  wired id plan hp := by
    obtain ⟨d, -, planned⟩ := PlansOf.exists_definition frozen.plans hp
    exact frozen.wired planned (.plan hp)
  order id plan hp x hx := by
    obtain ⟨-, t, ht, path⟩ := frozen.mem_before hp hx
    have path : Relation.TransGen c.Leads id x := .head' (frozen.leads ht) (frozen.leads_path path)
    exact Relation.TransGen.mono (fun _ _ leads _ => leads) _ _ path

/-- Names fall in rank from each plan to what it is made of, and there are no more ranks than
plans. -/
theorem Distinct.exists_ranks (distinct : c.Distinct) (frozen : Frozen g lockMode privateIds c) :
    ∃ rank : String → Nat, (∀ id plan, c.plan? id = some plan → rank id < c.planCount) ∧
      ∀ a b, c.arcs false a b → rank b < rank a := by
  have acyclic (a b : String) (leads : c.Leads a b) : ¬ Relation.ReflTransGen c.Leads b a :=
    fun back => distinct.loopFree a (.head' leads back)
  obtain ⟨rank, bound, falling⟩ := exists_rank acyclic c.makes
  refine ⟨rank, fun id plan hp => ?_, fun a b leads => ?_⟩
  · rw [planCount_eq_length]
    exact bound id (mem_makes hp (id_of_plan? hp ▸ plan.id_mem_made))
  · exact falling a b (leads rfl) (frozen.leads_makes (leads rfl))

/-! ## Arcs without cycles -/

/-- A binding is made of what the arcs lead to, and needs what they lead to. -/
theorem Wired.path {b : Binding} (wired : Wired c arc a b) (hx : x ∈ b.made ∨ x ∈ b.eager) :
    Relation.TransGen (arc false) a x := by
  induction wired with
  | value => simp [Binding.made, Binding.eager] at hx
  | deferred => simp [Binding.made, Binding.eager] at hx
  | service eager _ =>
    simp only [Binding.made, Binding.eager, List.not_mem_nil, false_or, List.mem_singleton] at hx
    exact .single (hx ▸ eager)
  | collection _ ih =>
    rw [Binding.made_collection, Binding.reads_eager.collection, List.mem_flatMap,
      List.mem_flatMap] at hx
    rcases hx with ⟨i, hi, hx⟩ | ⟨i, hi, hx⟩
    · exact ih i hi (.inl hx)
    · exact ih i hi (.inr hx)
  | inline eager _ _ ih =>
    rw [Binding.made_inline, Binding.reads_eager.inline, List.mem_cons, List.mem_flatMap,
      List.mem_flatMap] at hx
    rcases hx with (rfl | ⟨i, hi, hx⟩) | ⟨i, hi, hx⟩
    · exact .single eager
    · exact .head eager (ih i hi (.inl hx))
    · exact .head eager (ih i hi (.inr hx))

/-- Where plans follow arcs, so do the plans in them. -/
theorem Laid.holds (laid : Laid c arc) (held : c.Holds plan) :
    ∀ b ∈ plan.allBindings, Wired c arc plan.id b := by
  induction held with
  | plan hp => exact laid.wired _ _ hp
  | inner _ hb ih =>
    cases ih _ hb with
    | inline _ _ inner => exact inner

/-- Where plans follow arcs that make no cycle, no plan is made for one of its own name. -/
theorem Laid.loopFree (laid : Laid c arc) (acyclic : ∀ a, ¬ Relation.TransGen (arc false) a a)
    (a : String) : ¬ Relation.TransGen c.Leads a a := by
  have step {x y : String} (leads : c.Leads x y) : Relation.TransGen (arc false) x y := by
    obtain ⟨plan, held, rfl, hy⟩ := leads
    rw [List.mem_flatMap, List.mem_flatMap] at hy
    rcases hy with ⟨b, hb, hy⟩ | ⟨b, hb, hy⟩
    · exact (laid.holds held b hb).path (.inl hy)
    · exact (laid.holds held b hb).path (.inr hy)
  have whole {x y : String} (path : Relation.TransGen c.Leads x y) :
      Relation.TransGen (arc false) x y := by
    induction path with
    | single leads => exact step leads
    | tail _ leads ih => exact ih.trans (step leads)
  exact fun path => acyclic a (whole path)

end Wiring.Container
