import Wiring.Proofs.Container.Instances
import Wiring.Proofs.Container.Tally

/-!
# Plans with others embedded in them

A container that is made of a graph with services embedded in others has the plans that it had
without, but for some of the services that these need: their plans are carried out in place. Each
plan has one place.
-/

namespace Wiring

/-- One leaf of a plan is another, or the plan of the service that the other is. -/
inductive Binding.Grown : Binding → Binding → Prop
  | value {v : Value} : v.Still → Grown (.value v) (.value v)
  | deferred {id : String} : Grown (.deferred id) (.deferred id)
  | service {id : String} : Grown (.service id) (.service id)
  | inline {plan : ServicePlan} : Grown (.service plan.id) (.inline plan)

open Binding

/-- One plan is another, where plans may be in the place of services. -/
structure ServicePlan.Grown (plan plan' : ServicePlan) : Prop where
  id_eq : plan'.id = plan.id
  factory_eq : plan'.factory = plan.factory
  isShared_eq : plan'.isShared = plan.isShared
  length_eq : plan'.arguments.length = plan.arguments.length
  names_eq : plan'.keywords.map (·.1) = plan.keywords.map (·.1)
  leaves : List.Forall₂ Binding.Grown (leavesAll plan.allBindings) (leavesAll plan'.allBindings)
  fill_eq : ∀ vs, fillAll plan'.allBindings vs = fillAll plan.allBindings vs

namespace ServicePlan

variable {plan plan' p q q' : ServicePlan} {path path' : List Nat} {k : Nat}

/-- The plan that is in a place of a plan: in what leaf of it, in what leaf of that, and so on. -/
def part? (plan : ServicePlan) : List Nat → Option ServicePlan
  | [] => some plan
  | k :: path =>
    match (leavesAll plan.allBindings)[k]? with
    | some (.inline q) => part? q path
    | _ => none

theorem part?_cons : plan.part? (k :: path) = some q ↔ ∃ p : ServicePlan,
    (leavesAll plan.allBindings)[k]? = some (.inline p) ∧ p.part? path = some q := by
  rw [part?]
  split
  next p found => simp [found]
  next none => exact ⟨(fun h => nomatch h), fun ⟨p, found, _⟩ => absurd found (none p)⟩

theorem part?_concat (h : plan.part? path = some q)
    (found : (leavesAll q.allBindings)[k]? = some (.inline q')) :
    plan.part? (path ++ [k]) = some q' := by
  induction path generalizing plan with
  | nil =>
    obtain rfl := Option.some.inj h
    exact part?_cons.2 ⟨q', found, rfl⟩
  | cons j path ih =>
    obtain ⟨p, there, h⟩ := part?_cons.1 h
    exact part?_cons.2 ⟨p, there, ih h⟩

theorem made_leaves (plan : ServicePlan) :
    plan.made = plan.id :: (leavesAll plan.allBindings).flatMap Binding.made := by
  rw [made_eq, flatMap_leavesAll made_collection]

theorem id_mem_made_of_part? (h : plan.part? path = some q) : q.id ∈ plan.made := by
  induction path generalizing plan with
  | nil =>
    obtain rfl := Option.some.inj h
    exact plan.id_mem_made
  | cons k path ih =>
    obtain ⟨p, found, h⟩ := part?_cons.1 h
    rw [made_leaves]
    exact List.mem_cons_of_mem _ (List.mem_flatMap.2 ⟨_, List.mem_of_getElem? found, ih h⟩)

/-- What is made in a leaf is not made outside of it. -/
theorem ne_id_of_part? (nodup : plan.made.Nodup)
    (found : (leavesAll plan.allBindings)[k]? = some (.inline p)) (h : p.part? path = some q) :
    plan.id ≠ q.id := fun same => by
  rw [made_leaves] at nodup
  exact (List.nodup_cons.1 nodup).1 (List.mem_flatMap.2
    ⟨_, List.mem_of_getElem? found, same ▸ id_mem_made_of_part? h⟩)

/-- Where no service is made twice, each has one place. -/
theorem part?_inj (nodup : plan.made.Nodup) (h : plan.part? path = some q)
    (h' : plan.part? path' = some q') (same : q.id = q'.id) : path = path' := by
  induction path generalizing plan path' with
  | nil =>
    obtain rfl := Option.some.inj h
    cases path' with
    | nil => rfl
    | cons k' path' =>
      obtain ⟨p', found', h'⟩ := part?_cons.1 h'
      exact absurd same (ne_id_of_part? nodup found' h')
  | cons k path ih =>
    obtain ⟨p, found, h⟩ := part?_cons.1 h
    cases path' with
    | nil =>
      obtain rfl := Option.some.inj h'
      exact absurd same.symm (ne_id_of_part? nodup found h)
    | cons k' path' =>
      obtain ⟨p', found', h'⟩ := part?_cons.1 h'
      rw [made_leaves] at nodup
      have inner := (List.nodup_cons.1 nodup).2
      obtain rfl := index_eq_of_nodup_flatMap inner found found' (id_mem_made_of_part? h)
        (same ▸ id_mem_made_of_part? h')
      obtain rfl : p = p' := by simpa using found.symm.trans found'
      rw [ih ((List.nodup_flatMap.1 inner).1 _ (List.mem_of_getElem? found)) h h']

end ServicePlan

namespace Container

variable {c c' : Container}

/-- The plan `q` is in a place of a plan of the container. -/
structure Part (c : Container) (plan : ServicePlan) (path : List Nat) (q : ServicePlan) : Prop where
  planned : c.plan? plan.id = some plan
  found : plan.part? path = some q

/-- The container `c'` has the plans that `c` has, some of them in places of others. -/
structure Embeds (c c' : Container) : Prop where
  grown : ∀ plan path q, Part c' plan path q → ∃ plan₀, c.plan? q.id = some plan₀ ∧ plan₀.Grown q
  alone : ∀ plan plan' path path' q q', Part c' plan path q → Part c' plan' path' q' →
    q.id = q'.id → plan = plan' ∧ path = path'
  shared : ∀ plan path q, Part c' plan path q → q.isShared = true → plan.isShared = true

end Container

end Wiring
