import Wiring.Proofs.Container.Instances

/-!
# The roll of instances

While requests are answered, a roll is kept of all instances: the name of each, which tells where it
was made, and the plan that it was made by. No two have one name. What went into an instance is
found on the roll before it.
-/

namespace Wiring.Container

open Binding

/-- An instance on the roll. -/
structure Item where
  name : Name
  plan : ServicePlan
  /-- The values of the leaves of the plan. -/
  leaves : List Value
  /-- The services that the factory has asked for. -/
  asked : List String
  made : Instance

/-- What has gone into an instance: the values of the leaves of its plan, and what its factory has
obtained. -/
def Item.parts (e : Item) : List Value := e.leaves ++ e.made.obtained

/-- Instances by their numbers. -/
abbrev Roll := List Item

variable {c : Container} {num : Nat} {manner : Manner} {roll : Roll} {name : Nat → Name}
  {x : Name} {e e' : Item} {k n n' : Nat} {b : Binding} {bs bs' : List Binding} {v : Value}
  {vs vs' : List Value} {asked : List String}

/-! ## Values of bindings -/

/-- The value of a binding: of a shared service the one instance that there is, of any other service
or plan an instance that has been made in this place. -/
def Fills (c : Container) (num : Nat) (roll : Roll) (x : Name) : Binding → Value → Prop
  | .value w, v => v = w
  | .deferred id, v => v = .deferred num id
  | .service id, v => ∃ n e, v = .built n ∧ roll[n]? = some e ∧ c.plan? id = some e.plan ∧
      e.name = if e.plan.isShared then ⟨.shared id, []⟩ else x
  | .inline plan, v => ∃ n e, v = .built n ∧ roll[n]? = some e ∧ e.plan = plan ∧ e.name = x
  | .collection _ _, _ => False

/-- The values of bindings in places from `k` on. -/
def FillsAll (c : Container) (num : Nat) (roll : Roll) (name : Nat → Name) (k : Nat)
    (bs : List Binding) (vs : List Value) : Prop :=
  List.Forall₂ (fun p v => Fills c num roll (name p.2) p.1 v) (bs.zipIdx k) vs

theorem Fills.more (h : Fills c num roll x b v) (new : Roll) : Fills c num (roll ++ new) x b v := by
  cases b with
  | service id =>
    obtain ⟨n, e, rfl, hn, rest⟩ := h
    exact ⟨n, e, rfl, getElem?_more new hn, rest⟩
  | inline plan =>
    obtain ⟨n, e, rfl, hn, rest⟩ := h
    exact ⟨n, e, rfl, getElem?_more new hn, rest⟩
  | _ => exact h

namespace FillsAll

theorem nil : FillsAll c num roll name k [] [] := List.Forall₂.nil

theorem single (h : Fills c num roll (name k) b v) : FillsAll c num roll name k [b] [v] :=
  List.Forall₂.cons h List.Forall₂.nil

theorem exists_single (h : FillsAll c num roll name k [b] vs) :
    ∃ v, vs = [v] ∧ Fills c num roll (name k) b v := by
  obtain - | ⟨h, ⟨⟩⟩ := h
  exact ⟨_, rfl, h⟩

theorem exists_cons (h : FillsAll c num roll name k (b :: bs) vs) :
    ∃ v vs', vs = v :: vs' ∧ Fills c num roll (name k) b v ∧
      FillsAll c num roll name (k + 1) bs vs' := by
  obtain - | ⟨h, rest⟩ := h
  exact ⟨_, _, rfl, h, rest⟩

theorem more (h : FillsAll c num roll name k bs vs) (new : Roll) :
    FillsAll c num (roll ++ new) name k bs vs :=
  List.Forall₂.imp (fun _ _ h => h.more new) h

theorem length_eq (h : FillsAll c num roll name k bs vs) : vs.length = bs.length := by
  rw [← List.Forall₂.length_eq h, List.length_zipIdx]

theorem append (h : FillsAll c num roll name k bs vs)
    (h' : FillsAll c num roll name (k + bs.length) bs' vs') :
    FillsAll c num roll name k (bs ++ bs') (vs ++ vs') := by
  unfold FillsAll
  rw [List.zipIdx_append]
  exact List.rel_append h h'

end FillsAll

/-! ## What is written down -/

/-- What is written down about an instance is what has happened. -/
structure Records (c : Container) (num : Nat) (manner : Manner) (roll : Roll) (e : Item) : Prop where
  service : e.made.service = e.plan.id
  factory : e.made.factory = e.plan.factory
  arguments : e.made.arguments = (fillAll e.plan.allBindings e.leaves).take e.plan.arguments.length
  keywords : e.made.keywords = (e.plan.keywords.map (·.1)).zip
    ((fillAll e.plan.allBindings e.leaves).drop e.plan.arguments.length)
  asks : (manner e.made.factory e.made.arguments e.made.keywords).Gets e.asked e.made.obtained
  leaves : FillsAll c num roll e.name.child 0 (leavesAll e.plan.allBindings) e.leaves
  obtained : FillsAll c num roll e.name.child (leavesAll e.plan.allBindings).length
    (e.asked.map .service) e.made.obtained

theorem Records.more (h : Records c num manner roll e) (new : Roll) :
    Records c num manner (roll ++ new) e :=
  { h with leaves := h.leaves.more new, obtained := h.obtained.more new }

/-- All parts have their places, one after the other. -/
theorem Records.parts (h : Records c num manner roll e) : FillsAll c num roll
    e.name.child 0 (leavesAll e.plan.allBindings ++ e.asked.map .service) e.parts :=
  h.leaves.append (by simpa using h.obtained)

/-- Instances are entered one by one, each under a name of its own and after its parts. -/
inductive Written (c : Container) (num : Nat) (manner : Manner) : Roll → Prop
  | nil : Written c num manner []
  | add {roll : Roll} {e : Item} : Written c num manner roll → (∀ e' ∈ roll, e'.name ≠ e.name) →
      Records c num manner roll e → Written c num manner (roll ++ [e])

namespace Written

theorem nodup (h : Written c num manner roll) : (roll.map (·.name)).Nodup := by
  induction h with
  | nil => exact .nil
  | add _ new _ ih =>
    rw [List.map_append, List.map_singleton, List.nodup_append]
    refine ⟨ih, List.nodup_singleton _, fun x hx y hy same => ?_⟩
    obtain ⟨e', he', rfl⟩ := List.mem_map.1 hx
    exact new e' he' (same.trans (List.mem_singleton.1 hy))

/-- A name stands for one instance. -/
theorem inj (h : Written c num manner roll) (hn : roll[n]? = some e) (hn' : roll[n']? = some e')
    (same : e.name = e'.name) : n = n' := by
  obtain ⟨lt, -⟩ := List.getElem?_eq_some_iff.1 hn
  refine (List.getElem?_inj (by rwa [List.length_map]) h.nodup).1 ?_
  rw [List.getElem?_map, List.getElem?_map, hn, hn', Option.map_some, Option.map_some, same]

theorem records (h : Written c num manner roll) (hn : roll[n]? = some e) :
    Records c num manner (roll.take n) e := by
  induction h with
  | nil => simp at hn
  | @add roll e' _ _ records ih =>
    by_cases old : n < roll.length
    · rw [List.getElem?_append_left old] at hn
      rw [List.take_append_of_le_length old.le]
      exact ih hn
    · obtain ⟨lt, -⟩ := List.getElem?_eq_some_iff.1 hn
      rw [List.length_append, List.length_singleton] at lt
      obtain rfl : n = roll.length := by omega
      rw [List.getElem?_append_right le_rfl, Nat.sub_self] at hn
      obtain rfl := Option.some.inj hn
      rwa [List.take_append_of_le_length le_rfl, List.take_length]

/-- What has gone into an instance is on the roll. -/
theorem recorded (h : Written c num manner roll) (hn : roll[n]? = some e) :
    Records c num manner roll e := by
  have := (h.records hn).more (roll.drop n)
  rwa [List.take_append_drop] at this

end Written

/-! ## What instances stem from -/

/-- The instance of number `k` is a part of that of number `n`. -/
def PartOf (roll : Roll) (n k : Nat) : Prop := ∃ e, roll[n]? = some e ∧ .built k ∈ e.parts

/-- The instance is among the values, or a part of what stems from them. -/
inductive Stems (roll : Roll) (vs : List Value) : Nat → Prop
  | here {n : Nat} : .built n ∈ vs → Stems roll vs n
  | part {n k : Nat} : Stems roll vs n → PartOf roll n k → Stems roll vs k

theorem PartOf.more (h : PartOf roll n k) (new : Roll) : PartOf (roll ++ new) n k := by
  obtain ⟨e, hn, hk⟩ := h
  exact ⟨e, getElem?_more new hn, hk⟩

namespace Stems

theorem self (n : Nat) : Stems roll [.built n] n := .here (List.mem_singleton.2 rfl)

theorem more (h : Stems roll vs n) (new : Roll) : Stems (roll ++ new) vs n := by
  induction h with
  | here h => exact .here h
  | part _ part ih => exact ih.part (part.more new)

theorem mono (h : Stems roll vs n) (sub : ∀ v ∈ vs, v ∈ vs') : Stems roll vs' n := by
  induction h with
  | here h => exact .here (sub _ h)
  | part _ part ih => exact ih.part part

/-- What stems from an instance stems from what that stems from. -/
theorem trans (h : Stems roll [.built k] n) (h' : Stems roll vs k) : Stems roll vs n := by
  induction h with
  | here h => exact Value.built.inj (List.mem_singleton.1 h) ▸ h'
  | part _ part ih => exact ih.part part

end Stems

end Wiring.Container
