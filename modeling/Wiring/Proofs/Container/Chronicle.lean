import Wiring.Proofs.Container.Roll

/-!
# Runs that are written down

Whatever is made while a task is done is written down in places that are the task's own, or under
the names of shared services that were not there before. When the task is done, all of it has gone
into what the task came to.
-/

namespace Wiring

namespace Container

open Binding

variable {f : Graph} {c : Container} {num room : Nat} {manner : Manner} {lockMode : LockMode}
  {privateIds : List String} {roll new new' : Roll} {e : Item} {name : Nat → Name}
  {k k' n : Nat} {plan : ServicePlan} {m m₁ m' : Machine Ledger} {task task' whole : Task Ledger}
  {vs vs' : List Value} {r : Except Failure (List Value)} {id : String}

/-! ## What an instance needs -/

/-- The instance of number `n` is one of the service. -/
def Stands (c : Container) (roll : Roll) (id : String) (n : Nat) : Prop :=
  ∃ e, roll[n]? = some e ∧ c.plan? id = some e.plan ∧
    (e.plan.isShared = true → e.name = ⟨.shared id, []⟩)

/-- An instance has parts, and they have parts, until all services are there that it needs. -/
theorem Written.exists_eager (written : Written c num manner roll) (hn : roll[n]? = some e)
    (ht : id ∈ (Binding.inline e.plan).eager) :
    ∃ k, Stems roll [.built n] k ∧ Stands c roll id k := by
  induction n using Nat.strong_induction_on generalizing e with
  | _ n ih =>
    have records := written.records hn
    have partOf {k : Nat} (hk : .built k ∈ e.parts) : Stems roll [.built n] k :=
      .part (.self n) ⟨e, hn, hk⟩
    have earlier {k : Nat} {e : Item} (hk : (roll.take n)[k]? = some e) :
        k < n ∧ roll[k]? = some e := by
      rw [List.getElem?_take] at hk
      split at hk
      next lt => exact ⟨lt, hk⟩
      next => cases hk
    rw [reads_eager.inline, ← flatMap_leavesAll reads_eager.collection] at ht
    obtain ⟨leaf, hleaf, ht⟩ := List.mem_flatMap.1 ht
    obtain ⟨j, hj⟩ := List.mem_iff_getElem?.1 hleaf
    have place : (leaf, j) ∈ (leavesAll e.plan.allBindings ++ e.asked.map Binding.service).zipIdx :=
      List.mem_zipIdx_iff_getElem?.2 (getElem?_more _ hj)
    obtain ⟨v, hv, fills⟩ := forall₂_mem_left records.parts place
    cases leaf with
    | service t =>
      obtain rfl := List.mem_singleton.1 ht
      obtain ⟨k, e', rfl, hk, hp, same⟩ := fills
      exact ⟨k, partOf hv, e', (earlier hk).2, hp, fun shared => by simpa [shared] using same⟩
    | inline q =>
      obtain ⟨k, e', rfl, hk, rfl, -⟩ := fills
      obtain ⟨lt, hk⟩ := earlier hk
      obtain ⟨k', stems, stands⟩ := ih k lt hk ht
      exact ⟨k', stems.trans (partOf hv), stands⟩
    | collection => exact fills.elim
    | _ => cases ht

/-- So it is with all that these services lead to. -/
theorem Written.exists_reached (frozen : Frozen f lockMode privateIds c)
    (written : Written c num manner roll) {a b : String}
    (path : Walk.Reaches (ServicePlan.dependenciesOf c.plans) a b) (stands : Stands c roll a n) :
    ∃ k, Stems roll [.built n] k ∧ Stands c roll b k := by
  induction path with
  | refl => exact ⟨n, .self n, stands⟩
  | tail _ step ih =>
    obtain ⟨k, stems, e, hk, hp, -⟩ := ih
    obtain ⟨k', stems', stands⟩ := written.exists_eager hk ((frozen.mem_dependencies hp).1 step)
    exact ⟨k', stems'.trans stems, stands⟩

/-! ## Tasks and their places -/

/-- The places that a task has to itself, from `k` on. -/
def Task.span (k j : Nat) : Task Ledger → Prop
  | .evaluate bs => k ≤ j ∧ j < k + (leavesAll bs).length
  | .value b => k ≤ j ∧ j < k + b.leaves.length
  | .carryOut _ => k ≤ j
  | .prewarm _ => False
  | .resolve _ => k ≤ j ∧ j < k + 1

/-- The service is the one whose plan the task carries out. -/
def Task.opens (id : String) : Task Ledger → Prop
  | .value (.inline plan) => id = plan.id
  | _ => False

/-- Nothing has been made yet in the places of the task, and the services that they belong to are
under construction. -/
structure Clear (task : Task Ledger) (name : Nat → Name) (k : Nat) (m : Machine Ledger)
    (roll : Roll) : Prop where
  fresh : ∀ j, task.span k j → ∀ e ∈ roll, ¬ (name j).Covers e.name
  apart : ∀ i j, task.span k i → task.span k j → ∀ x, (name i).Covers x → (name j).Covers x → i = j
  rooted : ∀ j, task.span k j → ∀ id, (name j).root = .shared id → id ∈ m.stack ∨ task.opens id

/-- What has been made is on the roll, and so is what is kept. Where a name begins with a shared
service, that is kept or under construction, or it is one of those that are `left`. -/
structure Chronicle (c : Container) (num : Nat) (manner : Manner) (m : Machine Ledger) (roll : Roll)
    (left : String → Prop) : Prop where
  made : m.state.made = roll.map (·.made)
  written : Written c num manner roll
  kept : ∀ id v plan, m.instances.get? id = some v → c.plan? id = some plan →
    ∃ n e, v = .built n ∧ roll[n]? = some e ∧ e.plan = plan ∧ e.name = ⟨.shared id, []⟩
  rooted : ∀ e ∈ roll, ∀ id, e.name.root = .shared id → Kept m id ∨ id ∈ m.stack ∨ left id

theorem Chronicle.mono {left left' : String → Prop} (h : Chronicle c num manner m roll left)
    (imp : ∀ id, left id → left' id) : Chronicle c num manner m roll left' :=
  { h with rooted := fun e he id hr => (h.rooted e he id hr).imp_right (Or.imp_right (imp id)) }

/-- A service comes under construction. -/
theorem Chronicle.push (h : Chronicle c num manner m roll fun _ => False) (id : String) :
    Chronicle c num manner (m.push id) roll fun _ => False :=
  { h with
    rooted := fun e he id hr => (h.rooted e he id hr).imp_right
      (Or.imp_left (List.mem_append_left _)) }

/-- What a task has added to the roll. -/
structure Grows (c : Container) (num : Nat) (manner : Manner) (task : Task Ledger)
    (name : Nat → Name) (k : Nat) (m : Machine Ledger) (roll new : Roll) (m' : Machine Ledger) :
    Prop where
  chronicle : Chronicle c num manner m' (roll ++ new) fun id =>
    id ∉ m.stack ∧ ∃ j, task.span k j ∧ (name j).root = .shared id
  stack : m'.stack = m.stack
  places : ∀ e ∈ new, (∃ j, task.span k j ∧ (name j).Covers e.name) ∨
    ∃ id, e.name.root = .shared id ∧ id ∉ m.stack

/-- The task has its places within those of the whole, which carries out no plan. -/
structure Within (task : Task Ledger) (k' : Nat) (whole : Task Ledger) (k : Nat) : Prop where
  span : ∀ j, task.span k' j → whole.span k j
  bound : ∀ id, ¬ whole.opens id

theorem Within.head (b : Binding) (bs : List Binding) :
    Within (.value b) k (.evaluate (b :: bs)) k where
  span j hj := by
    have hj : k ≤ j ∧ j < k + b.leaves.length := hj
    show k ≤ j ∧ j < k + (leavesAll (b :: bs)).length
    rw [leavesAll, List.length_append]
    omega
  bound _ := id

theorem Within.tail (b : Binding) (bs : List Binding) :
    Within (.evaluate bs) (k + b.leaves.length) (.evaluate (b :: bs)) k where
  span j hj := by
    have hj : k + b.leaves.length ≤ j ∧ j < k + b.leaves.length + (leavesAll bs).length := hj
    show k ≤ j ∧ j < k + (leavesAll (b :: bs)).length
    rw [leavesAll, List.length_append]
    omega
  bound _ := id

theorem Within.answer (id : String) (call : Call Ledger) (k : Nat) :
    Within (.resolve id) k (.carryOut call) k :=
  ⟨fun _ hj => hj.1, fun _ => not_false⟩

theorem Within.resumed (call call' : Call Ledger) (k : Nat) :
    Within (.carryOut call') (k + 1) (.carryOut call) k :=
  ⟨fun _ hj => Nat.le_of_succ_le hj, fun _ => not_false⟩

/-- The leaves of a plan have the first places of the construction. -/
theorem Within.leaves (plan : ServicePlan) (call : Call Ledger) :
    Within (.evaluate plan.allBindings) 0 (.carryOut call) 0 :=
  ⟨fun j _ => Nat.zero_le j, fun _ => id⟩

theorem Within.asked (plan : ServicePlan) (call : Call Ledger) :
    Within (.carryOut call) (leavesAll plan.allBindings).length (.carryOut call) 0 :=
  ⟨fun j _ => Nat.zero_le j, fun _ => id⟩

/-- What is built ahead of a service has no places. -/
theorem Within.ahead (ids : List String) (id : String) (k : Nat) :
    Within (.prewarm ids) k (.resolve id) k :=
  ⟨fun _ hj => hj.elim, fun _ => not_false⟩

theorem Within.construct (plan : ServicePlan) (k : Nat) :
    Within (.value (.inline plan)) k (.resolve plan.id) k :=
  ⟨fun _ hj => hj, fun _ => not_false⟩

namespace Clear

/-- What a part of a task is concerned with is under construction. -/
theorem mem_stack (h : Clear whole name k m roll) (within : Within task k' whole k) {j : Nat}
    (hj : task.span k' j) (hr : (name j).root = .shared id) : id ∈ m.stack :=
  (h.rooted j (within.span j hj) id hr).resolve_right (within.bound id)

theorem first (h : Clear whole name k m roll) (within : Within task k' whole k) :
    Clear task name k' m roll where
  fresh j hj := h.fresh j (within.span j hj)
  apart i j hi hj := h.apart i j (within.span i hi) (within.span j hj)
  rooted _ hj _ hr := .inl (h.mem_stack within hj hr)

/-- After one part of a task the places of the other are clear still. -/
theorem second {k₁ k₂ : Nat} {task₁ task₂ : Task Ledger} (h : Clear whole name k m roll)
    (first : Within task₁ k₁ whole k) (second : Within task₂ k₂ whole k)
    (apart : ∀ j, task₁.span k₁ j → ¬ task₂.span k₂ j)
    (grows : Grows c num manner task₁ name k₁ m roll new m₁) :
    Clear task₂ name k₂ m₁ (roll ++ new) where
  fresh j hj e he covers := by
    rcases List.mem_append.1 he with he | he
    · exact h.fresh j (second.span j hj) e he covers
    rcases grows.places e he with ⟨i, hi, covers'⟩ | ⟨id, hr, free⟩
    · have same := h.apart i j (first.span i hi) (second.span j hj) _ covers' covers
      exact apart i hi (same ▸ hj)
    · exact free (h.mem_stack second hj (covers.1 ▸ hr))
  apart i j hi hj := h.apart i j (second.span i hi) (second.span j hj)
  rooted _ hj _ hr := .inl (grows.stack ▸ h.mem_stack second hj hr)

/-- Where the place of a plan is clear, so are the places of its construction. -/
theorem call (h : Clear (.value (.inline plan)) name k m roll) (call : Call Ledger) :
    Clear (.carryOut call) (name k).child 0 (m.push plan.id) roll := by
  have here : (Task.value (.inline plan)).span k k := ⟨le_rfl, Nat.lt_succ_self k⟩
  refine ⟨fun j _ e he covers => h.fresh k here e he covers.of_child,
    fun i j _ _ x hi hj => hi.child_inj hj, fun j _ id hr => .inl ?_⟩
  rcases h.rooted k here id hr with there | same
  · exact List.mem_append_left _ there
  · exact List.mem_append_right _ (List.mem_singleton.2 same)

/-- After one binding the places of the next ones are clear still. -/
theorem tail {b : Binding} {bs : List Binding} (h : Clear (.evaluate (b :: bs)) name k m roll)
    (grows : Grows c num manner (.value b) name k m roll new m₁) :
    Clear (.evaluate bs) name (k + b.leaves.length) m₁ (roll ++ new) :=
  h.second (.head b bs) (.tail b bs) (fun _ hj hj' => Nat.not_lt.2 hj'.1 hj.2) grows

/-- After an answer the places of what the factory asks for next are clear still. -/
theorem resumed {call call' : Call Ledger} (h : Clear (.carryOut call) name k m roll)
    (grows : Grows c num manner (.resolve id) name k m roll new m₁) :
    Clear (.carryOut call') name (k + 1) m₁ (roll ++ new) :=
  h.second (.answer id call k) (.resumed call call' k) (fun _ hj hj' => Nat.not_lt.2 hj' hj.2) grows

/-- After the leaves of a plan the places of what its factory asks for are clear still. -/
theorem asked {call : Call Ledger} (h : Clear (.carryOut call) name 0 m roll)
    (grows : Grows c num manner (.evaluate plan.allBindings) name 0 m roll new m₁) :
    Clear (.carryOut call) name (leavesAll plan.allBindings).length m₁ (roll ++ new) :=
  h.second (.leaves plan call) (.asked plan call) (fun j hj hj' => by
    have hj : 0 ≤ j ∧ j < 0 + (leavesAll plan.allBindings).length := hj
    have hj' : (leavesAll plan.allBindings).length ≤ j := hj'
    omega) grows

end Clear

namespace Grows

/-- Nothing is left where the places belong to what is under construction. -/
theorem settled (grows : Grows c num manner task name k' m roll new m')
    (h : Clear whole name k m roll) (within : Within task k' whole k) :
    Chronicle c num manner m' (roll ++ new) fun _ => False :=
  grows.chronicle.mono fun _ ⟨free, _, hj, hr⟩ => free (h.mem_stack within hj hr)

theorem nothing (h : Chronicle c num manner m roll fun _ => False) :
    Grows c num manner task name k m roll [] m where
  chronicle := by
    rw [List.append_nil]
    exact h.mono fun _ h => h.elim
  stack := rfl
  places := by simp

theorem append {k₁ k₂ : Nat} {task₁ task₂ : Task Ledger}
    (first : Within task₁ k₁ whole k) (second : Within task₂ k₂ whole k)
    (h : Grows c num manner task₁ name k₁ m roll new m₁)
    (h' : Grows c num manner task₂ name k₂ m₁ (roll ++ new) new' m') :
    Grows c num manner whole name k m roll (new ++ new') m' where
  chronicle := by
    rw [← List.append_assoc]
    refine h'.chronicle.mono fun id ⟨free, j, hj, hr⟩ => ⟨h.stack ▸ free, j, second.span j hj, hr⟩
  stack := h'.stack.trans h.stack
  places e he := by
    rcases List.mem_append.1 he with he | he
    · exact (h.places e he).imp_left fun ⟨j, hj, covers⟩ => ⟨j, first.span j hj, covers⟩
    · rw [← h.stack]
      exact (h'.places e he).imp_left fun ⟨j, hj, covers⟩ => ⟨j, second.span j hj, covers⟩

end Grows

/-- All that has been added to the roll belongs to shared services that were not under
construction. -/
structure Aside (c : Container) (num : Nat) (manner : Manner) (m : Machine Ledger) (roll new : Roll)
    (m' : Machine Ledger) : Prop where
  chronicle : Chronicle c num manner m' (roll ++ new) fun _ => False
  stack : m'.stack = m.stack
  places : ∀ e ∈ new, ∃ id, e.name.root = .shared id ∧ id ∉ m.stack

namespace Aside

theorem nothing (h : Chronicle c num manner m roll fun _ => False) :
    Aside c num manner m roll [] m := ⟨by rwa [List.append_nil], rfl, by simp⟩

theorem append (h : Aside c num manner m roll new m₁)
    (h' : Aside c num manner m₁ (roll ++ new) new' m') :
    Aside c num manner m roll (new ++ new') m' where
  chronicle := by
    rw [← List.append_assoc]
    exact h'.chronicle
  stack := h'.stack.trans h.stack
  places e he := by
    rcases List.mem_append.1 he with he | he
    · exact h.places e he
    · rw [← h.stack]
      exact h'.places e he

/-- It is outside of the places of any task. -/
theorem grows (h : Aside c num manner m roll new m') (task : Task Ledger) (name : Nat → Name)
    (k : Nat) : Grows c num manner task name k m roll new m' :=
  ⟨h.chronicle.mono fun _ h => h.elim, h.stack, fun e he => .inr (h.places e he)⟩

/-- So the place of a service is clear still when what it needs has been built ahead. -/
theorem clear (h : Aside c num manner m roll new m₁)
    (clear : Clear (.resolve plan.id) name k m roll) :
    Clear (.value (.inline plan)) name k m₁ (roll ++ new) :=
  clear.second (.ahead [] plan.id k) (.construct plan k) (fun _ h => h.elim) (h.grows _ name k)

end Aside

/-- All that is new on the roll stems from the values. -/
def Accounts (roll new : Roll) (vs : List Value) : Prop :=
  ∀ n, roll.length ≤ n → n < (roll ++ new).length → Stems (roll ++ new) vs n

theorem Accounts.nothing : Accounts roll [] vs := fun n le lt => by
  rw [List.append_nil] at lt
  omega

theorem Accounts.append (h : Accounts roll new vs)
    (h' : Accounts (roll ++ new) new' vs') :
    Accounts roll (new ++ new') (vs ++ vs') := fun n le lt => by
  rw [← List.append_assoc] at lt ⊢
  by_cases old : n < (roll ++ new).length
  · exact ((h n le old).more new').mono fun v hv => List.mem_append_left _ hv
  · exact (h' n (Nat.le_of_not_lt old) lt).mono fun v hv => List.mem_append_right _ hv

/-! ## Runs -/

/-- All that is new on the roll stems from one of the shared services. -/
def Ahead (c : Container) (roll new : Roll) (ids : List String) : Prop :=
  ∀ n, roll.length ≤ n → n < (roll ++ new).length → ∃ id ∈ ids, ∃ i e,
    (roll ++ new)[i]? = some e ∧ e.name = ⟨.shared id, []⟩ ∧ c.plan? id = some e.plan ∧
      e.plan.isShared = true ∧ Stems (roll ++ new) [.built i] n

/-- What a task that succeeds has come to, and what of it is on the roll. -/
def Comes (c : Container) (num : Nat) (manner : Manner) (task : Task Ledger) (name : Nat → Name)
    (k : Nat) (m : Machine Ledger) (roll : Roll) (vs : List Value) (m' : Machine Ledger) : Prop :=
  match task with
  | .evaluate bs => ∃ new ls, Grows c num manner task name k m roll new m' ∧ vs = fillAll bs ls ∧
      FillsAll c num (roll ++ new) name k (leavesAll bs) ls ∧ Accounts roll new ls
  | .value b => ∃ new ls, Grows c num manner task name k m roll new m' ∧ vs = [b.fill ls] ∧
      FillsAll c num (roll ++ new) name k b.leaves ls ∧ Accounts roll new ls
  | .resolve id => ∃ new v, Grows c num manner task name k m roll new m' ∧ vs = [v] ∧
      Fills c num (roll ++ new) (name k) (.service id) v ∧ Accounts roll new [v]
  | .prewarm ids => ∃ new, Aside c num manner m roll new m' ∧ Ahead c roll new ids
  | .carryOut call => ∀ i asks, call = .making i asks m.state → ∃ new m₁ asked os,
      Grows c num manner task name k m roll new m₁ ∧ asks.Gets asked os ∧
        m' = { m₁ with state := m₁.state.add { i with obtained := i.obtained ++ os } } ∧
          vs = [.built (roll ++ new).length] ∧
            FillsAll c num (roll ++ new) name k (asked.map .service) os ∧
              Accounts roll new os

/-- Where a service is under construction or kept, so are all whose names begin with it. So the name
of a shared service that is neither is clear. -/
theorem Chronicle.clear_shared (h : Chronicle c num manner m roll fun _ => False)
    (absent : m.instances.get? plan.id = none) (free : plan.id ∉ m.stack) :
    Clear (.value (.inline plan)) (fun _ => ⟨.shared plan.id, []⟩) 0 m roll where
  fresh j _ e he covers := by
    rcases h.rooted e he plan.id covers.1 with kept | stacked | left
    · exact not_kept.2 absent kept
    · exact free stacked
    · exact left
  apart i j hi hj := by
    have hi : 0 ≤ i ∧ i < 0 + 1 := hi
    have hj : 0 ≤ j ∧ j < 0 + 1 := hj
    omega
  rooted _ _ _ hr := .inr (Root.shared.inj hr).symm

/-- The instance of a shared service is kept. -/
theorem Grows.keep {v : Value} (hp : c.plan? plan.id = some plan)
    (h : Grows c num manner (.value (.inline plan)) (fun _ => ⟨.shared plan.id, []⟩) 0 m roll new
      m')
    (fills : Fills c num (roll ++ new) ⟨.shared plan.id, []⟩ (.inline plan) v) :
    Chronicle c num manner (m'.keep plan.id v) (roll ++ new) fun _ => False := by
  have chronicle := h.chronicle
  refine ⟨chronicle.made, chronicle.written, fun id w q hw hq => ?_, fun e he id hr => ?_⟩
  · rw [Machine.keep, Table.get?_put] at hw
    split at hw
    next same =>
      subst same
      obtain rfl := Option.some.inj hw
      obtain rfl := Option.some.inj (hp.symm.trans hq)
      obtain ⟨n, e, rfl, hn, same, named⟩ := fills
      exact ⟨n, e, rfl, hn, same, named⟩
    next => exact chronicle.kept id w q hw hq
  · rcases chronicle.rooted e he id hr with kept | stacked | ⟨-, j, -, same⟩
    · exact .inl (kept_keep.2 (.inr kept))
    · exact .inr (.inl stacked)
    · exact .inl (kept_keep.2 (.inl (Root.shared.inj same).symm))

/-- An instance leads to whatever stems from its parts. -/
theorem Stems.of_parts {i : Nat} (hi : roll[i]? = some e) (h : Stems roll e.parts n) :
    Stems roll [.built i] n := by
  induction h with
  | here h => exact .part (.self i) ⟨e, hi, h⟩
  | part _ part ih => exact ih.part part

/-- An instance is entered once its parts are there. -/
theorem comes_inline {call : Call Ledger} {asked : List String} (m₁ : Machine Ledger) (i : Instance)
    (chronicle : Chronicle c num manner m roll fun _ => False)
    (clear : Clear (.value (.inline plan)) name k m roll) (frame : Frame (m.push plan.id) m₁)
    (grows : Grows c num manner (.carryOut call) (name k).child 0 (m.push plan.id) roll new m₁)
    (settled : Chronicle c num manner m₁ (roll ++ new) fun _ => False)
    (records : Records c num manner (roll ++ new) ⟨name k, plan, vs, asked, i⟩)
    (accounts : Accounts roll new (vs ++ i.obtained)) :
    Comes c num manner (.value (.inline plan)) name k m roll [.built (roll ++ new).length]
      ({ m₁ with state := m₁.state.add i } : Machine Ledger).pop := by
  let e : Item := ⟨name k, plan, vs, asked, i⟩
  have here : (Task.value (.inline plan)).span k k := ⟨le_rfl, Nat.lt_succ_self k⟩
  have rooted : ∀ id, (name k).root = .shared id → id ∈ (m.push plan.id).stack := fun id hr => by
    rcases clear.rooted k here id hr with there | same
    · exact List.mem_append_left _ there
    · exact List.mem_append_right _ (List.mem_singleton.2 same)
  have other : ∀ e' ∈ roll ++ new, e'.name ≠ name k := fun e' he' same => by
    rcases List.mem_append.1 he' with he' | he'
    · exact clear.fresh k here e' he' (same ▸ .refl _)
    rcases grows.places e' he' with ⟨j, -, covers⟩ | ⟨id, hr, absent⟩
    · exact Name.not_covers_child_self (same ▸ covers)
    · exact absent (rooted id (same ▸ hr))
  have stack : m₁.stack.dropLast = m.stack := by
    rw [frame.stack, Machine.push, List.dropLast_concat]
  have there : (roll ++ (new ++ [e]))[(roll ++ new).length]? = some e := by
    rw [← List.append_assoc, List.getElem?_append_right le_rfl, Nat.sub_self]
    rfl
  -- where a name begins with what is under construction
  have leave {id : String} (hr : (name k).root = .shared id) : id ∈ m.stack ∨ id ∉ m.stack ∧
      ∃ j, (Task.value (.inline plan)).span k j ∧ (name j).root = .shared id := by
    by_cases there : id ∈ m.stack
    · exact .inl there
    · exact .inr ⟨there, k, here, hr⟩
  refine ⟨new ++ [e], [.built (roll ++ new).length],
    ⟨⟨?made, ?written, fun id v q hv hq => ?kept, fun e' he' id hr => ?rooted⟩, stack,
      fun e' he' => ?places⟩,
    rfl, .single ⟨_, e, rfl, there, rfl, rfl⟩, fun n le lt => ?accounts⟩
  case made =>
    show m₁.state.made ++ [i] = _
    rw [settled.made, ← List.append_assoc]
    simp only [List.map_append]
    rfl
  case written =>
    rw [← List.append_assoc]
    exact settled.written.add other records
  case kept =>
    obtain ⟨n, e', rfl, hn, rest⟩ := settled.kept id v q hv hq
    rw [← List.append_assoc]
    exact ⟨n, e', rfl, getElem?_more _ hn, rest⟩
  case rooted =>
    show Kept m₁ id ∨ id ∈ m₁.stack.dropLast ∨ _
    rw [stack]
    rcases List.mem_append.1 he' with he' | he'
    · rcases chronicle.rooted e' he' id hr with kept | stacked | left
      · exact .inl (frame.grows id kept)
      · exact .inr (.inl stacked)
      · exact left.elim
    rcases List.mem_append.1 he' with he' | he'
    · rcases grows.places e' he' with ⟨j, -, covers⟩ | ⟨id', hr', absent⟩
      · exact .inr (leave (covers.1.symm.trans hr))
      · obtain rfl := Root.shared.inj (hr.symm.trans hr')
        rcases settled.rooted e' (List.mem_append_right roll he') id hr with kept | stacked | left
        · exact .inl kept
        · exact absurd (frame.stack ▸ stacked) absent
        · exact left.elim
    · obtain rfl := List.mem_singleton.1 he'
      exact .inr (leave hr)
  case places =>
    rcases List.mem_append.1 he' with he' | he'
    · rcases grows.places e' he' with ⟨j, -, covers⟩ | ⟨id, hr, absent⟩
      · exact .inl ⟨k, here, covers.of_child⟩
      · exact .inr ⟨id, hr, fun there => absent (List.mem_append_left _ there)⟩
    · obtain rfl := List.mem_singleton.1 he'
      exact .inl ⟨k, here, .refl _⟩
  case accounts =>
    rw [← List.append_assoc] at there lt ⊢
    by_cases old : n < (roll ++ new).length
    · exact .of_parts there ((accounts n le old).more [e])
    · rw [List.length_append, List.length_singleton] at lt
      obtain rfl : n = (roll ++ new).length := by omega
      exact .self _

/-- What has been built ahead for a service goes into the instance of it. -/
theorem Ahead.accounts {i : Nat} {v : Value} (frozen : Frozen f lockMode privateIds c)
    (ahead : Ahead c roll new (c.orderOf id).dropLast) (hp : c.plan? id = some plan)
    (written : Written c num manner (roll ++ (new ++ new'))) (hv : v = .built i)
    (hi : (roll ++ (new ++ new'))[i]? = some e) (he : e.plan = plan)
    (accounts : Accounts (roll ++ new) new' [v]) :
    Accounts roll (new ++ new') [v] := by
  subst hv he
  intro n le lt
  rw [← List.append_assoc] at written hi lt ⊢
  by_cases old : n < (roll ++ new).length
  · obtain ⟨x, hx, j, e', hj, named, hp', shared, stems⟩ := ahead n le old
    -- the services in between are all there, so the instance leads to this one
    obtain ⟨-, t, ht, path⟩ := frozen.mem_before hp hx
    obtain ⟨k, stems₁, stands⟩ := written.exists_eager hi ((frozen.mem_dependencies hp).1 ht)
    obtain ⟨j', stems₂, e'', hj', hp'', named'⟩ := written.exists_reached frozen path stands
    have same : e''.plan = e'.plan := Option.some.inj (hp''.symm.trans hp')
    obtain rfl : j' = j := written.inj hj' (getElem?_more new' hj)
      ((named' (same ▸ shared)).trans named.symm)
    exact (stems.more new').trans (stems₂.trans stems₁)
  · exact accounts n (Nat.le_of_not_lt old) lt

/-- Nothing is clearer than the places of what is done ahead, as there are none. -/
theorem Clear.ahead {ids : List String} : Clear (.prewarm ids) name k m roll :=
  ⟨fun _ h => h.elim, fun _ _ h => h.elim, fun _ h => h.elim⟩

/-- What has been made of a shared service, all of it outside of what was under construction. -/
structure Made (c : Container) (num : Nat) (manner : Manner) (plan : ServicePlan)
    (m : Machine Ledger) (roll : Roll) (v : Value) (m' : Machine Ledger) (new : Roll) : Prop where
  aside : Aside c num manner m roll new (m'.keep plan.id v)
  kept : ∃ n e, v = .built n ∧ (roll ++ new)[n]? = some e ∧ e.plan = plan ∧
    e.name = ⟨.shared plan.id, []⟩
  accounts : Accounts roll new [v]

theorem Comes.shared {v : Value} (hp : c.plan? id = some plan) (free : plan.id ∉ m.stack)
    (h : Comes c num manner (.value (.inline plan)) (fun _ => ⟨.shared plan.id, []⟩) 0 m roll [v]
      m') : ∃ new, Made c num manner plan m roll v m' new := by
  obtain rfl := id_of_plan? hp
  obtain ⟨new, ls, grows, same, fills, accounts⟩ := h
  obtain ⟨w, rfl, fill⟩ := fills.exists_single
  obtain rfl : v = w := (List.cons.inj same).1
  refine ⟨new, ⟨grows.keep hp fill, grows.stack, fun e he => ?_⟩, fill, accounts⟩
  rcases grows.places e he with ⟨j, -, covers⟩ | other
  · exact ⟨plan.id, covers.1, free⟩
  · exact other

/-- What is made of a shared service is ahead of what is made of the next ones. -/
theorem Made.ahead {v : Value} {ids : List String} (h : Made c num manner plan m roll v m' new)
    (hp : c.plan? plan.id = some plan) (shared : plan.isShared = true)
    (ahead : Ahead c (roll ++ new) new' ids) :
    Ahead c roll (new ++ new') (plan.id :: ids) := by
  intro n le lt
  rw [← List.append_assoc] at lt ⊢
  by_cases old : n < (roll ++ new).length
  · obtain ⟨i, e, rfl, hi, rfl, named⟩ := h.kept
    exact ⟨e.plan.id, List.mem_cons_self, i, e, getElem?_more _ hi, named, hp, shared,
      (h.accounts n le old).more new'⟩
  · obtain ⟨x, hx, rest⟩ := ahead n (Nat.le_of_not_lt old) lt
    exact ⟨x, List.mem_cons_of_mem _ hx, rest⟩

/-! ### What a task comes to, by its parts -/

/-- The bindings after the first one come to what they would come to without it. -/
theorem Comes.next {b : Binding} {bs : List Binding} {ls : List Value}
    (grows : Grows c num manner (.value b) name k m roll new m₁)
    (fills : FillsAll c num (roll ++ new) name k b.leaves ls) (accounts : Accounts roll new ls)
    (rest : Comes c num manner (.evaluate bs) name (k + b.leaves.length) m₁ (roll ++ new) vs m') :
    Comes c num manner (.evaluate (b :: bs)) name k m roll (b.fill ls :: vs) m' := by
  obtain ⟨new', ls', grows', rfl, fills', accounts'⟩ := rest
  refine ⟨new ++ new', ls ++ ls', grows.append (.head b bs) (.tail b bs) grows', ?_, ?_,
    accounts.append accounts'⟩
  · rw [fillAll, ← fills.length_eq, List.take_left, List.drop_left]
  · rw [← List.append_assoc]
    exact (fills.more new').append fills'

/-- A plan is carried out by a call of its factory, with what has come of its leaves. -/
theorem Comes.call {ls : List Value} {call : Call Ledger}
    (chronicle : Chronicle c num manner m roll fun _ => False)
    (clear : Clear (.value (.inline plan)) name k m roll) (frame : Frame (m.push plan.id) m')
    (grows : Grows c num manner (.evaluate plan.allBindings) (name k).child 0 (m.push plan.id) roll
      new m₁)
    (fills : FillsAll c num (roll ++ new) (name k).child 0 (leavesAll plan.allBindings) ls)
    (accounts : Accounts roll new ls)
    (same : call = callOf (.making manner) plan (fillAll plan.allBindings ls)
      (m₁.construct (.making manner) plan.id).state)
    (called : Comes c num manner (.carryOut call) (name k).child
      (leavesAll plan.allBindings).length (m₁.construct (.making manner) plan.id) (roll ++ new)
      vs m') :
    Comes c num manner (.value (.inline plan)) name k m roll vs m'.pop := by
  obtain ⟨new', m₂, asked, os, grows', gets, rfl, rfl, fills', accounts'⟩ := called _ _ same
  have whole : Grows c num manner (.carryOut call) (name k).child 0 (m.push plan.id) roll
      (new ++ new') m₂ :=
    grows.append (.leaves plan call) (.asked plan call)
      ⟨grows'.chronicle, grows'.stack, grows'.places⟩
  have settled := whole.settled (clear.call call) ⟨fun _ h => h, fun _ => id⟩
  have fills := fills.more new'
  rw [List.append_assoc] at fills fills'
  let made : Instance := ⟨plan.id, plan.factory,
    (fillAll plan.allBindings ls).take plan.arguments.length,
    (plan.keywords.map (·.1)).zip ((fillAll plan.allBindings ls).drop plan.arguments.length), os⟩
  have done := comes_inline m₂ made chronicle clear ⟨frame.stack, frame.held, frame.grows⟩ whole
    settled ⟨rfl, rfl, rfl, rfl, gets, fills, fills'⟩ (accounts.append accounts')
  rwa [← List.append_assoc] at done

/-- After the answer a factory goes on with what it has obtained. -/
theorem Comes.ask {v : Value} {next : Value → Asks} {i : Instance}
    (grows : Grows c num manner (.resolve id) name k m roll new m₁)
    (fills : Fills c num (roll ++ new) (name k) (.service id) v) (accounts : Accounts roll new [v])
    (rest : Comes c num manner
      (.carryOut (.making { i with obtained := i.obtained ++ [v] } (next v) m₁.state)) name (k + 1)
      m₁ (roll ++ new) vs m') :
    Comes c num manner (.carryOut (.making i (.ask id next) m.state)) name k m roll vs m' := by
  intro i' asks same
  rw [Call.making] at same
  cases asks with
  | enough =>
    rw [Call.making] at same
    cases same
  | ask id' next' =>
    rw [Call.making] at same
    obtain ⟨rfl, -, resumes⟩ := Call.demand.inj same
    obtain ⟨new', m₂, asked, os, grows', gets, rfl, rfl, fills', accounts'⟩ :=
      rest _ _ (congrFun (congrFun resumes (.ok v)) m₁.state)
    refine ⟨new ++ new', m₂, id :: asked, v :: os,
      grows.append (.answer id _ k) (.resumed _ _ k) grows', .ask gets, ?_, ?_, ?_,
      accounts.append accounts'⟩
    · simp
    · rw [List.append_assoc]
    · rw [← List.append_assoc]
      exact ((FillsAll.single fills).more new').append fills'

/-- A shared service is kept once it has been constructed, after all that it needs. -/
theorem Comes.built {v : Value} (frozen : Frozen f lockMode privateIds c)
    (hp : c.plan? plan.id = some plan) (shared : plan.isShared = true)
    (aside : Aside c num manner m roll new m₁)
    (ahead : Ahead c roll new (c.orderOf plan.id).dropLast)
    (made : Made c num manner plan m₁ (roll ++ new) v m' new') :
    Comes c num manner (.resolve plan.id) name k m roll [v] (m'.keep plan.id v) := by
  have whole := aside.append made.aside
  obtain ⟨n, e, hv, hn, same, named⟩ := made.kept
  rw [List.append_assoc] at hn
  refine ⟨new ++ new', v, whole.grows _ _ _, rfl, ⟨n, e, hv, hn, same ▸ hp, ?_⟩, ?_⟩
  · rw [same, if_pos shared, named]
  · exact ahead.accounts frozen hp whole.chronicle.written hv hn same made.accounts

/-- Of a service that is not shared an instance is made where it is asked for. -/
theorem Comes.fresh (frozen : Frozen f lockMode privateIds c)
    (hp : c.plan? plan.id = some plan) (single : plan.isShared = false)
    (aside : Aside c num manner m roll new m₁)
    (ahead : Ahead c roll new (c.orderOf plan.id).dropLast)
    (made : Comes c num manner (.value (.inline plan)) name k m₁ (roll ++ new) vs m') :
    Comes c num manner (.resolve plan.id) name k m roll vs m' := by
  obtain ⟨new', ls, grows, rfl, fills, accounts⟩ := made
  obtain ⟨v, rfl, n, e, hv, hn, same, named⟩ := fills.exists_single
  have whole := (aside.grows (.prewarm []) name k).append (.ahead [] plan.id k) (.construct plan k)
    grows
  rw [List.append_assoc] at hn
  refine ⟨new ++ new', v, whole, rfl, ⟨n, e, hv, hn, same ▸ hp, ?_⟩, ?_⟩
  · rw [same, single, named]
    rfl
  · exact ahead.accounts frozen hp whole.chronicle.written hv hn same accounts

/-- Whatever a task that succeeds makes is written down. -/
theorem Ran.comes (frozen : Frozen f lockMode privateIds c)
    (h : Ran c (.making manner) num room task m r m') (ok : r = .ok vs) (up : Upheld c m)
    (chronicle : Chronicle c num manner m roll fun _ => False) (clear : Clear task name k m roll) :
    Comes c num manner task name k m roll vs m' := by
  induction h generalizing vs roll name k with
  | first | barred | unready | cold | deep | unknown | unprepared | broken => cases ok
  | nothing =>
    obtain rfl := Except.ok.inj ok
    exact ⟨[], [], .nothing chronicle, rfl, .nil, .nothing⟩
  | @next room b bs m m₁ m' us r ran _ ih₁ ih₂ =>
    obtain ⟨ws, rfl, rfl⟩ := map_eq_ok.1 ok
    have head := Within.head (k := k) b bs
    obtain ⟨new, ls, grows, rfl, fills, accounts⟩ := ih₁ rfl up chronicle (clear.first head)
    have rest := ih₂ rfl (ran.upheld frozen up).1 (grows.settled clear head) (clear.tail grows)
    exact .next grows fills accounts rest
  | literal =>
    obtain rfl := Except.ok.inj ok
    exact ⟨[], [_], .nothing chronicle, rfl, .single rfl, .nothing⟩
  | handle =>
    obtain rfl := Except.ok.inj ok
    exact ⟨[], [_], .nothing chronicle, rfl, .single rfl, .nothing⟩
  | service _ ih =>
    obtain ⟨new, v, grows, rfl, fills, accounts⟩ :=
      ih ok up chronicle ⟨clear.fresh, clear.apart, clear.rooted⟩
    exact ⟨new, [v], ⟨grows.chronicle, grows.stack, grows.places⟩, rfl, .single fills, accounts⟩
  | collection _ ih =>
    obtain ⟨ws, rfl, rfl⟩ := map_eq_ok.1 ok
    obtain ⟨new, ls, grows, rfl, fills, accounts⟩ :=
      ih rfl up chronicle ⟨clear.fresh, clear.apart, clear.rooted⟩
    exact ⟨new, ls, ⟨grows.chronicle, grows.stack, grows.places⟩, rfl, fills, accounts⟩
  | @called room plan m m₁ m' us r free evaluated carried ih₁ ih₂ =>
    let call := callOf (.making manner) plan us (m₁.construct (.making manner) plan.id).state
    have clear' := clear.call call
    obtain ⟨new, ls, grows, rfl, fills, accounts⟩ :=
      ih₁ rfl up (chronicle.push plan.id) (clear'.first (.leaves plan call))
    have clear₂ := clear'.asked grows
    have settled := grows.settled clear' (.leaves plan call)
    have frame := evaluated.frame.trans ⟨carried.frame.stack, carried.frame.held,
      carried.frame.grows⟩
    have called := ih₂ ok (evaluated.upheld frozen up).1
      ⟨settled.made, settled.written, settled.kept, settled.rooted⟩
      ⟨clear₂.fresh, clear₂.apart, clear₂.rooted⟩
    exact .call chronicle clear frame grows fills accounts rfl called
  | finish =>
    intro i asks same
    cases asks with
    | enough =>
      obtain ⟨rfl, rfl⟩ := Call.finish.inj same
      obtain rfl := Except.ok.inj ok
      refine ⟨[], _, [], [], .nothing chronicle, .enough, ?_, ?_, .nil, .nothing⟩
      · rw [List.append_nil]
      · rw [chronicle.made, List.length_map, List.append_nil]
    | ask =>
      rw [Call.making] at same
      cases same
  | @demand room id state resume m m₁ m' q r ran rest ih₁ ih₂ =>
    intro i asks same
    cases asks with
    | enough =>
      rw [Call.making] at same
      cases same
    | ask id' next =>
      rw [Call.making] at same
      obtain ⟨rfl, rfl, rfl⟩ := Call.demand.inj same
      cases q with
      | error e =>
        cases rest
        cases ok
      | ok v =>
        obtain ⟨new, w, grows, same, fills, accounts⟩ := ih₁ rfl up chronicle
          (clear.first (.answer id _ k))
        obtain rfl : v = w := (List.cons.inj same).1
        have rest := ih₂ ok (ran.upheld frozen up).1 (grows.settled clear (.answer id _ k))
          (clear.resumed grows)
        have asked := Comes.ask grows fills accounts rest
        rw [Call.making] at asked
        exact asked i (.ask id next) (by rw [Call.making])
  | ahead =>
    refine ⟨[], .nothing chronicle, fun n le lt => ?_⟩
    rw [List.append_nil] at lt
    omega
  | @skip _ id ids _ _ _ _ _ ih =>
    obtain ⟨new, aside, ahead⟩ := ih ok up chronicle (.ahead : Clear _ name k _ _)
    refine ⟨new, aside, fun n le lt => ?_⟩
    obtain ⟨x, hx, rest⟩ := ahead n le lt
    exact ⟨x, List.mem_cons_of_mem id hx, rest⟩
  | @warm room id ids plan m m₁ m' v r hp shared absent ran _ ih₁ ih₂ =>
    obtain rfl := id_of_plan? hp
    obtain ⟨up₁, done⟩ := ran.upheld frozen up
    obtain ⟨new, made⟩ := Comes.shared hp ran.free
      (ih₁ rfl up chronicle (chronicle.clear_shared absent ran.free))
    obtain ⟨new', aside, ahead⟩ := ih₂ ok
      (up₁.keep frozen hp (done _ rfl) v) made.aside.chronicle (.ahead : Clear _ name k _ _)
    exact ⟨new ++ new', made.aside.append aside, made.ahead hp shared ahead⟩
  | @kept room id plan m v hp shared found =>
    obtain rfl := Except.ok.inj ok
    obtain rfl := id_of_plan? hp
    obtain ⟨n, e, rfl, hn, rfl, named⟩ := chronicle.kept plan.id v plan found hp
    refine ⟨[], _, .nothing chronicle, rfl, ⟨n, e, rfl, ?_, hp, ?_⟩, .nothing⟩
    · rwa [List.append_nil]
    · rw [if_pos shared, named]
  | @meanwhile room id plan m m' v us hp unserved shared _ ran found _ =>
    obtain rfl := id_of_plan? hp
    have absent : ¬ Kept m plan.id := fun kept => unserved ⟨shared, kept⟩
    exact absurd ⟨v, found⟩ (ran.unkept_ahead frozen hp up absent)
  | @built room id plan m m₁ m' v us hp unserved shared ran _ ran' ih₁ ih₂ =>
    obtain rfl := Except.ok.inj ok
    obtain rfl := id_of_plan? hp
    have absent : ¬ Kept m plan.id := fun kept => unserved ⟨shared, kept⟩
    have absent' : m₁.instances.get? plan.id = none :=
      not_kept.1 (ran.unkept_ahead frozen hp up absent)
    obtain ⟨new, aside, ahead⟩ := ih₁ rfl up chronicle (.ahead : Clear _ name k _ _)
    obtain ⟨new', made⟩ := Comes.shared hp ran'.free (ih₂ rfl (ran.upheld frozen up).1
      aside.chronicle (aside.chronicle.clear_shared absent' ran'.free))
    exact .built frozen hp shared aside ahead made
  | @fresh room id plan m m₁ m' us r hp single ran ran' ih₁ ih₂ =>
    obtain rfl := id_of_plan? hp
    obtain ⟨new, aside, ahead⟩ := ih₁ rfl up chronicle (.ahead : Clear _ name k _ _)
    exact .fresh frozen hp single aside ahead
      (ih₂ ok (ran.upheld frozen up).1 aside.chronicle (aside.clear clear))

end Container

end Wiring
