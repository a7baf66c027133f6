import Wiring.Container.Construction
import Wiring.Proofs.Container.Plans

/-!
# What happens at run time

A run of a container is laid out as a tree: what is done for one task is done by way of others, each
of which ends with values or with a failure. Whatever holds of all runs is shown by induction on
these trees.
-/

namespace Wiring

namespace Machine

variable {σ : Type}

/-- A service comes under construction. -/
def push (m : Machine σ) (id : String) : Machine σ := { m with stack := m.stack ++ [id] }

/-- The construction that began last is over. -/
def pop (m : Machine σ) : Machine σ := { m with stack := m.stack.dropLast }

/-- A product is kept. -/
def keep (m : Machine σ) (id : String) (v : Value) : Machine σ :=
  { m with instances := m.instances.put id v }

/-- The construction of a service is noted. -/
def construct (m : Machine σ) (app : Application σ) (id : String) : Machine σ :=
  { m with state := app.note (.constructing id) m.state }

end Machine

/-! ## Ends of work -/

namespace Container

variable {σ α β : Type}

/-- The work ends with a result, and leaves the machine as it then is. -/
def Ends (work : Work σ α) (m : Machine σ) (r : Except Failure α) (m' : Machine σ) : Prop :=
  work m = match r with
    | .ok a => .ok a m'
    | .error e => .error e m'

variable {m m' : Machine σ} {x : Work σ α} {f : α → Work σ β} {r : Except Failure β}

/-- All work ends. -/
theorem exists_ends (x : Work σ α) (m : Machine σ) : ∃ r m', Ends x m r m' := by
  unfold Ends
  cases h : x m with
  | ok a m' => exact ⟨.ok a, m', rfl⟩
  | error e m' => exact ⟨.error e, m', rfl⟩

theorem ends_pure {a : α} {r : Except Failure α} :
    Ends (pure a : Work σ α) m r m' ↔ r = .ok a ∧ m' = m := by
  unfold Ends
  show EStateM.Result.ok a m = _ ↔ _
  cases r <;> simp [eq_comm]

theorem ends_throw {e : Failure} {r : Except Failure α} :
    Ends (throw e : Work σ α) m r m' ↔ r = .error e ∧ m' = m := by
  unfold Ends
  show EStateM.Result.error e m = _ ↔ _
  cases r <;> simp [eq_comm]

theorem ends_fromResult {q r : Except Failure α} :
    Ends (fromResult q : Work σ α) m r m' ↔ r = q ∧ m' = m := by
  cases q with
  | ok a => exact ends_pure
  | error e => exact ends_throw

theorem ends_bind : Ends (x >>= f) m r m' ↔
    (∃ e, Ends x m (.error e) m' ∧ r = .error e) ∨
      ∃ a m₁, Ends x m (.ok a) m₁ ∧ Ends (f a) m₁ r m' := by
  unfold Ends
  show EStateM.bind x f m = _ ↔ _
  unfold EStateM.bind
  cases x m <;> cases r <;> simp [eq_comm, and_comm]

theorem ends_get {f : Machine σ → Work σ β} :
    Ends (MonadState.get >>= f) m r m' ↔ Ends (f m) m r m' := Iff.rfl

theorem ends_kept {id : String} {f : Option Value → Work σ β} :
    Ends (kept? id >>= f) m r m' ↔ Ends (f (m.instances.get? id)) m r m' := Iff.rfl

theorem ends_modify {f : Machine σ → Machine σ} {g : Work σ β} :
    Ends (modify f >>= fun _ => g) m r m' ↔ Ends g (f m) r m' := Iff.rfl

theorem ends_observe {r : Except Failure (Except Failure α)} :
    Ends (observe x) m r m' ↔ ∃ q, r = .ok q ∧ Ends x m q m' := by
  unfold Ends observe
  constructor
  · intro h
    cases hx : x m with
    | ok a m₁ =>
      rw [hx] at h
      cases r with
      | ok q =>
        cases h
        exact ⟨_, rfl, rfl⟩
      | error e => cases h
    | error e m₁ =>
      rw [hx] at h
      cases r with
      | ok q =>
        cases h
        exact ⟨_, rfl, rfl⟩
      | error e => cases h
  · rintro ⟨q, rfl, h⟩
    cases q <;> simp [h]

theorem ends_discard {r : Except Failure Unit} :
    Ends (discard x) m r m' ↔ ∃ q, r = q.map (fun _ => ()) ∧ Ends x m q m' := by
  unfold Ends
  show EStateM.map _ x m = _ ↔ _
  unfold EStateM.map
  constructor
  · intro h
    cases hx : x m with
    | ok a m₁ =>
      rw [hx] at h
      cases r with
      | ok q =>
        cases h
        exact ⟨.ok a, rfl, rfl⟩
      | error e => cases h
    | error e m₁ =>
      rw [hx] at h
      cases r with
      | ok q => cases h
      | error e' =>
        cases h
        exact ⟨.error e, rfl, rfl⟩
  · rintro ⟨q, rfl, h⟩
    cases q <;> simp [h, Except.map]

/-! ## Runs -/

/-- Something to be done at run time. -/
inductive Task (σ : Type) where
  /-- Bindings are evaluated, in order. -/
  | evaluate (bindings : List Binding)
  /-- One binding is evaluated. -/
  | value (binding : Binding)
  /-- A call is carried out. -/
  | carryOut (call : Call σ)
  /-- Shared services are built ahead. -/
  | prewarm (ids : List String)
  /-- A service is asked for. -/
  | resolve (id : String)

/-- The call of the factory of a plan, with the values of all its bindings. -/
def callOf (app : Application σ) (plan : ServicePlan) (values : List Value) (state : σ) : Call σ :=
  app.call plan.factory (values.take plan.arguments.length)
    ((plan.keywords.map (·.1)).zip (values.drop plan.arguments.length)) state

/-- The failure of a service that is under construction already. -/
def circular (stack : List String) (id : String) : Failure :=
  .fault (.circularServices (stack.drop (stack.idxOf id) ++ [id])) none

/-- A service is shared, and its product is kept. -/
def Served (m : Machine σ) (plan : ServicePlan) : Prop :=
  plan.isShared = true ∧ ∃ v, m.instances.get? plan.id = some v

/-- `Ran c app self room task m r m'` says that the task, begun in the machine `m`, has ended with
the values or the failure `r` in the machine `m'`. Services are asked for with `room` left. -/
inductive Ran (c : Container) (app : Application σ) (self : Nat) :
    (room : Nat) → Task σ → Machine σ → Except Failure (List Value) → Machine σ → Prop
  | nothing {room : Nat} {m : Machine σ} : Ran c app self room (.evaluate []) m (.ok []) m
  | first {room : Nat} {b : Binding} {bs : List Binding} {m m' : Machine σ} {e : Failure} :
    Ran c app self room (.value b) m (.error e) m' →
      Ran c app self room (.evaluate (b :: bs)) m (.error e) m'
  | next {room : Nat} {b : Binding} {bs : List Binding} {m m₁ m' : Machine σ} {vs : List Value}
    {r : Except Failure (List Value)} :
    Ran c app self room (.value b) m (.ok vs) m₁ → Ran c app self room (.evaluate bs) m₁ r m' →
      Ran c app self room (.evaluate (b :: bs)) m (r.map (vs ++ ·)) m'
  | literal {room : Nat} {v : Value} {m : Machine σ} :
    Ran c app self room (.value (.value v)) m (.ok [v]) m
  | handle {room : Nat} {id : String} {m : Machine σ} :
    Ran c app self room (.value (.deferred id)) m (.ok [.deferred self id]) m
  | service {room : Nat} {id : String} {m m' : Machine σ} {r : Except Failure (List Value)} :
    Ran c app self room (.resolve id) m r m' → Ran c app self room (.value (.service id)) m r m'
  | collection {room : Nat} {tag : String} {items : List Binding} {m m' : Machine σ}
    {r : Except Failure (List Value)} :
    Ran c app self room (.evaluate items) m r m' →
      Ran c app self room (.value (.collection tag items)) m (r.map fun vs => [.list vs]) m'
  | barred {room : Nat} {plan : ServicePlan} {m : Machine σ} : plan.id ∈ m.stack →
      Ran c app self room (.value (.inline plan)) m (.error (circular m.stack plan.id)) m
  | unready {room : Nat} {plan : ServicePlan} {m m' : Machine σ} {e : Failure} :
    plan.id ∉ m.stack →
      Ran c app self room (.evaluate plan.allBindings) (m.push plan.id) (.error e) m' →
      Ran c app self room (.value (.inline plan)) m (.error e) m'.pop
  | called {room : Nat} {plan : ServicePlan} {m m₁ m' : Machine σ} {vs : List Value}
    {r : Except Failure (List Value)} : plan.id ∉ m.stack →
      Ran c app self room (.evaluate plan.allBindings) (m.push plan.id) (.ok vs) m₁ →
      Ran c app self room (.carryOut (callOf app plan vs (m₁.construct app plan.id).state))
        (m₁.construct app plan.id) r m' →
      Ran c app self room (.value (.inline plan)) m r m'.pop
  | finish {room : Nat} {result : Except Failure Value} {state : σ} {m : Machine σ} :
    Ran c app self room (.carryOut (.finish result state)) m (result.map fun v => [v])
      { m with state }
  | demand {room : Nat} {id : String} {state : σ} {resume : Except Failure Value → σ → Call σ}
    {m m₁ m' : Machine σ} {q : Except Failure Value} {r : Except Failure (List Value)} :
    Ran c app self room (.resolve id) { m with state } (q.map fun v => [v]) m₁ →
      Ran c app self room (.carryOut (resume q m₁.state)) m₁ r m' →
      Ran c app self room (.carryOut (.demand id state resume)) m r m'
  | ahead {room : Nat} {m : Machine σ} : Ran c app self room (.prewarm []) m (.ok []) m
  | skip {room : Nat} {id : String} {ids : List String} {m m' : Machine σ}
    {r : Except Failure (List Value)} :
    (∀ plan, c.plan? id = some plan → plan.isShared = true → Served m plan) →
      Ran c app self room (.prewarm ids) m r m' → Ran c app self room (.prewarm (id :: ids)) m r m'
  | warm {room : Nat} {id : String} {ids : List String} {plan : ServicePlan} {m m₁ m' : Machine σ}
    {v : Value} {r : Except Failure (List Value)} :
    c.plan? id = some plan → plan.isShared = true → m.instances.get? plan.id = none →
      Ran c app self room (.value (.inline plan)) m (.ok [v]) m₁ →
      Ran c app self room (.prewarm ids) (m₁.keep plan.id v) r m' →
      Ran c app self room (.prewarm (id :: ids)) m r m'
  | cold {room : Nat} {id : String} {ids : List String} {plan : ServicePlan} {m m' : Machine σ}
    {e : Failure} :
    c.plan? id = some plan → plan.isShared = true → m.instances.get? plan.id = none →
      Ran c app self room (.value (.inline plan)) m (.error e) m' →
      Ran c app self room (.prewarm (id :: ids)) m (.error e) m'
  | deep {id : String} {m : Machine σ} : Ran c app self 0 (.resolve id) m (.error .tooDeep) m
  | unknown {room : Nat} {id : String} {m : Machine σ} : c.plan? id = none →
      Ran c app self (room + 1) (.resolve id) m (.error (.notFound (.str id) c.serviceIds)) m
  | kept {room : Nat} {id : String} {plan : ServicePlan} {m : Machine σ} {v : Value} :
    c.plan? id = some plan → plan.isShared = true → m.instances.get? plan.id = some v →
      Ran c app self (room + 1) (.resolve id) m (.ok [v]) m
  | unprepared {room : Nat} {id : String} {plan : ServicePlan} {m m' : Machine σ} {e : Failure} :
    c.plan? id = some plan → ¬ Served m plan →
      Ran c app self room (.prewarm (c.orderOf id).dropLast) m (.error e) m' →
      Ran c app self (room + 1) (.resolve id) m (.error e) m'
  | meanwhile {room : Nat} {id : String} {plan : ServicePlan} {m m' : Machine σ} {v : Value}
    {vs : List Value} :
    c.plan? id = some plan → ¬ Served m plan → plan.isShared = true → c.locks.has plan.id = true →
      Ran c app self room (.prewarm (c.orderOf id).dropLast) m (.ok vs) m' →
      m'.instances.get? plan.id = some v → Ran c app self (room + 1) (.resolve id) m (.ok [v]) m'
  | built {room : Nat} {id : String} {plan : ServicePlan} {m m₁ m' : Machine σ} {v : Value}
    {vs : List Value} :
    c.plan? id = some plan → ¬ Served m plan → plan.isShared = true →
      Ran c app self room (.prewarm (c.orderOf id).dropLast) m (.ok vs) m₁ →
      (c.locks.has plan.id = true → m₁.instances.get? plan.id = none) →
      Ran c app self room (.value (.inline plan)) m₁ (.ok [v]) m' →
      Ran c app self (room + 1) (.resolve id) m (.ok [v]) (m'.keep plan.id v)
  | broken {room : Nat} {id : String} {plan : ServicePlan} {m m₁ m' : Machine σ} {e : Failure}
    {vs : List Value} :
    c.plan? id = some plan → ¬ Served m plan → plan.isShared = true →
      Ran c app self room (.prewarm (c.orderOf id).dropLast) m (.ok vs) m₁ →
      (c.locks.has plan.id = true → m₁.instances.get? plan.id = none) →
      Ran c app self room (.value (.inline plan)) m₁ (.error e) m' →
      Ran c app self (room + 1) (.resolve id) m (.error e) m'
  | fresh {room : Nat} {id : String} {plan : ServicePlan} {m m₁ m' : Machine σ} {vs : List Value}
    {r : Except Failure (List Value)} :
    c.plan? id = some plan → plan.isShared = false →
      Ran c app self room (.prewarm (c.orderOf id).dropLast) m (.ok vs) m₁ →
      Ran c app self room (.value (.inline plan)) m₁ r m' →
      Ran c app self (room + 1) (.resolve id) m r m'

/-- How many values a task ends with. -/
def Task.width : Task σ → Nat
  | .evaluate bs => bs.length
  | .prewarm _ => 0
  | _ => 1

section Runs

variable {c : Container} {app : Application σ} {self room : Nat} {vs : List Value}

theorem Ran.length {task : Task σ} {q : Except Failure (List Value)}
    (h : Ran c app self room task m q m') : ∀ vs, q = .ok vs → vs.length = task.width := by
  induction h with
  | next _ _ ih₁ ih₂ =>
    intro vs e
    obtain ⟨ws, rfl, rfl⟩ := map_eq_ok.1 e
    simp [ih₁ _ rfl, ih₂ _ rfl, Task.width]
    omega
  | collection _ _ =>
    intro vs e
    obtain ⟨ws, -, rfl⟩ := map_eq_ok.1 e
    rfl
  | @finish _ result _ _ =>
    intro vs e
    obtain ⟨v, -, rfl⟩ := map_eq_ok.1 e
    rfl
  | service _ ih => exact ih
  | called _ _ _ _ ih => exact ih
  | demand _ _ _ ih => exact ih
  | skip _ _ ih => exact ih
  | warm _ _ _ _ _ _ ih => exact ih
  | fresh _ _ _ _ _ ih => exact ih
  | _ =>
    intro vs e
    cases e <;> rfl

theorem Ran.append {as bs : List Binding} {q : Except Failure (List Value)} {m₁ : Machine σ}
    (h : Ran c app self room (.evaluate as) m (.ok vs) m₁)
    (h' : Ran c app self room (.evaluate bs) m₁ q m') :
    Ran c app self room (.evaluate (as ++ bs)) m (q.map (vs ++ ·)) m' := by
  induction as generalizing m vs with
  | nil =>
    cases h
    cases q <;> exact h'
  | cons a as ih =>
    generalize hr : (Except.ok vs : Except Failure (List Value)) = r at h
    cases h with
    | first => cases hr
    | @next _ _ _ _ m₂ _ us r ha h =>
      obtain ⟨ws, rfl, rfl⟩ := map_eq_ok.1 hr.symm
      have rest := Ran.next ha (ih h)
      cases q <;> simpa [Except.map] using rest

theorem Ran.append_error {as : List Binding} (bs : List Binding) {e : Failure}
    (h : Ran c app self room (.evaluate as) m (.error e) m') :
    Ran c app self room (.evaluate (as ++ bs)) m (.error e) m' := by
  induction as generalizing m with
  | nil => cases h
  | cons a as ih =>
    generalize hr : (Except.error e : Except Failure (List Value)) = r at h
    cases h with
    | first ha =>
      cases hr
      exact .first ha
    | next ha h =>
      rename_i r
      cases r with
      | ok => cases hr
      | error e' =>
        cases hr
        exact .next ha (ih h)

/-! ## Work is laid out -/

/-- A single value. -/
abbrev single (q : Except Failure Value) : Except Failure (List Value) := q.map fun v => [v]

section Below

variable {below : String → Work σ Value}

theorem ends_construct {plan : ServicePlan} {m m' : Machine σ} {q : Except Failure Value}
    (h : Ends (evaluate app self below (.inline plan)) m q m') :
    (plan.id ∈ m.stack ∧ q = .error (circular m.stack plan.id) ∧ m' = m) ∨
    plan.id ∉ m.stack ∧ ∃ m₁, m' = m₁.pop ∧ Ends (do
      let arguments ← evaluateAll app self below plan.arguments
      let keywords ← evaluateNamed app self below plan.keywords
      callFactory app below plan.id plan.factory arguments keywords) (m.push plan.id) q m₁ := by
  unfold evaluate enclose at h
  have h := ends_get.1 h
  by_cases barred : plan.id ∈ m.stack
  · simp only [List.contains_eq_mem, barred, decide_true, if_true] at h
    rcases ends_bind.1 h with ⟨e, failed, rfl⟩ | ⟨_, _, passed, -⟩
    · obtain ⟨e, rfl⟩ := ends_throw.1 failed
      cases e
      exact .inl ⟨barred, rfl, rfl⟩
    · obtain ⟨e, -⟩ := ends_throw.1 passed
      cases e
  · simp only [List.contains_eq_mem, barred, decide_false, Bool.false_eq_true, if_false] at h
    rcases ends_bind.1 (ends_modify.1 h) with ⟨e, failed, -⟩ | ⟨result, m₁, inner, rest⟩
    · obtain ⟨_, e, -⟩ := ends_observe.1 failed
      cases e
    · obtain ⟨_, e, inner⟩ := ends_observe.1 inner
      cases e
      obtain ⟨rfl, rfl⟩ := ends_fromResult.1 (ends_modify.1 rest)
      exact .inr ⟨barred, m₁, rfl, inner⟩

/-- What is asked for is laid out. -/
def Answers (c : Container) (app : Application σ) (self room : Nat)
    (below : String → Work σ Value) : Prop :=
  ∀ id m q m', Ends (below id) m q m' → Ran c app self room (.resolve id) m (single q) m'

theorem ran_drive (answers : Answers c app self room below) (call : Call σ) (m : Machine σ)
    (q : Except Failure Value) (m' : Machine σ) (h : Ends (drive below call) m q m') :
    Ran c app self room (.carryOut call) m (single q) m' := by
  induction call generalizing m with
  | finish result state =>
    obtain ⟨rfl, rfl⟩ := ends_fromResult.1 (ends_modify.1 h)
    exact .finish
  | demand id state resume ih =>
    rcases ends_bind.1 (ends_modify.1 h) with ⟨e, failed, -⟩ | ⟨answer, m₁, asked, rest⟩
    · obtain ⟨_, e, -⟩ := ends_observe.1 failed
      cases e
    · obtain ⟨_, e, asked⟩ := ends_observe.1 asked
      cases e
      exact .demand (answers _ _ _ _ asked) (ih _ _ m₁ (ends_get.1 rest))

mutual

theorem ran_value (answers : Answers c app self room below) (b : Binding) (m : Machine σ)
    (q : Except Failure Value) (m' : Machine σ) (h : Ends (evaluate app self below b) m q m') :
    Ran c app self room (.value b) m (single q) m' := by
  cases b with
  | value v =>
    obtain ⟨rfl, rfl⟩ := ends_pure.1 h
    exact .literal
  | service id => exact .service (answers id m q m' h)
  | deferred id =>
    obtain ⟨rfl, rfl⟩ := ends_pure.1 h
    exact .handle
  | collection tag items =>
    unfold evaluate at h
    rcases ends_bind.1 h with ⟨e, failed, rfl⟩ | ⟨vs, m₁, done, rest⟩
    · exact .collection (ran_evaluate answers items m _ m' failed)
    · obtain ⟨rfl, rfl⟩ := ends_pure.1 rest
      exact .collection (ran_evaluate answers items m _ m' done)
  | inline plan =>
    rcases ends_construct h with ⟨barred, rfl, rfl⟩ | ⟨free, m₁, rfl, inner⟩
    · exact .barred barred
    rcases ends_bind.1 inner with ⟨e, failed, rfl⟩ | ⟨arguments, m₂, positional, inner⟩
    · exact .unready free ((ran_evaluate answers plan.arguments _ _ _ failed).append_error _)
    have positional := ran_evaluate answers plan.arguments _ _ _ positional
    have length : arguments.length = plan.arguments.length := positional.length _ rfl
    rcases ends_bind.1 inner with ⟨e, failed, rfl⟩ | ⟨keywords, m₃, named, inner⟩
    · obtain ⟨vs, same, named⟩ := ran_named answers plan.keywords _ _ _ failed
      obtain rfl : vs = .error e := by cases vs <;> simp_all [Except.map]
      exact .unready free (positional.append named)
    · obtain ⟨vs, same, laid⟩ := ran_named answers plan.keywords _ _ _ named
      cases vs with
      | error => cases same
      | ok vs =>
        obtain rfl := Except.ok.inj same
        refine .called free (positional.append laid) ?_
        have call := ran_drive answers _ _ _ _ (ends_get.1 (ends_modify.1 inner))
        simpa [callOf, ← length, Machine.construct] using call

theorem ran_evaluate (answers : Answers c app self room below) (bs : List Binding) (m : Machine σ)
    (q : Except Failure (List Value)) (m' : Machine σ) (h : Ends (evaluateAll app self below bs) m q m') :
    Ran c app self room (.evaluate bs) m q m' := by
  cases bs with
  | nil =>
    obtain ⟨rfl, rfl⟩ := ends_pure.1 h
    exact .nothing
  | cons b bs =>
    unfold evaluateAll at h
    rcases ends_bind.1 h with ⟨e, failed, rfl⟩ | ⟨v, m₁, head, rest⟩
    · exact .first (ran_value answers b m _ m' failed)
    have head := ran_value answers b m _ m₁ head
    rcases ends_bind.1 rest with ⟨e, failed, rfl⟩ | ⟨vs, m₂, tail, rest⟩
    · exact .next head (ran_evaluate answers bs m₁ _ m' failed)
    · obtain ⟨rfl, rfl⟩ := ends_pure.1 rest
      exact .next head (ran_evaluate answers bs m₁ _ m' tail)

theorem ran_named (answers : Answers c app self room below) (ks : List (String × Binding))
    (m : Machine σ) (q : Except Failure (Table Value)) (m' : Machine σ) (h : Ends (evaluateNamed app self below ks) m q m') :
    ∃ vs, q = vs.map (fun vs => (ks.map (·.1)).zip vs) ∧
      Ran c app self room (.evaluate (ks.map (·.2))) m vs m' := by
  cases ks with
  | nil =>
    obtain ⟨rfl, rfl⟩ := ends_pure.1 h
    exact ⟨.ok [], rfl, .nothing⟩
  | cons k ks =>
    obtain ⟨name, b⟩ := k
    unfold evaluateNamed at h
    rcases ends_bind.1 h with ⟨e, failed, rfl⟩ | ⟨v, m₁, head, rest⟩
    · exact ⟨.error e, rfl, .first (ran_value answers b m _ m' failed)⟩
    have head := ran_value answers b m _ m₁ head
    rcases ends_bind.1 rest with ⟨e, failed, rfl⟩ | ⟨vs, m₂, tail, rest⟩
    · obtain ⟨vs, same, tail⟩ := ran_named answers ks m₁ _ m' failed
      obtain rfl : vs = .error e := by cases vs <;> simp_all [Except.map]
      exact ⟨.error e, rfl, .next head tail⟩
    · obtain ⟨rfl, rfl⟩ := ends_pure.1 rest
      obtain ⟨vs, same, laid⟩ := ran_named answers ks m₁ _ m' tail
      cases vs with
      | error => cases same
      | ok vs =>
        obtain rfl := Except.ok.inj same
        exact ⟨.ok (v :: vs), rfl, .next head laid⟩

end

theorem ran_guarded (answers : Answers c app self room below) {plan : ServicePlan}
    {m m' : Machine σ} {q : Except Failure Value} (h : Ends (constructGuarded c app self below plan) m q m') :
    (c.locks.has plan.id = true ∧ ∃ v, m.instances.get? plan.id = some v ∧ q = .ok v ∧ m' = m) ∨
    (c.locks.has plan.id = true → m.instances.get? plan.id = none) ∧
      ((∃ e, q = .error e ∧ Ran c app self room (.value (.inline plan)) m (.error e) m') ∨
        ∃ v m₁, q = .ok v ∧ m' = m₁.keep plan.id v ∧
          Ran c app self room (.value (.inline plan)) m (.ok [v]) m₁) := by
  have construct (h : Ends (constructShared app self below plan) m q m') :
      (∃ e, q = .error e ∧ Ran c app self room (.value (.inline plan)) m (.error e) m') ∨
        ∃ v m₁, q = .ok v ∧ m' = m₁.keep plan.id v ∧
          Ran c app self room (.value (.inline plan)) m (.ok [v]) m₁ := by
    rcases ends_bind.1 h with ⟨e, failed, rfl⟩ | ⟨v, m₁, done, rest⟩
    · exact .inl ⟨e, rfl, ran_value answers _ _ _ _ failed⟩
    · obtain ⟨rfl, rfl⟩ := ends_pure.1 (ends_modify.1 rest)
      exact .inr ⟨v, m₁, rfl, rfl, ran_value answers _ _ _ _ done⟩
  unfold constructGuarded at h
  by_cases locked : c.locks.has plan.id = true
  · rw [if_pos locked] at h
    have h := ends_kept.1 h
    cases kept : m.instances.get? plan.id with
    | some v =>
      rw [kept] at h
      obtain ⟨rfl, rfl⟩ := ends_pure.1 h
      exact .inl ⟨locked, v, rfl, rfl, rfl⟩
    | none =>
      rw [kept] at h
      exact .inr ⟨fun _ => rfl, construct h⟩
  · rw [if_neg locked] at h
    exact .inr ⟨fun locked' => absurd locked' locked, construct h⟩

/-- What is done ahead for one service. -/
def prewarmOne (c : Container) (app : Application σ) (self : Nat) (below : String → Work σ Value)
    (id : String) : Work σ Unit := do
  match c.plan? id with
  | some plan =>
    if plan.isShared && (← kept? id).isNone then
      discard (constructGuarded c app self below plan)
  | none => pure ()

theorem prewarm_eq (id : String) : prewarm c app self below id =
    (c.orderOf id).dropLast.forM (prewarmOne c app self below) := rfl

theorem ran_prewarm (answers : Answers c app self room below) (ids : List String) (m : Machine σ)
    (q : Except Failure Unit) (m' : Machine σ)
    (h : Ends (ids.forM (prewarmOne c app self below)) m q m') :
    Ran c app self room (.prewarm ids) m (q.map fun _ => []) m' := by
  induction ids generalizing m with
  | nil =>
    obtain ⟨rfl, rfl⟩ := ends_pure.1 h
    exact .ahead
  | cons id ids ih =>
    rw [forM_cons] at h
    cases hp : c.plan? id with
    | none =>
      have idle : prewarmOne c app self below id = (pure () : Work σ Unit) := by
        rw [prewarmOne, hp]
      rw [idle] at h
      exact .skip (fun plan hp' => nomatch hp.symm.trans hp') (ih m h)
    | some plan =>
      obtain rfl : plan.id = id := by simpa using List.find?_some hp
      have one : prewarmOne c app self below plan.id = kept? plan.id >>= fun v =>
          if plan.isShared && v.isNone then discard (constructGuarded c app self below plan)
          else pure () := by
        rw [prewarmOne, hp]
      rw [one] at h
      by_cases wanted : plan.isShared = true ∧ m.instances.get? plan.id = none
      · obtain ⟨shared, absent⟩ := wanted
        rcases ends_bind.1 h with ⟨e, failed, rfl⟩ | ⟨_, m₁, done, rest⟩
        · have failed := ends_kept.1 failed
          rw [shared, absent] at failed
          obtain ⟨r, hr, failed⟩ := ends_discard.1 failed
          rcases ran_guarded answers failed with
            ⟨-, v, found, -⟩ | ⟨-, ⟨e', rfl, ran⟩ | ⟨v, m₂, rfl, -⟩⟩
          · exact nomatch absent.symm.trans found
          · cases hr
            exact .cold hp shared absent ran
          · cases hr
        · have done := ends_kept.1 done
          rw [shared, absent] at done
          obtain ⟨r, hr, done⟩ := ends_discard.1 done
          rcases ran_guarded answers done with
            ⟨-, v, found, -⟩ | ⟨-, ⟨e', rfl, ran⟩ | ⟨v, m₂, rfl, rfl, ran⟩⟩
          · exact nomatch absent.symm.trans found
          · cases hr
          · exact .warm hp shared absent ran (ih _ rest)
      · have idle : (if plan.isShared && (m.instances.get? plan.id).isNone then
            discard (constructGuarded c app self below plan)
            else pure () : Work σ Unit) = pure () := by
          rw [if_neg]
          simpa using wanted
        refine .skip (fun plan' hp' shared => ?_) (ih m ?_)
        · obtain rfl := Option.some.inj (hp.symm.trans hp')
          refine ⟨shared, Option.ne_none_iff_exists'.1 fun absent => wanted ⟨shared, absent⟩⟩
        · rcases ends_bind.1 h with ⟨e, failed, rfl⟩ | ⟨_, m₁, done, rest⟩
          · have failed := ends_kept.1 failed
            rw [idle] at failed
            obtain ⟨e, -⟩ := ends_pure.1 failed
            cases e
          · have done := ends_kept.1 done
            rw [idle] at done
            obtain ⟨-, rfl⟩ := ends_pure.1 done
            exact rest

end Below

/-- All that is asked for is laid out. -/
theorem ran_resolve (c : Container) (app : Application σ) (self room : Nat) :
    Answers c app self room (resolve c app self room) := by
  induction room with
  | zero =>
    intro id m q m' h
    obtain ⟨rfl, rfl⟩ := ends_throw.1 h
    exact .deep
  | succ room ih =>
    intro id m q m' h
    unfold resolve at h
    dsimp only at h
    cases hp : c.plan? id with
    | none =>
      rw [hp] at h
      obtain ⟨rfl, rfl⟩ := ends_throw.1 h
      exact .unknown hp
    | some plan =>
      obtain rfl : plan.id = id := by simpa using List.find?_some hp
      simp only [hp] at h
      -- what is done once the services before it are there
      have prepared {r : Except Failure Unit} {m₁ : Machine σ}
          (h : Ends (prewarm c app self (resolve c app self room) plan.id) m r m₁) :
          Ran c app self room (.prewarm (c.orderOf plan.id).dropLast) m (r.map fun _ => []) m₁ :=
        ran_prewarm ih _ _ _ _ (prewarm_eq (c := c) plan.id ▸ h)
      cases shared : plan.isShared with
      | true =>
        rw [if_pos shared] at h
        have h := ends_kept.1 h
        cases found : m.instances.get? plan.id with
        | some v =>
          rw [found] at h
          obtain ⟨rfl, rfl⟩ := ends_pure.1 h
          exact .kept hp shared found
        | none =>
          rw [found] at h
          have unserved : ¬ Served m plan := fun ⟨_, v, found'⟩ => nomatch found.symm.trans found'
          rcases ends_bind.1 h with ⟨e, failed, rfl⟩ | ⟨_, m₁, done, rest⟩
          · exact .unprepared hp unserved (prepared failed)
          have done := prepared done
          rcases ran_guarded ih rest with
            ⟨locked, v, kept, rfl, rfl⟩ | ⟨open', ⟨e, rfl, ran⟩ | ⟨v, m₂, rfl, rfl, ran⟩⟩
          · exact .meanwhile hp unserved shared locked done kept
          · exact .broken hp unserved shared done open' ran
          · exact .built hp unserved shared done open' ran
      | false =>
        rw [if_neg (by simp [shared])] at h
        have unserved : ¬ Served m plan := fun ⟨shared', _⟩ => nomatch shared.symm.trans shared'
        rcases ends_bind.1 h with ⟨e, failed, rfl⟩ | ⟨_, m₁, done, rest⟩
        · exact .unprepared hp unserved (prepared failed)
        · exact .fresh hp shared (prepared done) (ran_value ih _ _ _ _ rest)

end Runs

/-! ## Requests -/

/-- `Serves c app self after m m'` says that requests from the outside, for identifiers and through
handles, have brought the container from the machine `m` to the machine `m'`. `after q s s'` says
what becomes of the application between the answer `q` to a request and the next one. -/
inductive Serves (c : Container) (app : Application σ) (self : Nat)
    (after : Except Failure Value → σ → σ → Prop) (m : Machine σ) : Machine σ → Prop
  | start : Serves c app self after m m
  | get {id : String} {q : Except Failure Value} {m₁ m' : Machine σ} {state : σ} :
    Serves c app self after m m₁ → Ends (c.get app self id) m₁ q m' → after q m'.state state →
      Serves c app self after m { m' with state }
  | handle {id : String} {q : Except Failure Value} {m₁ m' : Machine σ} {state : σ} :
    Serves c app self after m m₁ → Ends (c.deferredGet app self id) m₁ q m' →
      after q m'.state state → Serves c app self after m { m' with state }

section Requests

variable {c : Container} {app : Application σ} {self : Nat}
  {after : Except Failure Value → σ → σ → Prop}

/-- A request through a handle is laid out. -/
theorem ran_deferredGet {id : String} {q : Except Failure Value}
    (h : Ends (c.deferredGet app self id) m q m') :
    Ran c app self (c.planCount + 1) (.resolve id) m (single q) m' :=
  ran_resolve c app self _ id m q m' h

/-- A request for an identifier is one for what it stands for, if it is accepted. -/
theorem ran_get {id : String} {q : Except Failure Value} (h : Ends (c.get app self id) m q m') :
    (∃ e, c.publicTarget id = .error e ∧ q = .error e ∧ m' = m) ∨
      ∃ target, c.publicTarget id = .ok target ∧
        Ran c app self (c.planCount + 1) (.resolve target) m (single q) m' := by
  unfold get at h
  rcases ends_bind.1 h with ⟨e, refused, rfl⟩ | ⟨target, m₁, accepted, rest⟩
  · obtain ⟨same, rfl⟩ := ends_fromResult.1 refused
    exact .inl ⟨e, same.symm, rfl, rfl⟩
  · obtain ⟨same, rfl⟩ := ends_fromResult.1 accepted
    exact .inr ⟨target, same.symm, ran_deferredGet rest⟩

/-- What refused requests and those that are carried out uphold, all requests uphold. -/
theorem Serves.upholds (I : Machine σ → Prop) (start : I m)
    (refused : ∀ m e state, I m → after (.error e) m.state state → I { m with state })
    (carried : ∀ id m q m' state, I m →
      Ran c app self (c.planCount + 1) (.resolve id) m (single q) m' → after q m'.state state →
        I { m' with state })
    (h : Serves c app self after m m') : I m' := by
  induction h with
  | start => exact start
  | get _ ends next ih =>
    rcases ran_get ends with ⟨e, -, rfl, rfl⟩ | ⟨target, -, ran⟩
    · exact refused _ e _ ih next
    · exact carried target _ _ _ _ ih ran next
  | handle _ ends next ih => exact carried _ _ _ _ _ ih (ran_deferredGet ends) next

end Requests

end Container

end Wiring
