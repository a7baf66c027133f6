import Wiring.Proofs.Container.Products

/-!
# Products that are counted

An application is watched while it is at work: what its factories return is counted for each
service, and so are the requests that fail. What a shared service is made of is charged to the
product that is kept in the end, or else to a request that fails.
-/

namespace Wiring

/-- What is counted while an application is at work. -/
structure Tally where
  /-- The service that is constructed: its factory is called next. -/
  current : String := ""
  /-- The services whose factories have returned, one entry for each time. -/
  built : List String := []
  /-- How many requests have failed. -/
  failed : Nat := 0

namespace Tally

/-- How often the factory of a service has returned a product. -/
def count (t : Tally) (id : String) : Nat := t.built.count id

/-- The construction of a service is announced. -/
def announced (t : Tally) : Note → Tally
  | .constructing id => { t with current := id }
  | _ => t

/-- The call of the factory of a service is over. -/
def ended (t : Tally) (id : String) : Except Failure Value → Tally
  | .ok _ => { t with built := id :: t.built }
  | .error _ => t

theorem failed_ended (t : Tally) (id : String) (result : Except Failure Value) :
    (t.ended id result).failed = t.failed := by cases result <;> rfl

/-- A request is answered. -/
def answered (t : Tally) : Except Failure Value → Tally
  | .ok _ => t
  | .error _ => { t with failed := t.failed + 1 }

/-- What failed requests account for if each accounts for `share`. -/
def debt (t : Tally) (share : Nat) : Nat := share * t.failed

theorem debt_mono {t t' : Tally} (h : t.failed ≤ t'.failed) (share : Nat) :
    t.debt share ≤ t'.debt share := Nat.mul_le_mul_left share h

theorem debt_answered_error (t : Tally) (e : Failure) (share : Nat) :
    (t.answered (.error e)).debt share = t.debt share + share := Nat.mul_succ share t.failed

end Tally

variable {σ : Type}

/-- A call on behalf of a service, whose product is counted in the end. -/
def Call.tallied (id : String) : Call σ → Tally → Call (σ × Tally)
  | .finish result state, t => .finish result (state, t.ended id result)
  | .demand target state resume, t =>
    .demand target (state, t) fun q s => tallied id (resume q s.1) (s.2.answered q)

/-- The application, while it is watched. -/
def Application.tallied (app : Application σ) : Application (σ × Tally) where
  call factory arguments keywords s :=
    (app.call factory arguments keywords s.1).tallied s.2.current s.2
  note n s := (app.note n s.1, s.2.announced n)

namespace Binding

mutual

/-- The services that are built in the place of a binding, one entry for each plan. -/
def made : Binding → List String
  | .collection _ items => madeAll items
  | .inline plan => plan.id :: (madeAll plan.arguments ++ madeNamed plan.keywords)
  | _ => []

/-- The services that are built in the places of several bindings. -/
def madeAll : List Binding → List String
  | [] => []
  | b :: bs => made b ++ madeAll bs

/-- The services that are built in the places of keyword bindings. -/
def madeNamed : List (String × Binding) → List String
  | [] => []
  | (_, b) :: bs => made b ++ madeNamed bs

end

theorem madeAll_eq (bs : List Binding) : madeAll bs = bs.flatMap made := by
  induction bs with
  | nil => rfl
  | cons b bs ih => rw [madeAll, ih, List.flatMap_cons]

theorem madeNamed_eq (bs : List (String × Binding)) :
    madeNamed bs = (bs.map (·.2)).flatMap made := by
  induction bs with
  | nil => rfl
  | cons b bs ih => rw [madeNamed, ih, List.map_cons, List.flatMap_cons]

theorem made_collection (tag : String) (items : List Binding) :
    made (.collection tag items) = items.flatMap made := by rw [made, madeAll_eq]

theorem made_inline (plan : ServicePlan) :
    made (.inline plan) = plan.id :: plan.allBindings.flatMap made := by
  rw [made, madeAll_eq, madeNamed_eq, Plan.allBindings, List.flatMap_append]

mutual

theorem planCount_eq : ∀ b : Binding, planCount b = (made b).length
  | .value _ | .service _ | .deferred _ => rfl
  | .collection _ items => by
    rw [planCount, made, planCountAll_eq items]
  | .inline plan => by
    rw [planCount, made, planCountAll_eq plan.arguments,
      planCountNamed_eq plan.keywords, List.length_cons, List.length_append]
    omega

theorem planCountAll_eq :
    ∀ bs : List Binding, planCountAll bs = (madeAll bs).length
  | [] => rfl
  | b :: bs => by
    rw [planCountAll, madeAll, planCount_eq b, planCountAll_eq bs,
      List.length_append]

theorem planCountNamed_eq :
    ∀ bs : List (String × Binding), planCountNamed bs = (madeNamed bs).length
  | [] => rfl
  | (_, b) :: bs => by
    rw [planCountNamed, madeNamed, planCount_eq b,
      planCountNamed_eq bs, List.length_append]

end

end Binding

/-- The services that are built by way of a plan: its own, and those of the plans in it. -/
def ServicePlan.made (p : ServicePlan) : List String := Binding.made (.inline p)

theorem ServicePlan.made_eq (p : ServicePlan) :
    p.made = p.id :: p.allBindings.flatMap Binding.made := Binding.made_inline p

theorem ServicePlan.size_eq (p : ServicePlan) : p.size = p.made.length := by
  rw [ServicePlan.made, ← Binding.planCount_eq, Binding.planCount, ServicePlan.size]

theorem ServicePlan.id_mem_made (p : ServicePlan) : p.id ∈ p.made := by
  rw [made_eq]
  exact List.mem_cons_self

namespace Container

open Graph

variable {f : Graph} {c : Container} {app : Application σ} {self room : Nat}
  {lockMode : LockMode} {privateIds : List String} {task : Task (σ × Tally)} {plan : ServicePlan}
  {m m' : Machine (σ × Tally)} {r : Except Failure (List Value)} {t : Tally} {ids : List String}
  {e : String}

/-! ## What a task builds by itself -/

/-- The services that the call of a factory builds, one at most. -/
def yield (id : String) : Except Failure (List Value) → List String
  | .ok _ => [id]
  | .error _ => []

theorem count_yield_le (id : String) (r : Except Failure (List Value)) :
    (yield id r).count e ≤ if id == e then 1 else 0 := by
  cases r with
  | ok => rw [yield, List.count_singleton]
  | error => exact Nat.zero_le _

theorem count_ended (t : Tally) (id : String) (result : Except Failure Value) :
    (t.ended id result).count e = t.count e + (yield id (single result)).count e := by
  cases result with
  | error => rfl
  | ok =>
    show (id :: t.built).count e = t.built.count e + [id].count e
    rw [List.count_cons, List.count_singleton]

/-- The tally stands at `t` when the task begins, and the task builds the services `ids` by itself:
not by asking for services. The task ends with `r`. -/
def Begins (task : Task (σ × Tally)) (m : Machine (σ × Tally)) (r : Except Failure (List Value))
    (t : Tally) (ids : List String) : Prop :=
  match task with
  | .evaluate bs => t = m.state.2 ∧ ids = bs.flatMap Binding.made
  | .value b => t = m.state.2 ∧ ids = b.made
  | .carryOut call => ∃ id k, call = Call.tallied id k t ∧ ids = yield id r
  | .prewarm _ | .resolve _ => t = m.state.2 ∧ ids = []

/-- A call that is over has counted its product. -/
theorem begins_finish {result : Except Failure Value} {state : σ × Tally}
    (h : Begins (.carryOut (.finish result state)) m r t ids) :
    ∃ id, state.2 = t.ended id result ∧ ids = yield id r := by
  obtain ⟨id, k, same, rfl⟩ := h
  cases k with
  | demand => cases same
  | finish =>
    obtain ⟨rfl, rfl⟩ := Call.finish.inj same
    exact ⟨id, rfl, rfl⟩

/-- A call that asks for something goes on from the tally that the answer leaves. -/
theorem begins_demand {target : String} {state : σ × Tally}
    {resume : Except Failure Value → σ × Tally → Call (σ × Tally)}
    (h : Begins (.carryOut (.demand target state resume)) m r t ids) :
    state.2 = t ∧ ∀ q s, Begins (.carryOut (resume q s)) m' r (s.2.answered q) ids := by
  obtain ⟨id, k, same, rfl⟩ := h
  cases k with
  | finish => cases same
  | demand =>
    obtain ⟨rfl, rfl, rfl⟩ := Call.demand.inj same
    exact ⟨rfl, fun q s => ⟨id, _, rfl, rfl⟩⟩

/-- What is under construction is not constructed once more. -/
theorem Ran.idle {σ : Type} {app : Application σ} {m m' : Machine σ}
    (h : Ran c app self room (.value (.inline plan)) m r m') (barred : plan.id ∈ m.stack) :
    m' = m := by
  cases h with
  | barred => rfl
  | unready free => exact absurd barred free
  | called free => exact absurd barred free

/-- Whatever is made of the service is under construction. -/
def Barred (c : Container) (m : Machine σ) (e : String) : Prop :=
  ∀ id plan, c.plan? id = some plan → e ∈ plan.made → id ∈ m.stack

theorem Barred.push {m : Machine σ} (h : Barred c m e) (id : String) : Barred c (m.push id) e :=
  fun a plan hp part => List.mem_append_left _ (h a plan hp part)

theorem Barred.frame {m m' : Machine σ} (h : Barred c m e) (frame : Frame m m') :
    Barred c m' e := fun a plan hp part => frame.stack ▸ h a plan hp part

/-- What a task counts of a service of which all that is made is under construction is no more than
the task builds by itself. -/
theorem Ran.count_le (h : Ran c app.tallied self room task m r m') (begins : Begins task m r t ids)
    (barred : Barred c m e) :
    t.failed ≤ m'.state.2.failed ∧ m'.state.2.count e ≤ t.count e + ids.count e := by
  -- a plan of the container is carried out only where the service is no part of it
  have planned {id : String} {plan : ServicePlan} {m m' : Machine (σ × Tally)}
      {r : Except Failure (List Value)} {room : Nat} (hp : c.plan? id = some plan)
      (barred : Barred c m e) (ran : Ran c app.tallied self room (.value (.inline plan)) m r m')
      (ih : m.state.2.failed ≤ m'.state.2.failed ∧
        m'.state.2.count e ≤ m.state.2.count e + plan.made.count e) :
      m.state.2.failed ≤ m'.state.2.failed ∧ m'.state.2.count e ≤ m.state.2.count e := by
    by_cases part : e ∈ plan.made
    · obtain rfl := id_of_plan? hp
      obtain rfl := ran.idle (barred _ plan hp part)
      exact ⟨Nat.le_refl _, Nat.le_refl _⟩
    · rwa [List.count_eq_zero_of_not_mem part] at ih
  induction h generalizing t ids with
  | nothing | literal | handle | ahead | barred | deep | unknown | kept =>
    obtain ⟨rfl, rfl⟩ := begins
    exact ⟨Nat.le_refl _, Nat.le_add_right _ _⟩
  | first _ ih =>
    obtain ⟨rfl, rfl⟩ := begins
    have head := ih ⟨rfl, rfl⟩ barred
    rw [List.flatMap_cons, List.count_append]
    omega
  | next ran _ ih₁ ih₂ =>
    obtain ⟨rfl, rfl⟩ := begins
    have head := ih₁ ⟨rfl, rfl⟩ barred
    have tail := ih₂ ⟨rfl, rfl⟩ (barred.frame ran.frame)
    rw [List.flatMap_cons, List.count_append]
    omega
  | service _ ih | skip _ _ ih | unprepared _ _ _ ih | meanwhile _ _ _ _ _ _ ih =>
    exact ih begins barred
  | collection _ ih =>
    obtain ⟨rfl, rfl⟩ := begins
    exact ih ⟨rfl, Binding.made_collection _ _⟩ barred
  | unready _ _ ih =>
    obtain ⟨rfl, rfl⟩ := begins
    have inner := ih ⟨rfl, rfl⟩ (barred.push _)
    rw [Binding.made_inline, List.count_cons]
    exact ⟨inner.1, inner.2.trans (Nat.add_le_add_left (Nat.le_add_right _ _) _)⟩
  | @called _ plan m m₁ m' _ r _ ran _ ih₁ ih₂ =>
    obtain ⟨rfl, rfl⟩ := begins
    have inner := ih₁ ⟨rfl, rfl⟩ (barred.push _)
    have call := ih₂ ⟨plan.id, _, rfl, rfl⟩ ((barred.push _).frame (ran.frame.trans (.state _ _)))
    have one := count_yield_le (e := e) plan.id r
    rw [Binding.made_inline, List.count_cons]
    refine ⟨inner.1.trans call.1, ?_⟩
    calc m'.state.2.count e
      _ ≤ m₁.state.2.count e + (yield plan.id r).count e := call.2
      _ ≤ m.state.2.count e + (plan.allBindings.flatMap Binding.made).count e +
          (if plan.id == e then 1 else 0) := Nat.add_le_add inner.2 one
      _ = _ := Nat.add_assoc _ _ _
  | @finish _ result state _ =>
    obtain ⟨id, ended, rfl⟩ := begins_finish begins
    show t.failed ≤ state.2.failed ∧ state.2.count e ≤ _
    rw [ended]
    exact ⟨(t.failed_ended id _).ge, (count_ended t id _).le⟩
  | @demand _ _ _ _ _ m₁ m' q _ ran _ ih₁ ih₂ =>
    obtain ⟨rfl, resumed⟩ := begins_demand begins
    have asked := ih₁ ⟨rfl, rfl⟩ barred
    have rest := ih₂ (resumed q _) (barred.frame ((Frame.state _ _).trans ran.frame))
    have answered : m₁.state.2.failed ≤ (m₁.state.2.answered q).failed ∧
        (m₁.state.2.answered q).count e = m₁.state.2.count e := by
      cases q with
      | ok => exact ⟨Nat.le_refl _, rfl⟩
      | error => exact ⟨Nat.le_succ _, rfl⟩
    refine ⟨asked.1.trans (answered.1.trans rest.1), rest.2.trans ?_⟩
    exact Nat.add_le_add_right (answered.2.le.trans asked.2) _
  | @warm _ _ _ plan _ m₁ _ v _ hp _ _ ran _ ih₁ ih₂ =>
    obtain ⟨rfl, rfl⟩ := begins
    have one := planned hp barred ran (ih₁ ⟨rfl, rfl⟩ barred)
    have later : Barred c m₁ e := barred.frame ran.frame
    have rest := ih₂ ⟨rfl, rfl⟩ later
    exact ⟨one.1.trans rest.1, rest.2.trans (Nat.add_le_add_right one.2 _)⟩
  | cold hp _ _ ran ih =>
    obtain ⟨rfl, rfl⟩ := begins
    exact planned hp barred ran (ih ⟨rfl, rfl⟩ barred)
  | built hp _ _ ahead _ ran ih₁ ih₂ | broken hp _ _ ahead _ ran ih₁ ih₂
  | fresh hp _ ahead ran ih₁ ih₂ =>
    obtain ⟨rfl, rfl⟩ := begins
    have before := ih₁ ⟨rfl, rfl⟩ barred
    have barred := barred.frame ahead.frame
    have one := planned hp barred ran (ih₂ ⟨rfl, rfl⟩ barred)
    exact ⟨before.1.trans one.1, one.2.trans before.2⟩

/-! ## What is charged to what -/

/-- Nothing that the plan is made of is made twice, or in another plan of the container. -/
structure Sole (c : Container) (plan : ServicePlan) : Prop where
  planned : c.plan? plan.id = some plan
  nodup : plan.made.Nodup
  alone : ∀ x ∈ plan.made, ∀ id other, c.plan? id = some other → x ∈ other.made → id = plan.id

/-- How many products are kept of a service. -/
def stock (m : Machine σ) (id : String) : Nat := (m.instances.get? id).isSome.toNat

theorem stock_eq_zero {m : Machine σ} {id : String} (h : ¬ Kept m id) : stock m id = 0 := by
  rw [stock, not_kept.1 h]
  rfl

theorem stock_keep (m : Machine σ) (id x : String) (v : Value) :
    stock (m.keep id v) x = if x = id then 1 else stock m x := by
  unfold stock
  rw [Machine.keep, Table.get?_put]
  split <;> rfl

/-- What failed requests account for of a service that is made by way of a plan. A service with a
plan of its own is kept as soon as it is built, a part of a plan is not. -/
def shareOf (plan : ServicePlan) (e : String) : Nat := if e = plan.id then 0 else 1

/-- What a failure accounts for. -/
def due {α : Type} (share : Nat) : Except Failure α → Nat
  | .ok _ => 0
  | .error _ => share

@[simp] theorem due_map {α β : Type} (share : Nat) (g : α → β) (r : Except Failure α) :
    due share (r.map g) = due share r := by cases r <;> rfl

/-- A construction counts what is in the plan, and the product if there is one. -/
theorem Ran.construct_le (h : Ran c app.tallied self room (.value (.inline plan)) m r m')
    (barred : Barred c (m.push plan.id) e) :
    m.state.2.failed ≤ m'.state.2.failed ∧ m'.state.2.count e ≤ m.state.2.count e +
      (plan.allBindings.flatMap Binding.made).count e + (yield plan.id r).count e := by
  cases h with
  | barred => exact ⟨Nat.le_refl _, (Nat.le_add_right _ _).trans (Nat.le_add_right _ _)⟩
  | unready _ ran => exact ran.count_le ⟨rfl, rfl⟩ barred
  | called free ran call =>
    obtain ⟨failed, count⟩ := ran.count_le ⟨rfl, rfl⟩ barred
    obtain ⟨failed', count'⟩ := call.count_le ⟨plan.id, _, rfl, rfl⟩
      (barred.frame (ran.frame.trans (.state _ _)))
    exact ⟨failed.trans failed', count'.trans (Nat.add_le_add_right count _)⟩

/-- The construction of a service builds whatever it is made of once, and if it fails then only
what a failure accounts for. -/
theorem Ran.share_le (h : Ran c app.tallied self room (.value (.inline plan)) m r m')
    (sole : Sole c plan) (part : e ∈ plan.made) :
    m.state.2.failed ≤ m'.state.2.failed ∧ m'.state.2.count e ≤ m.state.2.count e + 1 ∧
      ∀ x, r = .error x → m'.state.2.count e ≤ m.state.2.count e + shareOf plan e := by
  obtain ⟨failed, count⟩ := h.construct_le fun id other hp hpart => by
    rw [sole.alone e part id other hp hpart]
    exact List.mem_append_right _ (List.mem_singleton.2 rfl)
  -- what is made besides the service itself
  have inside : (plan.allBindings.flatMap Binding.made).count e +
      (if plan.id == e then 1 else 0) ≤ 1 := by
    have := List.nodup_iff_count_le_one.1 sole.nodup e
    rwa [ServicePlan.made_eq, List.count_cons] at this
  have one := count_yield_le (e := e) plan.id r
  refine ⟨failed, by omega, ?_⟩
  rintro x rfl
  rw [yield, List.count_nil] at count
  by_cases same : e = plan.id
  · subst same
    rw [beq_self_eq_true, if_pos rfl] at inside
    omega
  · rw [shareOf, if_neg same]
    omega

/-- A request that is answered is counted if it fails. -/
theorem count_answered (t : Tally) (q : Except Failure Value) (share : Nat) :
    (t.answered q).count e = t.count e ∧
      (t.answered q).debt share = t.debt share + due share q := by
  cases q with
  | ok => exact ⟨rfl, rfl⟩
  | error x => exact ⟨rfl, t.debt_answered_error x share⟩

/-- The other plans of the container have nothing in common with this one. -/
theorem Sole.outside (sole : Sole c plan) {id : String} {other : ServicePlan}
    (hp : c.plan? id = some other) (ne : other.id ≠ plan.id) : ∀ x ∈ plan.made, x ∉ other.made :=
  fun x hx hother => ne ((id_of_plan? hp).trans (sole.alone x hx id other hp hother))

theorem Sole.eq (sole : Sole c plan) {id : String} {other : ServicePlan}
    (hp : c.plan? id = some other) (same : other.id = plan.id) : other = plan := by
  rw [← id_of_plan? hp, same, sole.planned] at hp
  exact (Option.some.inj hp).symm

/-- The construction of a service that was not kept is charged to the product, which is kept. Where
the plan is another one, what `others` says of it goes on to hold. -/
theorem Ran.charged_kept (sole : Sole c plan) (part : e ∈ plan.made) {id : String}
    {other : ServicePlan} {v : Value} (hp : c.plan? id = some other) (absent : ¬ Kept m other.id)
    (h : Ran c app.tallied self room (.value (.inline other)) m (.ok [v]) m')
    (others : (∀ x ∈ plan.made, x ∉ other.made) →
      m'.state.2.count e + stock m plan.id + m.state.2.debt (shareOf plan e) ≤
        m.state.2.count e + stock m' plan.id + m'.state.2.debt (shareOf plan e)) :
    m'.state.2.count e + stock m plan.id + m.state.2.debt (shareOf plan e) ≤
      m.state.2.count e + stock (m'.keep other.id v) plan.id + m'.state.2.debt (shareOf plan e) := by
  rw [stock_keep]
  by_cases same : other.id = plan.id
  · obtain rfl := sole.eq hp same
    obtain ⟨failed, count, -⟩ := h.share_le sole part
    have debt := Tally.debt_mono failed (shareOf other e)
    rw [stock_eq_zero absent, if_pos rfl]
    omega
  · rw [if_neg (Ne.symm same)]
    exact others (sole.outside hp same)

/-- Where the construction fails, it is charged to the failure. -/
theorem Ran.charged_failed (sole : Sole c plan) (part : e ∈ plan.made) {id : String}
    {other : ServicePlan} {x : Failure} (hp : c.plan? id = some other) (absent : ¬ Kept m other.id)
    (h : Ran c app.tallied self room (.value (.inline other)) m (.error x) m')
    (others : (∀ x ∈ plan.made, x ∉ other.made) →
      m'.state.2.count e + stock m plan.id + m.state.2.debt (shareOf plan e) ≤
        m.state.2.count e + stock m' plan.id + m'.state.2.debt (shareOf plan e) +
          shareOf plan e) :
    m'.state.2.count e + stock m plan.id + m.state.2.debt (shareOf plan e) ≤
      m.state.2.count e + stock m' plan.id + m'.state.2.debt (shareOf plan e) +
        shareOf plan e := by
  by_cases same : other.id = plan.id
  · obtain rfl := sole.eq hp same
    obtain ⟨failed, -, count⟩ := h.share_le sole part
    have count := count x rfl
    have debt := Tally.debt_mono failed (shareOf other e)
    rw [stock_eq_zero absent]
    omega
  · exact others (sole.outside hp same)

/-- What is counted of a service that a shared plan is made of is charged to the product that is
kept for the plan, and to failures. -/
theorem Ran.charged (frozen : Frozen f lockMode privateIds c) (sole : Sole c plan)
    (shared : plan.isShared = true) (part : e ∈ plan.made)
    (h : Ran c app.tallied self room task m r m') (begins : Begins task m r t ids)
    (up : Upheld c m) (outside : ∀ x ∈ plan.made, x ∉ ids) :
    m'.state.2.count e + stock m plan.id + t.debt (shareOf plan e) ≤
      t.count e + stock m' plan.id + m'.state.2.debt (shareOf plan e) + due (shareOf plan e) r := by
  have nothing : ∀ x ∈ plan.made, x ∉ ([] : List String) := fun _ _ => List.not_mem_nil
  induction h generalizing t ids with
  | nothing | literal | handle | ahead | barred | deep | unknown | kept =>
    obtain ⟨rfl, rfl⟩ := begins
    exact Nat.le_add_right _ _
  | first _ ih =>
    obtain ⟨rfl, rfl⟩ := begins
    exact ih ⟨rfl, rfl⟩ up fun x hx hin => outside x hx (List.mem_append_left _ hin)
  | @next _ _ _ m m₁ m' _ _ ran _ ih₁ ih₂ =>
    obtain ⟨rfl, rfl⟩ := begins
    rw [List.flatMap_cons] at outside
    have head : m₁.state.2.count e + stock m plan.id + m.state.2.debt _ ≤ _ :=
      ih₁ ⟨rfl, rfl⟩ up fun x hx hin => outside x hx (List.mem_append_left _ hin)
    have tail := ih₂ ⟨rfl, rfl⟩ (ran.upheld frozen up).1
      fun x hx hin => outside x hx (List.mem_append_right _ hin)
    rw [due_map]
    simp only [due] at head
    omega
  | service _ ih => exact ih begins up outside
  | collection _ ih =>
    obtain ⟨rfl, rfl⟩ := begins
    rw [due_map]
    exact ih ⟨rfl, Binding.made_collection _ _⟩ up outside
  | unready _ _ ih =>
    obtain ⟨rfl, rfl⟩ := begins
    rw [Binding.made_inline] at outside
    exact ih ⟨rfl, rfl⟩ up fun x hx hin => outside x hx (List.mem_cons_of_mem _ hin)
  | @called _ other m m₁ m' _ r _ ran _ ih₁ ih₂ =>
    obtain ⟨rfl, rfl⟩ := begins
    rw [Binding.made_inline] at outside
    have inner : m₁.state.2.count e + stock m plan.id + m.state.2.debt (shareOf plan e) ≤
        m.state.2.count e + stock m₁ plan.id + m₁.state.2.debt (shareOf plan e) :=
      ih₁ ⟨rfl, rfl⟩ up fun x hx hin => outside x hx (List.mem_cons_of_mem _ hin)
    have call := ih₂ ⟨other.id, _, rfl, rfl⟩ (ran.upheld frozen up).1 fun x hx hin => by
      cases r with
      | ok => exact outside x hx (List.mem_singleton.1 hin ▸ List.mem_cons_self)
      | error => cases hin
    have call : m'.state.2.count e + stock m₁ plan.id + m₁.state.2.debt (shareOf plan e) ≤
        m₁.state.2.count e + stock m' plan.id + m'.state.2.debt (shareOf plan e) + due _ r := call
    show m'.state.2.count e + _ + _ ≤ _ + stock m' plan.id + m'.state.2.debt _ + _
    omega
  | @finish _ result state _ =>
    obtain ⟨id, ended, rfl⟩ := begins_finish begins
    have count := count_ended (e := e) t id result
    rw [List.count_eq_zero_of_not_mem (outside e part)] at count
    show state.2.count e + _ + _ ≤ _ + _ + state.2.debt _ + _
    rw [ended, count, Tally.debt, Tally.debt, Tally.failed_ended]
    exact Nat.le_add_right _ _
  | @demand _ _ state _ m m₁ m' q _ ran _ ih₁ ih₂ =>
    obtain ⟨rfl, resumed⟩ := begins_demand begins
    have asked : m₁.state.2.count e + stock m plan.id + state.2.debt (shareOf plan e) ≤ _ :=
      ih₁ ⟨rfl, rfl⟩ up nothing
    have rest := ih₂ (resumed q _) (ran.upheld frozen up).1 outside
    obtain ⟨count, debt⟩ := count_answered (e := e) m₁.state.2 q (shareOf plan e)
    rw [due_map] at asked
    omega
  | skip _ _ ih => exact ih begins up outside
  | @warm _ _ _ other m m₁ m' v r hp _ new ran _ ih₁ ih₂ =>
    obtain ⟨rfl, rfl⟩ := begins
    obtain ⟨up₁, done⟩ := ran.upheld frozen up
    have kept := up₁.keep frozen (id_of_plan? hp ▸ hp) (done _ rfl) v
    have one := ran.charged_kept sole part hp (not_kept.2 new) (ih₁ ⟨rfl, rfl⟩ up)
    have rest : m'.state.2.count e + stock (m₁.keep other.id v) plan.id +
      m₁.state.2.debt _ ≤ m₁.state.2.count e + _ + _ + _ := ih₂ ⟨rfl, rfl⟩ kept nothing
    omega
  | @cold _ _ _ other m m' x hp _ new ran ih =>
    obtain ⟨rfl, rfl⟩ := begins
    exact ran.charged_failed sole part hp (not_kept.2 new) (ih ⟨rfl, rfl⟩ up)
  | unprepared _ _ _ ih => exact ih begins up outside
  | meanwhile _ _ _ _ _ _ ih => exact ih begins up outside
  | @built _ id other m m₁ m' v _ hp unserved isShared ahead _ ran ih₁ ih₂ =>
    obtain ⟨rfl, rfl⟩ := begins
    have absent : ¬ Kept m id := fun kept => unserved ⟨isShared, id_of_plan? hp ▸ kept⟩
    have still := ahead.unkept_ahead frozen hp up absent
    have before : m₁.state.2.count e + _ + _ ≤ _ := ih₁ ⟨rfl, rfl⟩ up nothing
    simp only [due] at before
    have one := ran.charged_kept sole part hp (id_of_plan? hp ▸ still)
      (ih₂ ⟨rfl, rfl⟩ (ahead.upheld frozen up).1)
    show m'.state.2.count e + _ + _ ≤ _ + stock (m'.keep other.id v) _ + m'.state.2.debt _ + 0
    omega
  | @broken _ id other m m₁ m' x _ hp unserved isShared ahead _ ran ih₁ ih₂ =>
    obtain ⟨rfl, rfl⟩ := begins
    have absent : ¬ Kept m id := fun kept => unserved ⟨isShared, id_of_plan? hp ▸ kept⟩
    have still := ahead.unkept_ahead frozen hp up absent
    have before : m₁.state.2.count e + _ + _ ≤ _ := ih₁ ⟨rfl, rfl⟩ up nothing
    simp only [due] at before
    have one := ran.charged_failed sole part hp (id_of_plan? hp ▸ still)
      (ih₂ ⟨rfl, rfl⟩ (ahead.upheld frozen up).1)
    simp only [due]
    omega
  | fresh hp single ahead _ ih₁ ih₂ =>
    obtain ⟨rfl, rfl⟩ := begins
    have before := ih₁ ⟨rfl, rfl⟩ up nothing
    have other : _ ≠ plan.id := fun same => by
      rw [sole.eq hp same, shared] at single
      cases single
    have one := ih₂ ⟨rfl, rfl⟩ (ahead.upheld frozen up).1 (sole.outside hp other)
    simp only [due] at before
    omega

/-! ## Requests -/

/-- What failed requests add is counted, and nothing else, between one request and the next. -/
def Counted (q : Except Failure Value) (s s' : σ × Tally) : Prop := s'.2 = s.2.answered q

/-- What is counted of a service that a shared plan is made of is accounted for by the product that
is kept for the plan, and by failed requests. -/
theorem Serves.count_le (frozen : Frozen f lockMode privateIds c) (sole : Sole c plan)
    (shared : plan.isShared = true) (part : e ∈ plan.made) {s : σ}
    (h : Serves c app.tallied self Counted { state := (s, {}) } m) :
    m.state.2.count e ≤ stock m plan.id + m.state.2.debt (shareOf plan e) := by
  suffices all : Upheld c m ∧
      m.state.2.count e ≤ stock m plan.id + m.state.2.debt (shareOf plan e) from all.2
  refine h.upholds (fun m => Upheld c m ∧
    m.state.2.count e ≤ stock m plan.id + m.state.2.debt (shareOf plan e))
    ⟨upheld_start rfl, Nat.zero_le _⟩ ?_ ?_
  · rintro m x ⟨s, t⟩ ⟨up, bound⟩ rfl
    obtain ⟨count, debt⟩ := count_answered (e := e) m.state.2 (.error x) (shareOf plan e)
    refine ⟨up, ?_⟩
    show (m.state.2.answered (.error x)).count e ≤ stock m _ + (m.state.2.answered _).debt _
    omega
  · rintro id m q m' ⟨s, t⟩ ⟨up, bound⟩ ran rfl
    obtain ⟨count, debt⟩ := count_answered (e := e) m'.state.2 q (shareOf plan e)
    have charged := ran.charged frozen sole shared part ⟨rfl, rfl⟩ up fun _ _ => List.not_mem_nil
    rw [due_map] at charged
    refine ⟨(ran.upheld frozen up).1, ?_⟩
    show (m'.state.2.answered q).count e ≤ stock m' _ + (m'.state.2.answered q).debt _
    omega

/-- What is no part of any plan is never built. -/
theorem Serves.count_eq_zero (gone : ∀ id plan, c.plan? id = some plan → e ∉ plan.made) {s : σ}
    (h : Serves c app.tallied self Counted { state := (s, {}) } m) : m.state.2.count e = 0 := by
  refine h.upholds (fun m => m.state.2.count e = 0) rfl ?_ ?_
  · rintro m x ⟨s, t⟩ none rfl
    exact none
  · rintro id m q m' ⟨s, t⟩ none ran rfl
    have barred : Barred c m e := fun id plan hp part => absurd part (gone id plan hp)
    have bound := (ran.count_le ⟨rfl, rfl⟩ barred).2
    show (m'.state.2.answered q).count e = 0
    rw [(count_answered m'.state.2 q 0).1]
    exact Nat.le_zero.1 (none ▸ bound)

end Container

end Wiring
