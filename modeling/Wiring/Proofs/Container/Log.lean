import Wiring.Proofs.Container.Tally

/-!
# What is written down

A run can be written down: which services are asked for, and what becomes of their plans, each entry
with the machine that it is made in. What is kept at any moment is what was kept before the run, and
then the products that are written down, each of them once.
-/

namespace Wiring.Container

/-- What is written down at run time. -/
inductive Entry (σ : Type) where
  /-- A service is asked for in the machine `m`, and `r` comes of it. -/
  | asked (id : String) (r : Except Failure (List Value)) (m : Machine σ)
  /-- The plan that the container has for a service has been carried out, with `r`. The machine is
  `m` then, and the product is yet to be kept. -/
  | carried (plan : ServicePlan) (r : Except Failure (List Value)) (m : Machine σ)

namespace Entry

variable {σ : Type}

/-- The machine that an entry is made in. -/
def machine : Entry σ → Machine σ
  | .asked _ _ m | .carried _ _ m => m

/-- The product of a shared service, if the entry tells of one. -/
def product? : Entry σ → Option (String × Value)
  | .carried plan (.ok [v]) _ => if plan.isShared then some (plan.id, v) else none
  | _ => none

/-- The products of shared services, in the order in which they are written down. -/
def products (log : List (Entry σ)) : Table Value := log.filterMap product?

end Entry

open Graph Entry

variable {σ : Type} {f : Graph} {c : Container} {app : Application σ} {self room : Nat}
  {lockMode : LockMode} {privateIds : List String} {task : Task σ} {plan : ServicePlan}
  {m m₁ m' : Machine σ} {r : Except Failure (List Value)} {vs : List Value} {id : String} {v : Value}
  {log : List (Entry σ)}

/-- `Logged c app self room task m r m' log` says that the task has run as `Ran` has it, and that
`log` has been written down meanwhile. -/
inductive Logged (c : Container) (app : Application σ) (self : Nat) : (room : Nat) → Task σ →
    Machine σ → Except Failure (List Value) → Machine σ → List (Entry σ) → Prop
  | nothing {room : Nat} {m : Machine σ} : Logged c app self room (.evaluate []) m (.ok []) m []
  | first {room : Nat} {b : Binding} {bs : List Binding} {m m' : Machine σ} {e : Failure}
    {log : List (Entry σ)} :
    Logged c app self room (.value b) m (.error e) m' log →
      Logged c app self room (.evaluate (b :: bs)) m (.error e) m' log
  | next {room : Nat} {b : Binding} {bs : List Binding} {m m₁ m' : Machine σ} {vs : List Value}
    {r : Except Failure (List Value)} {log log' : List (Entry σ)} :
    Logged c app self room (.value b) m (.ok vs) m₁ log →
      Logged c app self room (.evaluate bs) m₁ r m' log' →
      Logged c app self room (.evaluate (b :: bs)) m (r.map (vs ++ ·)) m' (log ++ log')
  | literal {room : Nat} {v : Value} {m : Machine σ} :
    Logged c app self room (.value (.value v)) m (.ok [v]) m []
  | handle {room : Nat} {id : String} {m : Machine σ} :
    Logged c app self room (.value (.deferred id)) m (.ok [.deferred self id]) m []
  | service {room : Nat} {id : String} {m m' : Machine σ} {r : Except Failure (List Value)}
    {log : List (Entry σ)} :
    Logged c app self room (.resolve id) m r m' log →
      Logged c app self room (.value (.service id)) m r m' log
  | collection {room : Nat} {tag : String} {items : List Binding} {m m' : Machine σ}
    {r : Except Failure (List Value)} {log : List (Entry σ)} :
    Logged c app self room (.evaluate items) m r m' log →
      Logged c app self room (.value (.collection tag items)) m (r.map fun vs => [.list vs]) m' log
  | barred {room : Nat} {plan : ServicePlan} {m : Machine σ} : plan.id ∈ m.stack →
      Logged c app self room (.value (.inline plan)) m (.error (circular m.stack plan.id)) m []
  | unready {room : Nat} {plan : ServicePlan} {m m' : Machine σ} {e : Failure}
    {log : List (Entry σ)} :
    plan.id ∉ m.stack →
      Logged c app self room (.evaluate plan.allBindings) (m.push plan.id) (.error e) m' log →
      Logged c app self room (.value (.inline plan)) m (.error e) m'.pop log
  | called {room : Nat} {plan : ServicePlan} {m m₁ m' : Machine σ} {vs : List Value}
    {r : Except Failure (List Value)} {log log' : List (Entry σ)} :
    plan.id ∉ m.stack →
      Logged c app self room (.evaluate plan.allBindings) (m.push plan.id) (.ok vs) m₁ log →
      Logged c app self room (.carryOut (callOf app plan vs (m₁.construct app plan.id).state))
        (m₁.construct app plan.id) r m' log' →
      Logged c app self room (.value (.inline plan)) m r m'.pop (log ++ log')
  | finish {room : Nat} {result : Except Failure Value} {state : σ} {m : Machine σ} :
    Logged c app self room (.carryOut (.finish result state)) m (result.map fun v => [v])
      { m with state } []
  | demand {room : Nat} {id : String} {state : σ} {resume : Except Failure Value → σ → Call σ}
    {m m₁ m' : Machine σ} {q : Except Failure Value} {r : Except Failure (List Value)}
    {log log' : List (Entry σ)} :
    Logged c app self room (.resolve id) { m with state } (q.map fun v => [v]) m₁ log →
      Logged c app self room (.carryOut (resume q m₁.state)) m₁ r m' log' →
      Logged c app self room (.carryOut (.demand id state resume)) m r m' (log ++ log')
  | ahead {room : Nat} {m : Machine σ} : Logged c app self room (.prewarm []) m (.ok []) m []
  | skip {room : Nat} {id : String} {ids : List String} {m m' : Machine σ}
    {r : Except Failure (List Value)} {log : List (Entry σ)} :
    (∀ plan, c.plan? id = some plan → plan.isShared = true → Served m plan) →
      Logged c app self room (.prewarm ids) m r m' log →
      Logged c app self room (.prewarm (id :: ids)) m r m' log
  | warm {room : Nat} {id : String} {ids : List String} {plan : ServicePlan} {m m₁ m' : Machine σ}
    {v : Value} {r : Except Failure (List Value)} {log log' : List (Entry σ)} :
    c.plan? id = some plan → plan.isShared = true → m.instances.get? plan.id = none →
      Logged c app self room (.value (.inline plan)) m (.ok [v]) m₁ log →
      Logged c app self room (.prewarm ids) (m₁.keep plan.id v) r m' log' →
      Logged c app self room (.prewarm (id :: ids)) m r m'
        (log ++ .carried plan (.ok [v]) m₁ :: log')
  | cold {room : Nat} {id : String} {ids : List String} {plan : ServicePlan} {m m' : Machine σ}
    {e : Failure} {log : List (Entry σ)} :
    c.plan? id = some plan → plan.isShared = true → m.instances.get? plan.id = none →
      Logged c app self room (.value (.inline plan)) m (.error e) m' log →
      Logged c app self room (.prewarm (id :: ids)) m (.error e) m'
        (log ++ [.carried plan (.error e) m'])
  | deep {id : String} {m : Machine σ} : Logged c app self 0 (.resolve id) m (.error .tooDeep) m
      [.asked id (.error .tooDeep) m]
  | unknown {room : Nat} {id : String} {m : Machine σ} : c.plan? id = none →
      Logged c app self (room + 1) (.resolve id) m (.error (.notFound (.str id) c.serviceIds)) m
        [.asked id (.error (.notFound (.str id) c.serviceIds)) m]
  | kept {room : Nat} {id : String} {plan : ServicePlan} {m : Machine σ} {v : Value} :
    c.plan? id = some plan → plan.isShared = true → m.instances.get? plan.id = some v →
      Logged c app self (room + 1) (.resolve id) m (.ok [v]) m [.asked id (.ok [v]) m]
  | unprepared {room : Nat} {id : String} {plan : ServicePlan} {m m' : Machine σ} {e : Failure}
    {log : List (Entry σ)} :
    c.plan? id = some plan → ¬ Served m plan →
      Logged c app self room (.prewarm (c.orderOf id).dropLast) m (.error e) m' log →
      Logged c app self (room + 1) (.resolve id) m (.error e) m' (.asked id (.error e) m :: log)
  | meanwhile {room : Nat} {id : String} {plan : ServicePlan} {m m' : Machine σ} {v : Value}
    {vs : List Value} {log : List (Entry σ)} :
    c.plan? id = some plan → ¬ Served m plan → plan.isShared = true → c.locks.has plan.id = true →
      Logged c app self room (.prewarm (c.orderOf id).dropLast) m (.ok vs) m' log →
      m'.instances.get? plan.id = some v →
      Logged c app self (room + 1) (.resolve id) m (.ok [v]) m' (.asked id (.ok [v]) m :: log)
  | built {room : Nat} {id : String} {plan : ServicePlan} {m m₁ m' : Machine σ} {v : Value}
    {vs : List Value} {log log' : List (Entry σ)} :
    c.plan? id = some plan → ¬ Served m plan → plan.isShared = true →
      Logged c app self room (.prewarm (c.orderOf id).dropLast) m (.ok vs) m₁ log →
      (c.locks.has plan.id = true → m₁.instances.get? plan.id = none) →
      Logged c app self room (.value (.inline plan)) m₁ (.ok [v]) m' log' →
      Logged c app self (room + 1) (.resolve id) m (.ok [v]) (m'.keep plan.id v)
        (.asked id (.ok [v]) m :: (log ++ (log' ++ [.carried plan (.ok [v]) m'])))
  | broken {room : Nat} {id : String} {plan : ServicePlan} {m m₁ m' : Machine σ} {e : Failure}
    {vs : List Value} {log log' : List (Entry σ)} :
    c.plan? id = some plan → ¬ Served m plan → plan.isShared = true →
      Logged c app self room (.prewarm (c.orderOf id).dropLast) m (.ok vs) m₁ log →
      (c.locks.has plan.id = true → m₁.instances.get? plan.id = none) →
      Logged c app self room (.value (.inline plan)) m₁ (.error e) m' log' →
      Logged c app self (room + 1) (.resolve id) m (.error e) m'
        (.asked id (.error e) m :: (log ++ (log' ++ [.carried plan (.error e) m'])))
  | fresh {room : Nat} {id : String} {plan : ServicePlan} {m m₁ m' : Machine σ} {vs : List Value}
    {r : Except Failure (List Value)} {log log' : List (Entry σ)} :
    c.plan? id = some plan → plan.isShared = false →
      Logged c app self room (.prewarm (c.orderOf id).dropLast) m (.ok vs) m₁ log →
      Logged c app self room (.value (.inline plan)) m₁ r m' log' →
      Logged c app self (room + 1) (.resolve id) m r m'
        (.asked id r m :: (log ++ (log' ++ [.carried plan r m'])))

/-- What is written down has run. -/
theorem Logged.ran (h : Logged c app self room task m r m' log) : Ran c app self room task m r m' := by
  induction h with
  | nothing => exact .nothing
  | first _ ih => exact .first ih
  | next _ _ ih₁ ih₂ => exact .next ih₁ ih₂
  | literal => exact .literal
  | handle => exact .handle
  | service _ ih => exact .service ih
  | collection _ ih => exact .collection ih
  | barred barred => exact .barred barred
  | unready free _ ih => exact .unready free ih
  | called free _ _ ih₁ ih₂ => exact .called free ih₁ ih₂
  | finish => exact .finish
  | demand _ _ ih₁ ih₂ => exact .demand ih₁ ih₂
  | ahead => exact .ahead
  | skip served _ ih => exact .skip served ih
  | warm hp shared absent _ _ ih₁ ih₂ => exact .warm hp shared absent ih₁ ih₂
  | cold hp shared absent _ ih => exact .cold hp shared absent ih
  | deep => exact .deep
  | unknown none => exact .unknown none
  | kept hp shared found => exact .kept hp shared found
  | unprepared hp unserved _ ih => exact .unprepared hp unserved ih
  | meanwhile hp unserved shared locked _ found ih =>
    exact .meanwhile hp unserved shared locked ih found
  | built hp unserved shared _ absent _ ih₁ ih₂ => exact .built hp unserved shared ih₁ absent ih₂
  | broken hp unserved shared _ absent _ ih₁ ih₂ => exact .broken hp unserved shared ih₁ absent ih₂
  | fresh hp single _ _ ih₁ ih₂ => exact .fresh hp single ih₁ ih₂

/-- Whatever runs can be written down. -/
theorem Ran.exists_logged (h : Ran c app self room task m r m') :
    ∃ log, Logged c app self room task m r m' log := by
  induction h with
  | nothing => exact ⟨_, .nothing⟩
  | first _ ih => exact ih.imp fun _ h => .first h
  | next _ _ ih₁ ih₂ =>
    obtain ⟨log, h⟩ := ih₁
    exact ih₂.elim fun _ h' => ⟨_, .next h h'⟩
  | literal => exact ⟨_, .literal⟩
  | handle => exact ⟨_, .handle⟩
  | service _ ih => exact ih.imp fun _ h => .service h
  | collection _ ih => exact ih.imp fun _ h => .collection h
  | barred barred => exact ⟨_, .barred barred⟩
  | unready free _ ih => exact ih.imp fun _ h => .unready free h
  | called free _ _ ih₁ ih₂ =>
    obtain ⟨log, h⟩ := ih₁
    exact ih₂.elim fun _ h' => ⟨_, .called free h h'⟩
  | finish => exact ⟨_, .finish⟩
  | demand _ _ ih₁ ih₂ =>
    obtain ⟨log, h⟩ := ih₁
    exact ih₂.elim fun _ h' => ⟨_, .demand h h'⟩
  | ahead => exact ⟨_, .ahead⟩
  | skip served _ ih => exact ih.imp fun _ h => .skip served h
  | warm hp shared absent _ _ ih₁ ih₂ =>
    obtain ⟨log, h⟩ := ih₁
    exact ih₂.elim fun _ h' => ⟨_, .warm hp shared absent h h'⟩
  | cold hp shared absent _ ih => exact ih.elim fun _ h => ⟨_, .cold hp shared absent h⟩
  | deep => exact ⟨_, .deep⟩
  | unknown none => exact ⟨_, .unknown none⟩
  | kept hp shared found => exact ⟨_, .kept hp shared found⟩
  | unprepared hp unserved _ ih => exact ih.elim fun _ h => ⟨_, .unprepared hp unserved h⟩
  | meanwhile hp unserved shared locked _ found ih =>
    exact ih.elim fun _ h => ⟨_, .meanwhile hp unserved shared locked h found⟩
  | built hp unserved shared _ absent _ ih₁ ih₂ =>
    obtain ⟨log, h⟩ := ih₁
    exact ih₂.elim fun _ h' => ⟨_, .built hp unserved shared h absent h'⟩
  | broken hp unserved shared _ absent _ ih₁ ih₂ =>
    obtain ⟨log, h⟩ := ih₁
    exact ih₂.elim fun _ h' => ⟨_, .broken hp unserved shared h absent h'⟩
  | fresh hp single _ _ ih₁ ih₂ =>
    obtain ⟨log, h⟩ := ih₁
    exact ih₂.elim fun _ h' => ⟨_, .fresh hp single h h'⟩

/-! ## What is kept -/

/-- What is kept at the end, and at each entry, is what was kept at first and then the products that
have been written down since. -/
structure Tells (m : Machine σ) (log : List (Entry σ)) (m' : Machine σ) : Prop where
  instances : m'.instances = m.instances ++ products log
  each : ∀ before e after, log = before ++ e :: after →
    e.machine.instances = m.instances ++ products before

namespace Tells

variable {log' : List (Entry σ)}

theorem nothing (same : m'.instances = m.instances) : Tells m [] m' :=
  ⟨by rw [same, products, List.filterMap_nil, List.append_nil], fun before e after h => by simp at h⟩

theorem append (h : Tells m log m₁) (h' : Tells m₁ log' m') : Tells m (log ++ log') m' where
  instances := by
    rw [h'.instances, h.instances, products, products, products, List.filterMap_append,
      List.append_assoc]
  each before e after split := by
    rcases List.append_eq_append_iff.1 split with ⟨between, rfl, rest⟩ | ⟨between, rfl, rest⟩
    · rw [h'.each between e after rest, h.instances, products, products, products,
        List.filterMap_append, List.append_assoc]
    · cases between with
      | nil =>
        have rest : log' = [] ++ e :: after := by simpa using rest.symm
        rw [h'.each [] e after rest, h.instances, List.append_nil]
        simp [products]
      | cons x between =>
        obtain ⟨rfl, rfl⟩ := List.cons.inj rest
        exact h.each before e between rfl

/-- An entry that tells of no product changes nothing. -/
theorem entry {e : Entry σ} (here : e.machine.instances = m.instances) (none : e.product? = none) :
    Tells m [e] m where
  instances := by simp [products, none]
  each before x after split := by
    cases before with
    | nil =>
      obtain ⟨rfl, -⟩ := List.cons.inj split
      simp [here, products]
    | cons y before =>
      have := congrArg List.length split
      simp at this

theorem asked (id : String) (r : Except Failure (List Value)) (h : Tells m log m') :
    Tells m (.asked id r m :: log) m' :=
  (entry (e := .asked id r m) rfl rfl).append h

theorem failed (plan : ServicePlan) (e : Failure) (h : Tells m log m') :
    Tells m (log ++ [.carried plan (.error e) m']) m' :=
  h.append (entry rfl rfl)

theorem single {plan : ServicePlan} (single : plan.isShared = false)
    (r : Except Failure (List Value)) (h : Tells m log m') :
    Tells m (log ++ [.carried plan r m']) m' := by
  refine h.append (entry rfl ?_)
  unfold product?
  split
  next same =>
    obtain ⟨rfl, -, -⟩ := Entry.carried.inj same
    simp [single]
  next => rfl

/-- The product of a shared service that has none is kept. -/
theorem keep {plan : ServicePlan} (shared : plan.isShared = true)
    (absent : m'.instances.get? plan.id = none) (v : Value) (h : Tells m log m') :
    Tells m (log ++ [.carried plan (.ok [v]) m']) (m'.keep plan.id v) := by
  refine h.append ⟨?_, fun before x after split => ?_⟩
  · have new : m'.instances.has plan.id = false := by
      rw [Table.has_eq_isSome, absent]
      rfl
    simp [products, product?, shared, Machine.keep, Table.put, new]
  · cases before with
    | nil =>
      obtain ⟨rfl, -⟩ := List.cons.inj split
      simp [Entry.machine, products]
    | cons y before =>
      have := congrArg List.length split
      simp at this

end Tells

/-- What is kept is what is written down. -/
theorem Logged.tells (frozen : Frozen f lockMode privateIds c)
    (h : Logged c app self room task m r m' log) (up : Upheld c m) : Tells m log m' := by
  induction h with
  | nothing | literal | handle | barred | finish | ahead => exact .nothing rfl
  | first _ ih | service _ ih | collection _ ih | skip _ _ ih => exact ih up
  | next h _ ih₁ ih₂ => exact (ih₁ up).append (ih₂ (h.ran.upheld frozen up).1)
  | unready _ _ ih =>
    obtain ⟨instances, each⟩ := ih up
    exact ⟨instances, each⟩
  | called _ h _ ih₁ ih₂ =>
    have call := ih₂ (h.ran.upheld frozen up).1
    have tells := (ih₁ up).append ⟨call.instances, call.each⟩
    exact ⟨tells.instances, tells.each⟩
  | demand h _ ih₁ ih₂ =>
    have tells := (ih₁ up).append (ih₂ (h.ran.upheld frozen up).1)
    exact ⟨tells.instances, tells.each⟩
  | @warm _ _ _ _ _ _ _ v _ _ _ hp shared absent h _ ih₁ ih₂ =>
    obtain ⟨up₁, done⟩ := h.ran.upheld frozen up
    have kept := (ih₁ up).keep shared (h.ran.unchanged.trans absent) v
    have rest := ih₂ (up₁.keep frozen (id_of_plan? hp ▸ hp) (done _ rfl) _)
    simpa using kept.append rest
  | cold _ _ _ _ ih => exact (ih up).failed _ _
  | deep | unknown | kept => exact (Tells.nothing rfl).asked _ _
  | unprepared _ _ _ ih | meanwhile _ _ _ _ _ _ ih => exact (ih up).asked _ _
  | @built _ _ _ _ _ _ v _ _ _ hp unserved shared ahead _ h ih₁ ih₂ =>
    obtain rfl := id_of_plan? hp
    have absent := ahead.ran.unkept_ahead frozen hp up fun kept => unserved ⟨shared, kept⟩
    have construct := (ih₂ (ahead.ran.upheld frozen up).1).keep shared
      (h.ran.unchanged.trans (not_kept.1 absent)) v
    exact ((ih₁ up).append construct).asked _ _
  | broken _ _ _ ahead _ _ ih₁ ih₂ =>
    exact ((ih₁ up).append ((ih₂ (ahead.ran.upheld frozen up).1).failed _ _)).asked _ _
  | fresh _ single ahead _ ih₁ ih₂ =>
    exact ((ih₁ up).append ((ih₂ (ahead.ran.upheld frozen up).1).single single _)).asked _ _

/-! ## What is ready -/

/-- All shared services are kept that come before a service in its construction order. -/
def Ready (c : Container) (m : Machine σ) (id : String) : Prop :=
  ∀ x ∈ (c.orderOf id).dropLast, ∀ plan, c.plan? x = some plan → plan.isShared = true → Kept m x

theorem Ready.mono (h : Ready c m id) (grows : ∀ x, Kept m x → Kept m' x) : Ready c m' id :=
  fun x hx plan hp shared => grows x (h x hx plan hp shared)

/-- The construction order of a service lists each after all that it depends on. -/
theorem Frozen.order_sorted (frozen : Frozen f lockMode privateIds c) (hp : c.plan? id = some plan) :
    Walk.DepthFirst.Sorted (ServicePlan.dependenciesOf c.plans) (c.orderOf id) := by
  have ids : ServicePlan.planned c.plans = f.ids := PlansOf.ids_eq frozen.plans
  obtain ⟨d, hd, -⟩ := PlansOf.exists_definition frozen.plans hp
  have hid : id ∈ f.ids := mem_ids.2 ⟨d, mem_of_find? hd⟩
  rw [frozen.orderOf_eq hid]
  exact ServicePlan.order_sorted frozen.heights
    (fun a _ b => PlansOf.dependencies_planned frozen.plans) (ids ▸ hid)

/-- A service has its place in a construction order after all that comes before it in its own. -/
theorem Frozen.mem_earlier (frozen : Frozen f lockMode privateIds c) (hp : c.plan? id = some plan)
    {before after : List String} {x y : String}
    (split : (c.orderOf id).dropLast = before ++ x :: after) (hy : y ∈ (c.orderOf x).dropLast) :
    y ∈ before := by
  have some : c.plans ≠ [] := List.ne_nil_of_mem (List.mem_of_find?_eq_some hp)
  obtain ⟨d, hd, -⟩ := PlansOf.exists_definition frozen.plans hp
  have sorted := frozen.order_sorted hp
  obtain ⟨front, order, -⟩ := @ServicePlan.order_eq id _ c.heights some
  rw [frozen.orderOf_eq (mem_ids.2 ⟨d, mem_of_find? hd⟩), order, List.dropLast_concat] at split
  rw [frozen.orderOf_eq (mem_ids.2 ⟨d, mem_of_find? hd⟩), order, split, List.append_assoc] at sorted
  cases hx : c.plan? x with
  | none =>
    have unplanned : c.orders.get? x = none := by
      rw [Table.get?_eq_none_iff, frozen.orders]
      intro there
      obtain ⟨p, hp, rfl⟩ := List.mem_map.1 (by simpa [Table.names] using there)
      have := List.find?_eq_none.1 hx p hp
      simp at this
    simp [orderOf, unplanned] at hy
  | some other =>
    obtain ⟨ne, t, ht, path⟩ := frozen.mem_before hx hy
    exact sorted.reaches (.head ht path) ne

/-- What is built ahead is in order: before each service comes what it needs, unless it is kept. -/
def Proceeds (c : Container) (m : Machine σ) : Task σ → Prop
  | .prewarm ids => ∀ before x after, ids = before ++ x :: after → ∀ y ∈ (c.orderOf x).dropLast,
      ∀ plan, c.plan? y = some plan → plan.isShared = true → Kept m y ∨ y ∈ before
  | _ => True

namespace Proceeds

variable {ids : List String}

theorem order (frozen : Frozen f lockMode privateIds c) (hp : c.plan? id = some plan) :
    Proceeds c m (.prewarm (c.orderOf id).dropLast) := fun _ _ _ split _ hy _ _ _ =>
  .inr (frozen.mem_earlier hp split hy)

theorem head (h : Proceeds c m (.prewarm (id :: ids))) : Ready c m id := fun y hy plan hp shared =>
  (h [] id ids rfl y hy plan hp shared).resolve_right List.not_mem_nil

theorem tail (h : Proceeds c m (.prewarm (id :: ids))) (grows : ∀ x, Kept m x → Kept m' x)
    (kept : ∀ plan, c.plan? id = some plan → plan.isShared = true → Kept m' id) :
    Proceeds c m' (.prewarm ids) := by
  intro before x after split y hy plan hp shared
  rcases h (id :: before) x after (by rw [split, List.cons_append]) y hy plan hp shared with there | hy
  · exact .inl (grows y there)
  · rcases List.mem_cons.1 hy with rfl | hy
    · exact .inl (kept plan hp shared)
    · exact .inr hy

end Proceeds

/-- What has been built ahead is kept. -/
theorem Ran.kept_ahead {ids : List String} (h : Ran c app self room (.prewarm ids) m (.ok vs) m') :
    ∀ x ∈ ids, ∀ plan, c.plan? x = some plan → plan.isShared = true → Kept m' x := by
  induction ids generalizing m with
  | nil => simp
  | cons id ids ih =>
    intro x hx plan hp shared
    cases h with
    | skip served ran =>
      rcases List.mem_cons.1 hx with rfl | hx
      · obtain rfl := id_of_plan? hp
        exact ran.frame.grows _ (served plan hp shared).2
      · exact ih ran x hx plan hp shared
    | warm hp' _ _ _ ran =>
      rcases List.mem_cons.1 hx with rfl | hx
      · exact ran.frame.grows _ (kept_keep.2 (.inl (id_of_plan? hp').symm))
      · exact ih ran x hx plan hp shared

/-- An entry on a plan is on one that the container has. If its service is shared then no product is
kept and all that comes before it is. -/
def Entry.Timely (c : Container) : Entry σ → Prop
  | .asked _ _ _ => True
  | .carried plan _ m => c.plan? plan.id = some plan ∧
      (plan.isShared = true → ¬ Kept m plan.id ∧ Ready c m plan.id)

/-- What is carried out for a shared service that is ready is carried out in time. -/
theorem Ran.timely (h : Ran c app self room (.value (.inline plan)) m r m')
    (r' : Except Failure (List Value)) (hp : c.plan? plan.id = some plan)
    (timely : plan.isShared = true → ¬ Kept m plan.id ∧ Ready c m plan.id) :
    Entry.Timely c (.carried plan r' m') := ⟨hp, fun shared =>
  ⟨not_kept.2 (h.unchanged.trans (not_kept.1 (timely shared).1)),
    (timely shared).2.mono h.frame.grows⟩⟩

/-- What holds of the answer to a request, of all that it took, and of the construction at the end,
holds of the whole log. -/
theorem forall_resolved {P : Entry σ → Prop} {asked carried : Entry σ} {log log' : List (Entry σ)}
    (answer : P asked) (ahead : ∀ e ∈ log, P e) (inside : ∀ e ∈ log', P e) (own : P carried) :
    ∀ e ∈ asked :: (log ++ (log' ++ [carried])), P e :=
  List.forall_mem_cons.2 ⟨answer, List.forall_mem_append.2 ⟨ahead,
    List.forall_mem_append.2 ⟨inside, List.forall_mem_singleton.2 own⟩⟩⟩

/-- Plans are carried out when their time has come. -/
theorem Logged.timely (frozen : Frozen f lockMode privateIds c)
    (h : Logged c app self room task m r m' log) (up : Upheld c m) (proceeds : Proceeds c m task) :
    ∀ e ∈ log, Entry.Timely c e := by
  induction h with
  | nothing | literal | handle | barred | finish | ahead => simp
  | deep | unknown | kept => exact List.forall_mem_singleton.2 trivial
  | first _ ih | service _ ih | collection _ ih | unready _ _ ih => exact ih up trivial
  | next h _ ih₁ ih₂ | called _ h _ ih₁ ih₂ | demand h _ ih₁ ih₂ =>
    exact List.forall_mem_append.2 ⟨ih₁ up trivial, ih₂ (h.ran.upheld frozen up).1 trivial⟩
  | skip served h ih =>
    refine ih up (proceeds.tail (fun _ h => h) fun plan hp shared => ?_)
    exact id_of_plan? hp ▸ (served plan hp shared).2
  | @warm _ _ _ plan m _ _ v _ _ _ hp shared absent h _ ih₁ ih₂ =>
    obtain rfl := id_of_plan? hp
    obtain ⟨up₁, done⟩ := h.ran.upheld frozen up
    have own := h.ran.timely (.ok [v]) hp fun _ => ⟨not_kept.2 absent, proceeds.head⟩
    have rest := ih₂ (up₁.keep frozen hp (done _ rfl) v) (proceeds.tail
      (fun x hx => kept_keep.2 (.inr (h.ran.frame.grows x hx))) fun _ _ _ => kept_keep.2 (.inl rfl))
    exact List.forall_mem_append.2 ⟨ih₁ up trivial, List.forall_mem_cons.2 ⟨own, rest⟩⟩
  | cold hp shared absent h ih =>
    obtain rfl := id_of_plan? hp
    exact List.forall_mem_append.2 ⟨ih up trivial, List.forall_mem_singleton.2 <|
      h.ran.timely _ hp fun _ => ⟨not_kept.2 absent, proceeds.head⟩⟩
  | unprepared hp _ _ ih | meanwhile hp _ _ _ _ _ ih =>
    exact List.forall_mem_cons.2 ⟨trivial, ih up (.order frozen hp)⟩
  | built hp unserved shared ahead _ h ih₁ ih₂ | broken hp unserved shared ahead _ h ih₁ ih₂ =>
    obtain rfl := id_of_plan? hp
    have absent := ahead.ran.unkept_ahead frozen hp up fun kept => unserved ⟨shared, kept⟩
    exact forall_resolved trivial (ih₁ up (.order frozen hp))
      (ih₂ (ahead.ran.upheld frozen up).1 trivial)
      (h.ran.timely _ hp fun _ => ⟨absent, ahead.ran.kept_ahead⟩)
  | fresh hp single ahead h ih₁ ih₂ =>
    obtain rfl := id_of_plan? hp
    exact forall_resolved trivial (ih₁ up (.order frozen hp))
      (ih₂ (ahead.ran.upheld frozen up).1 trivial)
      (h.ran.timely _ hp fun shared => absurd (single.symm.trans shared) Bool.false_ne_true)

/-! ## Room -/

/-- The services that the plans of a container make, one entry for each plan. -/
def makes (c : Container) : List String := c.plans.flatMap ServicePlan.made

theorem planCount_eq_length (c : Container) : c.planCount = c.makes.length := by
  rw [planCount, makes, List.length_flatMap, List.sum_eq_foldl, List.foldl_map]
  simp only [ServicePlan.size_eq]

theorem mem_makes {x : String} (hp : c.plan? id = some plan) (hx : x ∈ plan.made) : x ∈ c.makes :=
  List.mem_flatMap.2 ⟨plan, List.mem_of_find?_eq_some hp, hx⟩

/-- What is under construction is made by plans of the container, and none of it twice. -/
def Contained (c : Container) (m : Machine σ) : Prop := m.stack.Nodup ∧ ∀ x ∈ m.stack, x ∈ c.makes

theorem Contained.push (h : Contained c m) (free : id ∉ m.stack) (hid : id ∈ c.makes) :
    Contained c (m.push id) := by
  refine ⟨List.nodup_append.2 ⟨h.1, List.nodup_singleton id, fun x hx y hy e => ?_⟩, fun x hx => ?_⟩
  · exact free (List.mem_singleton.1 hy ▸ e ▸ hx)
  · rcases List.mem_append.1 hx with hx | hx
    · exact h.2 x hx
    · exact List.mem_singleton.1 hx ▸ hid

/-- There is room for all that is not yet under construction. A service that is asked for is
constructed with room for one less. -/
def Roomy (c : Container) (room : Nat) (m : Machine σ) : Task σ → Prop
  | .evaluate bs => c.planCount < room + m.stack.length ∧ ∀ x ∈ bs.flatMap Binding.made, x ∈ c.makes
  | .value (.inline plan) => c.planCount ≤ room + m.stack.length ∧
      ∀ x ∈ plan.id :: plan.allBindings.flatMap Binding.made, x ∈ c.makes
  | .value b => c.planCount < room + m.stack.length ∧ ∀ x ∈ b.made, x ∈ c.makes
  | .carryOut _ | .resolve _ => c.planCount < room + m.stack.length
  | .prewarm _ => c.planCount ≤ room + m.stack.length

theorem Roomy.value {b : Binding} (room' : c.planCount < room + m.stack.length)
    (made : ∀ x ∈ b.made, x ∈ c.makes) : Roomy c room m (.value b) := by
  cases b with
  | inline plan => exact ⟨Nat.le_of_lt room', Binding.made_inline plan ▸ made⟩
  | _ => exact ⟨room', made⟩

theorem Roomy.frame (h : Roomy c room m task) (frame : Frame m m') : Roomy c room m' task := by
  unfold Roomy at h ⊢
  rwa [frame.stack]

/-- What is asked for is answered with the product that is kept, if there is one. -/
def Entry.Truthful (c : Container) : Entry σ → Prop
  | .asked id r m => ∀ plan v, c.plan? id = some plan → plan.isShared = true →
      m.instances.get? id = some v → r = .ok [v]
  | .carried _ _ _ => True

/-- A service that is not served can be answered with anything. -/
theorem truthful_of_unserved (hp : c.plan? id = some plan) (unserved : ¬ Served m plan) :
    Entry.Truthful c (.asked id r m) := fun other v hp' shared found => by
  obtain rfl := Option.some.inj (hp.symm.trans hp')
  obtain rfl := id_of_plan? hp
  exact unserved.elim ⟨shared, v, found⟩

/-- There is room for the plan of a service to be carried out. -/
theorem roomy_plan (hp : c.plan? id = some plan) (roomy : c.planCount ≤ room + m.stack.length) :
    Roomy c room m (.value (.inline plan)) :=
  ⟨roomy, fun _ hx => mem_makes hp (plan.made_eq ▸ hx)⟩

theorem Contained.frame (h : Contained c m) (frame : Frame m m') : Contained c m' := by
  unfold Contained
  rwa [frame.stack]

/-- Whenever a product is kept it is what is answered. -/
theorem Logged.truthful (h : Logged c app self room task m r m' log) (contained : Contained c m)
    (roomy : Roomy c room m task) : ∀ e ∈ log, Entry.Truthful c e := by
  induction h with
  | nothing | literal | handle | barred | finish | ahead => simp
  | first _ ih =>
    exact ih contained (.value roomy.1 fun x hx => roomy.2 x (List.mem_append_left _ hx))
  | next h _ ih₁ ih₂ =>
    exact List.forall_mem_append.2
      ⟨ih₁ contained (.value roomy.1 fun x hx => roomy.2 x (List.mem_append_left _ hx)),
        ih₂ (contained.frame h.ran.frame) ⟨h.ran.frame.stack ▸ roomy.1, fun x hx =>
          roomy.2 x (List.mem_append_right _ hx)⟩⟩
  | service _ ih => exact ih contained roomy.1
  | collection _ ih =>
    exact ih contained ⟨roomy.1, fun x hx => roomy.2 x (Binding.made_collection _ _ ▸ hx)⟩
  | @unready _ plan m _ _ _ free _ ih =>
    refine ih (contained.push free (roomy.2 _ List.mem_cons_self)) ⟨?_, fun x hx => ?_⟩
    · have := roomy.1
      simp only [Machine.push, List.length_append, List.length_singleton]
      omega
    · exact roomy.2 x (List.mem_cons_of_mem _ hx)
  | @called room plan m m₁ _ vs _ _ _ free h _ ih₁ ih₂ =>
    have pushed := contained.push free (roomy.2 _ List.mem_cons_self)
    have more : c.planCount < room + (m.push plan.id).stack.length := by
      have := roomy.1
      simp only [Machine.push, List.length_append, List.length_singleton]
      omega
    have frame : Frame (m.push plan.id) (m₁.construct app plan.id) :=
      h.ran.frame.trans (.state _ _)
    have roomy₂ : Roomy c room (m.push plan.id)
        (.carryOut (callOf app plan vs (m₁.construct app plan.id).state)) := more
    exact List.forall_mem_append.2
      ⟨ih₁ pushed ⟨more, fun x hx => roomy.2 x (List.mem_cons_of_mem _ hx)⟩,
        ih₂ (pushed.frame frame) (roomy₂.frame frame)⟩
  | @demand room id state resume m m₁ _ q _ _ _ h _ ih₁ ih₂ =>
    have frame : Frame m m₁ := (Frame.state _ _).trans h.ran.frame
    have roomy₂ : Roomy c room m (.carryOut (resume q m₁.state)) := roomy
    exact List.forall_mem_append.2
      ⟨ih₁ contained roomy, ih₂ (contained.frame frame) (roomy₂.frame frame)⟩
  | skip _ _ ih => exact ih contained roomy
  | @warm room _ ids _ m m₁ _ v _ _ _ hp _ _ h _ ih₁ ih₂ =>
    have roomy : Roomy c room m (.prewarm ids) := roomy
    have frame := h.ran.frame.trans (.keep (h.ran.frame.stack ▸ h.ran.free) v)
    exact List.forall_mem_append.2 ⟨ih₁ contained (roomy_plan hp roomy),
      List.forall_mem_cons.2 ⟨trivial, ih₂ (contained.frame frame) (roomy.frame frame)⟩⟩
  | cold hp _ _ _ ih =>
    exact List.forall_mem_append.2
      ⟨ih contained (roomy_plan hp roomy), List.forall_mem_singleton.2 trivial⟩
  | @deep id m =>
    -- more would be under construction than there are plans
    have fits : m.stack.length ≤ c.makes.length :=
      (contained.1.subperm contained.2).length_le
    have roomy : c.planCount < 0 + m.stack.length := roomy
    rw [planCount_eq_length] at roomy
    omega
  | unknown none =>
    refine List.forall_mem_singleton.2 fun plan _ hp => ?_
    cases none.symm.trans hp
  | kept hp _ found =>
    obtain rfl := id_of_plan? hp
    exact List.forall_mem_singleton.2 fun _ w _ _ found' => by
      rw [Option.some.inj (found.symm.trans found')]
  | @unprepared room id plan m _ _ _ hp missing _ ih | @meanwhile room id plan m _ _ _ _ hp missing _ _ _ _ ih =>
    have roomy : c.planCount < room + 1 + m.stack.length := roomy
    exact List.forall_mem_cons.2
      ⟨truthful_of_unserved hp missing, ih contained (show _ ≤ _ by omega)⟩
  | @built room id plan m m₁ _ _ _ _ _ hp missing _ h _ _ ih₁ ih₂
  | @broken room id plan m m₁ _ _ _ _ _ hp missing _ h _ _ ih₁ ih₂ =>
    have roomy : c.planCount < room + 1 + m.stack.length := roomy
    have below : c.planCount ≤ room + m.stack.length := by omega
    exact forall_resolved (truthful_of_unserved hp missing) (ih₁ contained below)
      (ih₂ (contained.frame h.ran.frame) (roomy_plan hp (h.ran.frame.stack ▸ below))) trivial
  | @fresh room id plan m m₁ _ _ _ _ _ hp single h _ ih₁ ih₂ =>
    have roomy : c.planCount < room + 1 + m.stack.length := roomy
    have below : c.planCount ≤ room + m.stack.length := by omega
    have unserved : ¬ Served m plan := fun served =>
      Bool.false_ne_true (single.symm.trans served.1)
    exact forall_resolved (truthful_of_unserved hp unserved) (ih₁ contained below)
      (ih₂ (contained.frame h.ran.frame) (roomy_plan hp (h.ran.frame.stack ▸ below))) trivial

end Wiring.Container
