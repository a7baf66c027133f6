import Mathlib
import Wiring.Proofs.Builder.Compilation
import Wiring.Proofs.Container.Log

/-!
# What requests leave behind

A request from the outside, whether it is answered or fails, leaves nothing under construction, and
nothing is kept after it but what was kept before and the products of those shared services whose
factories have returned. What is kept stays, and is the answer from then on. Where a construction
has failed there is nothing in its place, and the next request constructs the service again.
-/

namespace Wiring

namespace Container

open Graph Entry

variable {σ : Type} {f g : Graph} {c : Container} {app : Application σ} {self room : Nat}
  {lockMode : LockMode} {privateIds : List String} {task : Task σ} {plan : ServicePlan}
  {m m₁ m' : Machine σ} {r : Except Failure (List Value)} {id : String} {v : Value}
  {log : List (Entry σ)}

/-! ## Work that is done at once -/

theorem bind_of_ok {α β : Type} {x : Work σ α} {k : α → Work σ β} {a : α} (h : x m = .ok a m₁) :
    (x >>= k) m = k a m₁ := by
  show EStateM.bind x k m = _
  unfold EStateM.bind
  rw [h]

/-- What is kept is the answer. -/
theorem resolve_of_kept (hp : c.plan? id = some plan) (shared : plan.isShared = true)
    (found : m.instances.get? id = some v) : resolve c app self (room + 1) id m = .ok v m := by
  have kept : kept? (σ := σ) id m = .ok (some v) m := by rw [← found]; rfl
  unfold resolve
  simp only [hp, shared, if_true]
  rw [bind_of_ok kept]
  rfl

/-- There is nothing to be done ahead for a service that is ready. -/
theorem prewarm_of_ready {below : String → Work σ Value} (ready : Ready c m id) :
    prewarm c app self below id m = .ok () m := by
  rw [prewarm_eq]
  have all : ∀ x ∈ (c.orderOf id).dropLast, prewarmOne c app self below x m = .ok () m :=
    fun x hx => by
      unfold prewarmOne
      cases hp : c.plan? x with
      | none => rfl
      | some plan =>
        dsimp only
        cases shared : plan.isShared with
        | false =>
          rw [bind_of_ok (rfl : kept? (σ := σ) x m = .ok (m.instances.get? x) m)]
          rfl
        | true =>
          obtain ⟨v, found⟩ := ready x hx plan hp shared
          have kept : kept? (σ := σ) x m = .ok (some v) m := by rw [← found]; rfl
          rw [bind_of_ok kept]
          rfl
  generalize (c.orderOf id).dropLast = ids at all
  induction ids with
  | nil => rfl
  | cons x xs ih =>
    rw [forM_cons, bind_of_ok (all x List.mem_cons_self)]
    exact ih fun y hy => all y (List.mem_cons_of_mem x hy)

/-- A lock makes no difference to a service that is not kept. -/
theorem constructGuarded_of_absent {below : String → Work σ Value} (absent : ¬ Kept m plan.id) :
    constructGuarded c app self below plan m = constructShared app self below plan m := by
  unfold constructGuarded
  split
  · have kept : kept? (σ := σ) plan.id m = .ok none m := by rw [← not_kept.1 absent]; rfl
    rw [bind_of_ok kept]
  · rfl

/-- A service that is ready and not kept is constructed at once. -/
theorem resolve_of_ready (hp : c.plan? id = some plan) (shared : plan.isShared = true)
    (absent : ¬ Kept m id) (ready : Ready c m id) : resolve c app self (room + 1) id m =
      constructShared app self (resolve c app self room) plan m := by
  obtain rfl := id_of_plan? hp
  have kept : kept? (σ := σ) plan.id m = .ok none m := by rw [← not_kept.1 absent]; rfl
  conv_lhs => unfold resolve
  simp only [hp, shared, if_true]
  rw [bind_of_ok kept]
  exact (bind_of_ok (prewarm_of_ready ready)).trans (constructGuarded_of_absent absent)

/-! ## What is kept between requests -/

/-- Products are kept for shared services that have plans, each once. -/
structure Stored (c : Container) (m : Machine σ) : Prop where
  planned : ∀ id, Kept m id → ∃ plan, c.plan? id = some plan ∧ plan.isShared = true
  unique : m.instances.names.Nodup

theorem kept_iff : Kept m id ↔ id ∈ m.instances.names := by
  rw [← Table.get?_isSome, Option.isSome_iff_exists]
  rfl

theorem mem_products {e : String × Value} : e ∈ products log ↔ ∃ plan m, plan.isShared = true ∧
    plan.id = e.1 ∧ .carried plan (.ok [e.2]) m ∈ log := by
  rw [products, List.mem_filterMap]
  constructor
  · rintro ⟨x, hx, he⟩
    unfold product? at he
    split at he
    next plan v m =>
      split at he
      next shared =>
        obtain rfl := Option.some.inj he
        exact ⟨plan, m, shared, rfl, hx⟩
      next => cases he
    next => cases he
  · rintro ⟨plan, m, shared, same, hx⟩
    exact ⟨_, hx, by simp [product?, shared, same]⟩

/-- What is kept was kept before or has been written down. -/
theorem Stored.planned_of_grown (stored : Stored c m)
    (grown : m'.instances = m.instances ++ products log) (timely : ∀ e ∈ log, Timely c e)
    (kept : Kept m' id) : ∃ plan, c.plan? id = some plan ∧ plan.isShared = true := by
  rw [kept_iff, grown, Table.names, List.map_append, List.mem_append] at kept
  rcases kept with old | new
  · exact stored.planned id (kept_iff.2 old)
  · obtain ⟨e, he, rfl⟩ := List.mem_map.1 new
    obtain ⟨plan, m₁, shared, same, carried⟩ := mem_products.1 he
    exact ⟨plan, same ▸ (timely _ carried).1, shared⟩

theorem get?_of_grown {t : Table Value} (grown : m'.instances = m.instances ++ t)
    (found : m.instances.get? id = some v) : m'.instances.get? id = some v := by
  rw [grown, Table.get?, List.find?_append]
  cases hf : m.instances.find? fun e => e.1 == id with
  | none =>
    rw [Table.get?, hf] at found
    cases found
  | some e =>
    rw [Table.get?, hf] at found
    exact found

/-- No work gives two places to one service. -/
theorem Ran.unique (h : Ran c app self room task m r m') :
    m.instances.names.Nodup → m'.instances.names.Nodup := by
  induction h with
  | nothing | literal | handle | barred | finish | ahead | deep | unknown | kept => exact fun h => h
  | first _ ih | service _ ih | collection _ ih | unready _ _ ih | skip _ _ ih | cold _ _ _ _ ih
  | unprepared _ _ _ ih | meanwhile _ _ _ _ _ _ ih => exact ih
  | next _ _ ih₁ ih₂ | called _ _ _ ih₁ ih₂ | demand _ _ ih₁ ih₂ | broken _ _ _ _ _ _ ih₁ ih₂
  | fresh _ _ _ _ ih₁ ih₂ => exact fun h => ih₂ (ih₁ h)
  | warm _ _ _ _ _ ih₁ ih₂ => exact fun h => ih₂ (Table.nodup_put (ih₁ h))
  | built _ _ _ _ _ _ ih₁ ih₂ => exact fun h => Table.nodup_put (ih₂ (ih₁ h))

/-- What holds of a container between requests. -/
structure Settled (c : Container) (m : Machine σ) : Prop extends Stored c m where
  idle : m.stack = []
  upheld : Upheld c m

theorem Settled.start (s : σ) : Settled c { state := s } where
  planned id := fun ⟨v, hv⟩ => by cases hv
  unique := List.nodup_nil
  idle := rfl
  upheld := upheld_start rfl

namespace Settled

theorem contained (settled : Settled c m) : Contained c m := by
  unfold Contained
  rw [settled.idle]
  exact ⟨List.nodup_nil, fun _ h => nomatch h⟩

theorem roomy : Roomy c (c.planCount + 1) m (.resolve id) :=
  Nat.lt_of_lt_of_le (Nat.lt_succ_self _) (Nat.le_add_right _ _)

/-- What has been asked for has been written down, and what holds between requests holds again. -/
theorem after_resolve (settled : Settled c m) (frozen : Frozen f lockMode privateIds c)
    (h : Logged c app self room (.resolve id) m r m' log) : Settled c m' where
  planned _ kept := settled.toStored.planned_of_grown (h.tells frozen settled.upheld).instances
    (h.timely frozen settled.upheld trivial) kept
  unique := h.ran.unique settled.unique
  idle := h.ran.frame.stack.trans settled.idle
  upheld := (h.ran.upheld frozen settled.upheld).1

end Settled

/-- Requests keep what holds between them, and all that is kept. -/
theorem Serves.settled (frozen : Frozen f lockMode privateIds c)
    {after : Except Failure Value → σ → σ → Prop} (h : Serves c app self after m m')
    (settled : Settled c m) : Settled c m' ∧
      ∀ id v, m.instances.get? id = some v → m'.instances.get? id = some v := by
  refine h.upholds (fun m' => Settled c m' ∧
    ∀ id v, m.instances.get? id = some v → m'.instances.get? id = some v)
    ⟨settled, fun _ _ h => h⟩ (fun m₁ e state ⟨settled, keeps⟩ _ => ⟨?_, keeps⟩) ?_
  · exact ⟨⟨settled.planned, settled.unique⟩, settled.idle, settled.upheld⟩
  · rintro id m₁ q m₂ state ⟨settled, keeps⟩ ran -
    obtain ⟨log, logged⟩ := ran.exists_logged
    have next := settled.after_resolve frozen logged
    refine ⟨⟨⟨next.planned, next.unique⟩, next.idle, next.upheld⟩, fun x v found => ?_⟩
    exact get?_of_grown (logged.tells frozen settled.upheld).instances (keeps x v found)

/-! ## Requests -/

/-- A request from the outside. -/
inductive Request where
  /-- For what an identifier stands for. -/
  | get (id : String)
  /-- For a service, through a handle. -/
  | handle (id : String)

namespace Request

/-- What a container does at a request. -/
def work (c : Container) (app : Application σ) (self : Nat) : Request → Work σ Value
  | .get id => c.get app self id
  | .handle id => c.deferredGet app self id

/-- The request has ended with `q` in the machine `m'`, and `log` has been written down meanwhile.
Nothing is written down of an identifier that is refused. -/
def Logged (c : Container) (app : Application σ) (self : Nat) (m : Machine σ)
    (q : Except Failure Value) (m' : Machine σ) (log : List (Entry σ)) : Request → Prop
  | .get id => (∃ e, c.publicTarget id = .error e ∧ q = .error e ∧ m' = m ∧ log = []) ∨
      ∃ target, c.publicTarget id = .ok target ∧
        Container.Logged c app self (c.planCount + 1) (.resolve target) m (single q) m' log
  | .handle id => Container.Logged c app self (c.planCount + 1) (.resolve id) m (single q) m' log

/-- Whatever is requested can be written down: nothing, or what is asked for. -/
theorem exists_logged {request : Request} {q : Except Failure Value}
    (ends : Ends (request.work c app self) m q m') : ∃ log, request.Logged c app self m q m' log ∧
      (m' = m ∧ log = [] ∨
        ∃ id, Container.Logged c app self (c.planCount + 1) (.resolve id) m (single q) m' log) := by
  cases request with
  | get id =>
    rcases ran_get ends with ⟨e, refused, rfl, rfl⟩ | ⟨target, accepted, ran⟩
    · exact ⟨[], .inl ⟨e, refused, rfl, rfl, rfl⟩, .inl ⟨rfl, rfl⟩⟩
    · obtain ⟨log, logged⟩ := ran.exists_logged
      exact ⟨log, .inr ⟨target, accepted, logged⟩, .inr ⟨target, logged⟩⟩
  | handle id =>
    obtain ⟨log, logged⟩ := (ran_deferredGet ends).exists_logged
    exact ⟨log, logged, .inr ⟨id, logged⟩⟩

end Request

/-- What a request leaves behind that has been written down in `log`. -/
structure Leaves (c : Container) (app : Application σ) (self : Nat)
    (after : Except Failure Value → σ → σ → Prop) (m m' : Machine σ) (log : List (Entry σ)) :
    Prop where
  /-- Nothing else is under construction. -/
  stack : m'.stack = m.stack
  /-- What is kept was kept before, or is the product of a shared service that was constructed. -/
  instances : m'.instances = m.instances ++ products log
  unique : m'.instances.names.Nodup
  /-- So it was all along. -/
  each : ∀ before e after, log = before ++ e :: after →
    e.machine.instances = m.instances ++ products before
  /-- What is kept is the answer to all that is asked for meanwhile. -/
  answers : ∀ id r m₁ v, .asked id r m₁ ∈ log → m₁.instances.get? id = some v → r = .ok [v]
  /-- Where a construction has failed there is no product, and as long as there is none the service
  is constructed at once when it is asked for. -/
  again : ∀ plan e m₁, .carried plan (.error e) m₁ ∈ log → plan.isShared = true →
    ¬ Kept m₁ plan.id ∧ ∀ m₂, (∀ x, Kept m₁ x → Kept m₂ x) → ¬ Kept m₂ plan.id → ∀ room,
      c.resolve app self (room + 1) plan.id m₂ =
        constructShared app self (c.resolve app self room) plan m₂
  /-- What is kept is kept after all later requests, and is the answer to the next one for it. -/
  later : ∀ m₂, Serves c app self after m' m₂ → ∀ id v, m'.instances.get? id = some v →
    m₂.instances.get? id = some v ∧ Ends (c.deferredGet app self id) m₂ (.ok v) m₂ ∧
      ∀ name, c.publicTarget name = .ok id → Ends (c.get app self name) m₂ (.ok v) m₂

/-- What is kept is the answer to all later requests for it. -/
theorem Serves.later (frozen : Frozen f lockMode privateIds c)
    {after : Except Failure Value → σ → σ → Prop} (served : Serves c app self after m m')
    (settled : Settled c m) (found : m.instances.get? id = some v) :
    m'.instances.get? id = some v ∧ Ends (c.deferredGet app self id) m' (.ok v) m' ∧
      ∀ name, c.publicTarget name = .ok id → Ends (c.get app self name) m' (.ok v) m' := by
  obtain ⟨settled', keeps⟩ := served.settled frozen settled
  have found' := keeps id v found
  obtain ⟨plan, hp, shared⟩ := settled'.planned id ⟨v, found'⟩
  have answer : Ends (c.deferredGet app self id) m' (.ok v) m' := resolve_of_kept hp shared found'
  refine ⟨found', answer, fun name accepted => ?_⟩
  unfold Container.get
  exact ends_bind.2 (.inr ⟨id, m', ends_fromResult.2 ⟨accepted.symm, rfl⟩, answer⟩)

/-- Whatever a request comes to, it leaves nothing behind but the products of those shared services
whose factories have returned. They are kept from then on, and are what is answered; where a
construction has failed, the service is constructed again by the next request for it. -/
theorem request_leaves (h : freeze g lockMode privateIds = .ok c) (app : Application σ) (self : Nat)
    {after : Except Failure Value → σ → σ → Prop} {s : σ}
    (served : Serves c app self after { state := s } m) (request : Request)
    {q : Except Failure Value} (ends : Ends (request.work c app self) m q m') :
    ∃ log, request.Logged c app self m q m' log ∧ Leaves c app self after m m' log := by
  have frozen := freeze_eq_ok.1 h
  obtain ⟨settled, -⟩ := served.settled frozen (.start s)
  obtain ⟨log, logged, ⟨rfl, rfl⟩ | ⟨target, resolved⟩⟩ := Request.exists_logged ends
  · refine ⟨[], logged, ?_⟩
    exact {
      stack := rfl
      instances := by simp [products]
      unique := settled.unique
      each := by simp
      answers := by simp
      again := by simp
      later := fun m₂ served id v found => served.later frozen settled found }
  have tells := resolved.tells frozen settled.upheld
  have timely := resolved.timely frozen settled.upheld trivial
  refine ⟨log, logged, ?_⟩
  exact {
    stack := resolved.ran.frame.stack
    instances := tells.instances
    unique := resolved.ran.unique settled.unique
    each := tells.each
    answers := fun id r m₁ v asked found => by
      obtain ⟨before, rest, split⟩ := List.append_of_mem asked
      obtain ⟨plan, hp, shared⟩ := settled.toStored.planned_of_grown (tells.each _ _ _ split)
        (fun e he => timely e (split ▸ List.mem_append_left _ he)) ⟨v, found⟩
      exact resolved.truthful settled.contained Settled.roomy _ asked plan v hp shared found
    again := fun plan e m₁ carried shared => by
      obtain ⟨hp, due⟩ := timely _ carried
      obtain ⟨absent, ready⟩ := due shared
      exact ⟨absent, fun m₂ grows absent₂ room =>
        resolve_of_ready hp shared absent₂ (ready.mono grows)⟩
    later := fun m₂ served id v found =>
      served.later frozen (settled.after_resolve frozen resolved) found }

end Container

/-! ## A factory that fails once -/

/-- An application that fails when its first service is constructed. -/
def Application.flaky : Application Bool where
  call _ _ _ up := .finish (if up then .ok .null else .error (.raised .runtime "down")) true
  note _ up := up

/-- What a request to the container of a graph fails with, the passes left out. -/
def Graph.firstFailure (g : Graph) (id : String) : Option Failure :=
  match Container.freeze g .thread [] with
  | .ok c => match c.get Application.flaky 0 id { state := false } with
    | .ok _ _ => none
    | .error e _ => some e
  | .error _ => none

theorem Container.request_leaves_sample : ∃ c m, freeze Graph.sample .thread [] = .ok c ∧
    Ends ((Request.get "app").work c .flaky 0) { state := false } (.error (.raised .runtime "down")) m ∧
    ∃ log, (Request.get "app").Logged c .flaky 0 { state := false } (.error (.raised .runtime "down")) m
      log ∧ Leaves c .flaky 0 (fun _ _ _ => True) { state := false } m log := by
  have failed : Graph.sample.firstFailure "app" = some (.raised .runtime "down") := by cbv
  unfold Graph.firstFailure at failed
  split at failed
  next c h =>
    split at failed
    next => cases failed
    next e m run =>
      obtain rfl := Option.some.inj failed
      have served : Serves c .flaky 0 (fun _ _ _ => True) { state := false } { state := false } :=
        .start
      exact ⟨c, m, h, run, request_leaves h .flaky 0 served (.get "app") run⟩
  next => cases failed

end Wiring
