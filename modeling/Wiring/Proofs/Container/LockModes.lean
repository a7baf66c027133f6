import Wiring.Proofs.Container.Replay
import Wiring.Proofs.Container.Requests

/-!
# Locks make no difference

What is done ahead for a service never ends with a product of that service. So the second look at
what is kept, which is taken under a lock, finds what the first one did: nothing. A container with
locks and one without do the same, and what they keep is kept once.
-/

namespace Wiring.Container

open Graph Entry

variable {σ : Type} {g : Graph} {c : Container} {app : Application σ} {self room : Nat}
  {lockMode : LockMode} {privateIds : List String} {task : Task σ} {plan : ServicePlan}
  {m m₁ m' : Machine σ} {r : Except Failure (List Value)} {id : String} {v : Value}
  {q : Except Failure Value} {log : List (Entry σ)}

/-! ## Other locks -/

/-- The container with other locks. -/
def relock (c : Container) (lockMode : LockMode) (locks : Table Nat) : Container :=
  { c with lockMode, locks }

/-- A graph that can be frozen can be frozen with any locks. -/
theorem Frozen.exists_relock (frozen : Frozen g lockMode privateIds c) (lockMode' : LockMode) :
    ∃ locks, Frozen g lockMode' privateIds (c.relock lockMode' locks) := by
  have known : ∃ locks, buildLocks g c.plans lockMode' = .ok locks := by
    cases lockMode' with
    | unguarded => exact ⟨[], rfl⟩
    | thread =>
      obtain ⟨edges, he⟩ := exists_edges fun d hd => by
        obtain ⟨p, -, planned⟩ := forall₂_mem_left frozen.plans hd
        exact ⟨p, planned⟩
      exact ⟨_, bind_eq_ok.2 ⟨edges, he, rfl⟩⟩
  obtain ⟨locks, built⟩ := known
  exact ⟨locks, {
    plans := frozen.plans
    aliases := frozen.aliases
    graph := frozen.graph
    heights := frozen.heights
    locks := built
    lockMode_eq := rfl
    privateIds_eq := frozen.privateIds_eq
    orders := frozen.orders }⟩

/-- Whatever has run runs with any locks, and the same is written down. -/
theorem Logged.relock (frozen : Frozen g lockMode privateIds c)
    (h : Logged c app self room task m r m' log) (up : Upheld c m) (lockMode' : LockMode)
    (locks : Table Nat) : Logged (c.relock lockMode' locks) app self room task m r m' log := by
  induction h with
  | nothing => exact .nothing
  | first _ ih => exact .first (ih up)
  | next h _ ih₁ ih₂ => exact .next (ih₁ up) (ih₂ (h.ran.upheld frozen up).1)
  | literal => exact .literal
  | handle => exact .handle
  | service _ ih => exact .service (ih up)
  | collection _ ih => exact .collection (ih up)
  | barred barred => exact .barred barred
  | unready free _ ih => exact .unready free (ih up)
  | called free h _ ih₁ ih₂ => exact .called free (ih₁ up) (ih₂ (h.ran.upheld frozen up).1)
  | finish => exact .finish
  | demand h _ ih₁ ih₂ => exact .demand (ih₁ up) (ih₂ (h.ran.upheld frozen up).1)
  | ahead => exact .ahead
  | skip served _ ih => exact .skip served (ih up)
  | warm hp shared absent h _ ih₁ ih₂ =>
    obtain ⟨up₁, done⟩ := h.ran.upheld frozen up
    exact .warm hp shared absent (ih₁ up)
      (ih₂ (up₁.keep frozen (id_of_plan? hp ▸ hp) (done _ rfl) _))
  | cold hp shared absent _ ih => exact .cold hp shared absent (ih up)
  | deep => exact .deep
  | unknown none => exact .unknown none
  | kept hp shared found => exact .kept hp shared found
  | unprepared hp unserved _ ih => exact .unprepared hp unserved (ih up)
  | meanwhile hp unserved shared _ h found =>
    -- nobody else has built the service
    obtain rfl := id_of_plan? hp
    exact absurd ⟨_, found⟩
      (h.ran.unkept_ahead frozen hp up fun kept => unserved ⟨shared, kept⟩)
  | built hp unserved shared h _ _ ih₁ ih₂ =>
    obtain rfl := id_of_plan? hp
    have absent := h.ran.unkept_ahead frozen hp up fun kept => unserved ⟨shared, kept⟩
    exact .built hp unserved shared (ih₁ up) (fun _ => not_kept.1 absent)
      (ih₂ (h.ran.upheld frozen up).1)
  | broken hp unserved shared h _ _ ih₁ ih₂ =>
    obtain rfl := id_of_plan? hp
    have absent := h.ran.unkept_ahead frozen hp up fun kept => unserved ⟨shared, kept⟩
    exact .broken hp unserved shared (ih₁ up) (fun _ => not_kept.1 absent)
      (ih₂ (h.ran.upheld frozen up).1)
  | fresh hp single h _ ih₁ ih₂ => exact .fresh hp single (ih₁ up) (ih₂ (h.ran.upheld frozen up).1)

/-! ## Machines that can arise -/

/-- The machines that can arise while a container is at work, in the middle of it too: what is
under construction may come and go, the application may change, and whatever is done next may
have run. A product is kept once the plan of its service has been carried out. -/
inductive Arises (c : Container) (app : Application σ) (self : Nat) : Machine σ → Prop
  | start {s : σ} : Arises c app self { state := s }
  | ran {room : Nat} {task : Task σ} {r : Except Failure (List Value)} {m m' : Machine σ} :
    Arises c app self m → Ran c app self room task m r m' → Arises c app self m'
  | keep {room : Nat} {plan : ServicePlan} {v : Value} {m m' : Machine σ} : Arises c app self m →
      c.plan? plan.id = some plan → Ran c app self room (.value (.inline plan)) m (.ok [v]) m' →
      Arises c app self (m'.keep plan.id v)
  | move {m : Machine σ} {stack : List String} {state : σ} : Arises c app self m →
      Arises c app self { m with stack, state }

namespace Arises

theorem upheld (frozen : Frozen g lockMode privateIds c) (h : Arises c app self m) : Upheld c m := by
  induction h with
  | start => exact upheld_start rfl
  | ran _ ran ih => exact (ran.upheld frozen ih).1
  | keep _ hp ran ih =>
    obtain ⟨up, done⟩ := ran.upheld frozen ih
    exact up.keep frozen hp (done _ rfl) _
  | move _ ih => exact ih

/-- So do the machines in which anything is written down. -/
theorem logged (h : Logged c app self room task m r m' log) (arises : Arises c app self m) :
    ∀ e ∈ log, Arises c app self e.machine := by
  induction h with
  | nothing | literal | handle | barred | finish | ahead => exact fun _ he => nomatch he
  | deep | unknown | kept =>
    intro e he
    obtain rfl := List.mem_singleton.1 he
    exact arises
  | first _ ih | service _ ih | collection _ ih | skip _ _ ih => exact ih arises
  | unready _ _ ih => exact ih arises.move
  | next h _ ih₁ ih₂ =>
    intro e he
    exact (List.mem_append.1 he).elim (ih₁ arises e) (ih₂ (arises.ran h.ran) e)
  | @called _ plan m _ _ _ _ _ _ _ h _ ih₁ ih₂ =>
    have pushed : Arises c app self (m.push plan.id) := arises.move
    intro e he
    exact (List.mem_append.1 he).elim (ih₁ pushed e) (ih₂ (pushed.ran h.ran).move e)
  | demand h _ ih₁ ih₂ =>
    intro e he
    exact (List.mem_append.1 he).elim (ih₁ arises.move e) (ih₂ (arises.move.ran h.ran) e)
  | warm hp shared absent h _ ih₁ ih₂ =>
    intro e he
    rcases List.mem_append.1 he with he | he
    · exact ih₁ arises e he
    rcases List.mem_cons.1 he with rfl | he
    · exact arises.ran h.ran
    · exact ih₂ (arises.keep (id_of_plan? hp ▸ hp) h.ran) e he
  | cold _ _ _ h ih =>
    intro e he
    rcases List.mem_append.1 he with he | he
    · exact ih arises e he
    · obtain rfl := List.mem_singleton.1 he
      exact arises.ran h.ran
  | unprepared _ _ _ ih | meanwhile _ _ _ _ _ _ ih =>
    intro e he
    rcases List.mem_cons.1 he with rfl | he
    · exact arises
    · exact ih arises e he
  | built _ _ _ h _ h' ih₁ ih₂ | broken _ _ _ h _ h' ih₁ ih₂ | fresh _ _ h h' ih₁ ih₂ =>
    intro e he
    rcases List.mem_cons.1 he with rfl | he
    · exact arises
    rcases List.mem_append.1 he with he | he
    · exact ih₁ arises e he
    rcases List.mem_append.1 he with he | he
    · exact ih₂ (arises.ran h.ran) e he
    · obtain rfl := List.mem_singleton.1 he
      exact (arises.ran h.ran).ran h'.ran

end Arises

/-- So do the machines between requests. -/
theorem Serves.arises {after : Except Failure Value → σ → σ → Prop} {s : σ}
    (h : Serves c app self after { state := s } m) : Arises c app self m :=
  h.upholds (Arises c app self) .start (fun _ _ _ arises _ => arises.move)
    (fun _ _ _ _ _ arises ran _ => (arises.ran ran).move)

/-! ## Agreement -/

/-- Requests one after another, with all their answers. -/
def session (c : Container) (app : Application σ) (self : Nat) (requests : List Request) :
    Work σ (List (Except Failure Value)) :=
  requests.mapM fun request => observe (request.work c app self)

/-- How two containers agree that differ in their locks. -/
structure Agree (c c' : Container) (app : Application σ) (n : Nat) : Prop where
  /-- What is done ahead for a shared service that is not kept leaves it so, and a lock makes no
  difference to its construction. -/
  ahead : ∀ m, Arises c app n m → ∀ id plan, c.plan? id = some plan → plan.isShared = true →
    ¬ Kept m id → ∀ room m', Ends (prewarm c app n (resolve c app n room) id) m (.ok ()) m' →
      ¬ Kept m' id ∧ constructGuarded c app n (resolve c app n room) plan m' =
        constructShared app n (resolve c app n room) plan m'
  /-- Whenever a product comes to be kept there was none. -/
  once : ∀ m, Arises c app n m → ∀ request : Request, ∀ q m' log,
    request.Logged c app n m q m' log → m'.instances = m.instances ++ products log ∧
      ∀ plan v m₁, .carried plan (.ok [v]) m₁ ∈ log → plan.isShared = true → ¬ Kept m₁ plan.id
  /-- The same services are asked for and constructed, in the same order. -/
  logged : ∀ m, Arises c app n m → ∀ request : Request, ∀ q m' log,
    request.Logged c app n m q m' log ↔ request.Logged c' app n m q m' log
  /-- A request comes to the same. -/
  work : ∀ m, Arises c app n m → ∀ request : Request,
    request.work c app n m = request.work c' app n m
  /-- So do requests one after another. -/
  session : ∀ m, Arises c app n m → ∀ requests,
    session c app n requests m = session c' app n requests m
  /-- The containers come to the same machines, whatever the application does between requests. -/
  serves : ∀ (after : Except Failure Value → σ → σ → Prop) s m,
    Serves c app n after { state := s } m ↔ Serves c' app n after { state := s } m

theorem Ends.eq {α : Type} {x y : Work σ α} {q : Except Failure α} (h : Ends x m q m')
    (h' : Ends y m q m') : x m = y m := Eq.trans h h'.symm

namespace Request

variable {request : Request}

/-- What is written down is what is done. -/
theorem ends (h : request.Logged c app self m q m' log) : Ends (request.work c app self) m q m' := by
  cases request with
  | handle id => exact ends_resolve_iff.2 (Container.Logged.ran h)
  | get id =>
    unfold work Container.get
    rcases h with ⟨e, refused, rfl, rfl, -⟩ | ⟨target, accepted, logged⟩
    · exact ends_bind_error (ends_fromResult.2 ⟨refused.symm, rfl⟩)
    · exact ends_bind_ok (ends_fromResult.2 ⟨accepted.symm, rfl⟩) (ends_resolve_iff.2 logged.ran)

theorem relock (frozen : Frozen g lockMode privateIds c)
    (h : request.Logged c app self m q m' log) (up : Upheld c m) (lockMode' : LockMode)
    (locks : Table Nat) : request.Logged (c.relock lockMode' locks) app self m q m' log := by
  cases request with
  | handle id => exact Container.Logged.relock frozen h up lockMode' locks
  | get id =>
    rcases h with refused | ⟨target, accepted, logged⟩
    · exact .inl refused
    · exact .inr ⟨target, accepted, logged.relock frozen up lockMode' locks⟩

/-- What is kept after a request was kept before or has been constructed, where nothing was. -/
theorem once (frozen : Frozen g lockMode privateIds c) (h : request.Logged c app self m q m' log)
    (up : Upheld c m) : m'.instances = m.instances ++ products log ∧
      ∀ plan v m₁, .carried plan (.ok [v]) m₁ ∈ log → plan.isShared = true → ¬ Kept m₁ plan.id := by
  have once {id : String}
      (h : Container.Logged c app self (c.planCount + 1) (.resolve id) m (single q) m' log) :
      m'.instances = m.instances ++ products log ∧
        ∀ plan v m₁, .carried plan (.ok [v]) m₁ ∈ log → plan.isShared = true →
          ¬ Kept m₁ plan.id :=
    ⟨(h.tells frozen up).instances, fun plan v m₁ carried shared =>
      ((h.timely frozen up trivial _ carried).2 shared).1⟩
  cases request with
  | handle id => exact once h
  | get id =>
    rcases h with ⟨e, -, -, rfl, rfl⟩ | ⟨target, -, logged⟩
    · exact ⟨by simp [products], by simp⟩
    · exact once logged

/-- The machine after a request is one that can arise. -/
theorem arises (ends : Ends (request.work c app self) m q m') (arises : Arises c app self m) :
    Arises c app self m' := by
  obtain ⟨log, -, ⟨rfl, -⟩ | ⟨id, logged⟩⟩ := exists_logged ends
  · exact arises
  · exact arises.ran logged.ran

end Request

section Same

variable {c' : Container} (same : ∀ m, Arises c app self m → ∀ request : Request,
  request.work c app self m = request.work c' app self m)

include same

/-- Requests one after another come to the same if each does. -/
theorem session_eq (arises : Arises c app self m) (requests : List Request) :
    session c app self requests m = session c' app self requests m := by
  unfold session
  induction requests generalizing m with
  | nil => rfl
  | cons request requests ih =>
    obtain ⟨q, m₁, ends⟩ := exists_ends (request.work c app self) m
    have ends' : Ends (request.work c' app self) m q m₁ := (same m arises request).symm.trans ends
    obtain ⟨rest, m₂, last⟩ := exists_ends
      (requests.mapM fun request => observe (request.work c app self)) m₁
    have last' := (ih (Request.arises ends arises)).symm.trans last
    rw [List.mapM_cons, List.mapM_cons]
    refine Ends.eq (ends_bind_ok (ends_observe.2 ⟨q, rfl, ends⟩) (ends_bind_pure last)) ?_
    exact ends_bind_ok (ends_observe.2 ⟨q, rfl, ends'⟩) (ends_bind_pure last')

/-- Containers come to the same machines if requests come to the same. -/
theorem serves_iff {after : Except Failure Value → σ → σ → Prop} {s : σ} :
    Serves c app self after { state := s } m ↔ Serves c' app self after { state := s } m := by
  constructor
  · intro served
    induction served with
    | start => exact .start
    | @get id _ m₁ _ _ before ends next ih =>
      exact .get ih ((same m₁ before.arises (.get id)).symm.trans ends) next
    | @handle id _ m₁ _ _ before ends next ih =>
      exact .handle ih ((same m₁ before.arises (.handle id)).symm.trans ends) next
  · intro served
    induction served with
    | start => exact .start
    | @get id _ m₁ _ _ _ ends next ih =>
      exact .get ih ((same m₁ ih.arises (.get id)).trans ends) next
    | @handle id _ m₁ _ _ _ ends next ih =>
      exact .handle ih ((same m₁ ih.arises (.handle id)).trans ends) next

end Same

/-- What is done ahead for a shared service keeps no product of it, whatever asks for it meanwhile.
So a container does the same with locks and without: requests in any order have the same answers,
construct the same services and keep the same products, each of them once. -/
theorem lockModes_agree (h : freeze g lockMode privateIds = .ok c) (lockMode' : LockMode) :
    ∃ locks, freeze g lockMode' privateIds = .ok (c.relock lockMode' locks) ∧
      ∀ (σ : Type) (app : Application σ) (self : Nat),
        Agree c (c.relock lockMode' locks) app self := by
  have frozen := freeze_eq_ok.1 h
  obtain ⟨locks, frozen'⟩ := frozen.exists_relock lockMode'
  refine ⟨locks, freeze_eq_ok.2 frozen', fun σ app self => ?_⟩
  have logged (m : Machine σ) (arises : Arises c app self m) (request : Request)
      (q : Except Failure Value) (m' : Machine σ) (log : List (Entry σ)) :
      request.Logged c app self m q m' log ↔
        request.Logged (c.relock lockMode' locks) app self m q m' log := by
    have up := arises.upheld frozen
    exact ⟨fun h => Request.relock frozen h up lockMode' locks,
      fun h => Request.relock frozen' h up c.lockMode c.locks⟩
  have work (m : Machine σ) (arises : Arises c app self m) (request : Request) :
      request.work c app self m = request.work (c.relock lockMode' locks) app self m := by
    obtain ⟨q, m', ends⟩ := exists_ends (request.work c app self) m
    obtain ⟨log, written, -⟩ := Request.exists_logged ends
    exact ends.eq (Request.ends ((logged m arises request q m' log).1 written))
  exact {
    ahead := fun m arises id plan hp shared absent room m' done => by
      obtain rfl := id_of_plan? hp
      have ran := ran_prewarm (ran_resolve c app self room) _ m _ m' done
      have still := ran.unkept_ahead frozen hp (arises.upheld frozen) absent
      exact ⟨still, constructGuarded_of_absent still⟩
    once := fun m arises request q m' log written =>
      Request.once frozen written (arises.upheld frozen)
    logged
    work
    session := fun m arises requests => session_eq work arises requests
    serves := fun after s m => serves_iff work }

theorem lockModes_agree_sample : ∃ c locks, freeze Graph.sample .thread [] = .ok c ∧
    freeze Graph.sample .unguarded [] = .ok (c.relock .unguarded locks) ∧
    ∀ s : Bool, (Request.get "app").work c .flaky 0 { state := s } =
      (Request.get "app").work (c.relock .unguarded locks) .flaky 0 { state := s } := by
  have failed : Graph.sample.firstFailure "app" = some (.raised .runtime "down") := by cbv
  unfold Graph.firstFailure at failed
  split at failed
  next c h =>
    obtain ⟨locks, frozen, agree⟩ := lockModes_agree h .unguarded
    exact ⟨c, locks, h, frozen, fun s => (agree Bool .flaky 0).work _ .start _⟩
  next => cases failed

end Wiring.Container
