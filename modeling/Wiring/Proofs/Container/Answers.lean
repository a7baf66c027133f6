import Wiring.Proofs.Container.Chronicle
import Wiring.Proofs.Container.LockModes

/-!
# Requests that are answered

Where requests are answered one after another, the roll of the instances is complete: the answers
are there, each under the name of its request, and all that has been made has gone into them.
-/

namespace Wiring.Container

open Binding

variable {σ : Type} {f : Graph} {c : Container} {app : Application σ} {self num : Nat}
  {manner : Manner} {lockMode : LockMode} {privateIds : List String} {request : Request}
  {requests : List Request} {ids : List String} {roll : Roll} {k : Nat} {v : Value}
  {vs : List Value}

namespace Request

/-- The service that is asked for. -/
def target (c : Container) : Request → Except Failure String
  | .get id => c.publicTarget id
  | .handle id => .ok id

theorem ran_cases {m m' : Machine σ} {q : Except Failure Value}
    (h : Ends (request.work c app self) m q m') :
    (∃ e, request.target c = .error e ∧ q = .error e ∧ m' = m) ∨
      ∃ id, request.target c = .ok id ∧
        Ran c app self (c.planCount + 1) (.resolve id) m (single q) m' := by
  cases request with
  | get id => exact ran_get h
  | handle id => exact .inr ⟨id, rfl, ran_deferredGet h⟩

theorem ran {m m' : Machine σ} (h : Ends (request.work c app self) m (.ok v) m') :
    ∃ id, request.target c = .ok id ∧
      Ran c app self (c.planCount + 1) (.resolve id) m (.ok [v]) m' := by
  rcases ran_cases h with ⟨e, -, same, -⟩ | accepted
  · cases same
  · exact accepted

end Request

theorem ends_session_nil {m m' : Machine σ} {qs : List (Except Failure Value)} :
    Ends (session c app self []) m (.ok qs) m' ↔ qs = [] ∧ m' = m :=
  ends_pure.trans (by rw [Except.ok.injEq, List.reverse_nil])

theorem ends_session_cons {m m' : Machine σ} {qs : List (Except Failure Value)}
    (h : Ends (session c app self (request :: requests)) m (.ok qs) m') :
    ∃ q m₁ rest, Ends (request.work c app self) m q m₁ ∧
      Ends (session c app self requests) m₁ (.ok rest) m' ∧ qs = q :: rest := by
  unfold session at h
  rw [List.mapM_cons] at h
  obtain ⟨e, -, same⟩ | ⟨q, m₁, first, h⟩ := ends_bind.1 h
  · cases same
  obtain ⟨_, same, first⟩ := ends_observe.1 first
  obtain rfl := Except.ok.inj same
  obtain ⟨e, -, same⟩ | ⟨rest, m₂, others, h⟩ := ends_bind.1 h
  · cases same
  obtain ⟨same, rfl⟩ := ends_pure.1 h
  exact ⟨q, m₁, rest, first, others, Except.ok.inj same⟩

theorem session_cons_ends {m m₁ m' : Machine σ} {q : Except Failure Value}
    {rest : List (Except Failure Value)} (first : Ends (request.work c app self) m q m₁)
    (others : Ends (session c app self requests) m₁ (.ok rest) m') :
    Ends (session c app self (request :: requests)) m (.ok (q :: rest)) m' := by
  unfold session
  rw [List.mapM_cons]
  refine ends_bind.2 (.inr ⟨q, m₁, ends_observe.2 ⟨q, rfl, first⟩, ?_⟩)
  exact ends_bind.2 (.inr ⟨rest, m', others, ends_pure.2 ⟨rfl, rfl⟩⟩)

/-- The name of the answer to a request. -/
def answer (k : Nat) : Name := ⟨.request k, []⟩

/-- What is on the roll when the services `ids` have been asked for and the answers are `vs`. -/
structure Complete (c : Container) (num : Nat) (manner : Manner) (roll : Roll) (ids : List String)
    (vs : List Value) : Prop where
  written : Written c num manner roll
  answers : FillsAll c num roll answer 0 (ids.map .service) vs
  stems : ∀ n < roll.length, Stems roll vs n

/-- What there is between requests: all that has been made is on the roll, and nothing has been made
yet in the places of the requests from number `k` on. -/
structure Between (c : Container) (num : Nat) (manner : Manner) (k : Nat) (m : Machine Ledger)
    (roll : Roll) : Prop where
  up : Upheld c m
  idle : m.stack = []
  chronicle : Chronicle c num manner m roll fun _ => False
  fresh : ∀ e ∈ roll, ∀ j, k ≤ j → e.name.root ≠ .request j

namespace Between

variable {m m' : Machine Ledger} {id : String}

theorem start : Between c num manner k { state := {} } [] where
  up := upheld_start rfl
  idle := rfl
  chronicle := ⟨rfl, .nil, (fun _ _ _ h => nomatch h), (fun _ h => nomatch h)⟩
  fresh _ h := nomatch h

/-- The place of the next request is clear. -/
theorem clear (h : Between c num manner k m roll) (id : String) :
    Clear (.resolve id) answer k m roll where
  fresh j hj e he covers := h.fresh e he j hj.1 covers.1
  apart i j _ _ x hi hj := Root.request.inj (hi.1.symm.trans hj.1)
  rooted _ _ _ hr := nomatch hr

/-- A request that is answered extends the roll by what goes into the answer. -/
theorem answered {room : Nat} (h : Between c num manner k m roll)
    (frozen : Frozen f lockMode privateIds c)
    (ran : Ran c (.making manner) num room (.resolve id) m (.ok [v]) m') :
    ∃ new, Between c num manner (k + 1) m' (roll ++ new) ∧
      Fills c num (roll ++ new) (answer k) (.service id) v ∧ Accounts roll new [v] := by
  obtain ⟨new, w, grows, same, fills, accounts⟩ :=
    ran.comes frozen rfl h.up h.chronicle (h.clear id)
  obtain rfl : v = w := (List.cons.inj same).1
  have settled : Chronicle c num manner m' (roll ++ new) fun _ => False :=
    grows.chronicle.mono fun _ ⟨_, _, _, hr⟩ => nomatch hr
  refine ⟨new, ⟨(ran.upheld frozen h.up).1, grows.stack.trans h.idle, settled,
    fun e he j hj hr => ?_⟩, fills, accounts⟩
  rcases List.mem_append.1 he with he | he
  · exact h.fresh e he j (Nat.le_of_succ_le hj) hr
  rcases grows.places e he with ⟨i, ⟨-, hi⟩, covers⟩ | ⟨id, hr', -⟩
  · obtain rfl := Root.request.inj (covers.1.symm.trans hr)
    exact absurd hi (Nat.not_lt.2 hj)
  · cases hr.symm.trans hr'

end Between

/-- Requests that are answered extend the roll by what goes into the answers. -/
theorem answers_written {m m' : Machine Ledger} (frozen : Frozen f lockMode privateIds c)
    (h : Ends (session c (.making manner) num requests) m (.ok (vs.map .ok)) m')
    (between : Between c num manner k m roll) :
    ∃ new ids, List.Forall₂ (fun q id => q.target c = .ok id) requests ids ∧
      Chronicle c num manner m' (roll ++ new) (fun _ => False) ∧
        FillsAll c num (roll ++ new) answer k (ids.map .service) vs ∧ Accounts roll new vs := by
  induction requests generalizing vs m roll k with
  | nil =>
    obtain ⟨none, rfl⟩ := ends_session_nil.1 h
    obtain rfl := List.map_eq_nil_iff.1 none
    exact ⟨[], [], .nil, by simpa using between.chronicle, .nil, .nothing⟩
  | cons request requests ih =>
    obtain ⟨q, m₁, rest, first, others, same⟩ := ends_session_cons h
    obtain ⟨v, vs, rfl, rfl, rfl⟩ := List.map_eq_cons_iff.1 same
    obtain ⟨id, target, ran⟩ := Request.ran first
    obtain ⟨new, next, fills, accounts⟩ := between.answered frozen ran
    obtain ⟨new', ids, targets, chronicle', fills', accounts'⟩ := ih others next
    rw [List.append_assoc] at chronicle' fills'
    refine ⟨new ++ new', id :: ids, .cons target targets, chronicle', ?_,
      accounts.append accounts'⟩
    have head : FillsAll c num (roll ++ new) answer k [.service id] [v] := .single fills
    have head := head.more new'
    rw [List.append_assoc] at head
    exact head.append fills'

/-- The roll of all instances is complete when requests have been answered. -/
theorem exists_complete {m : Machine Ledger} (frozen : Frozen f lockMode privateIds c)
    (h : Ends (session c (.making manner) num requests) { state := {} } (.ok (vs.map .ok)) m) :
    ∃ roll ids, List.Forall₂ (fun q id => q.target c = .ok id) requests ids ∧
      m.state.made = roll.map (·.made) ∧ Complete c num manner roll ids vs := by
  obtain ⟨new, ids, targets, chronicle, fills, accounts⟩ :=
    answers_written (k := 0) frozen h .start
  exact ⟨new, ids, targets, chronicle.made, chronicle.written, fills,
    fun n lt => accounts n (Nat.zero_le n) lt⟩

end Wiring.Container
