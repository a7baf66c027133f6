import Wiring.Proofs.Container.Retracing
import Wiring.Proofs.Container.Stack

/-!
# A container that follows another

Where a container has answered requests, another one answers them too, if it has plans in places
where the first has services. Whatever it comes to construct has been made by the first, which never
needed an instance of a service for one of the same service; so nothing is constructed within
itself.
-/

namespace Wiring.Container

open Binding

variable {f : Graph} {c c' : Container} {num room : Nat} {manner : Manner} {lockMode : LockMode}
  {privateIds : List String} {roll roll' : Roll} {ids : List String} {vs : List Value}
  {arc : Bool → String → String → Prop} {rank : String → Nat} {m m' : Machine Ledger}
  {task : Task Ledger} {r : Except Failure (List Value)} {name : Nat → Name} {k : Nat}
  {plan : ServicePlan} {a : String}

/-- A plan in a plan of the container has a place. -/
theorem Holds.exists_part (h : c.Holds plan) : ∃ host path, Part c host path plan := by
  induction h with
  | @plan _ plan hp => exact ⟨plan, [], id_of_plan? hp ▸ hp, rfl⟩
  | @inner outer plan _ hb ih =>
    obtain ⟨host, path, part⟩ := ih
    have leaf : .inline plan ∈ leavesAll outer.allBindings := by
      rw [leavesAll_eq]
      exact List.mem_flatMap.2 ⟨_, hb, List.mem_singleton.2 rfl⟩
    obtain ⟨j, hj⟩ := List.mem_iff_getElem?.1 leaf
    exact ⟨host, path ++ [j], part.planned, ServicePlan.part?_concat part.found hj⟩

/-- What has been made is a guide: the arcs that the plans follow lead from what is on the roll to
what is on the roll, down the ranks, and so does what factories have asked for. -/
structure Guides (c : Container) (roll : Roll) (arc : Bool → String → String → Prop)
    (rank : String → Nat) : Prop where
  laid : Laid c arc
  falls : ∀ a b, arc false a b → OnRoll roll a → OnRoll roll b ∧ rank b < rank a
  asked : ∀ e ∈ roll, ∀ id ∈ e.asked, OnRoll roll id ∧ rank id < rank e.plan.id ∧
    ∃ plan, c.plan? id = some plan

theorem Guides.lower (h : Guides c roll arc rank) {b : String}
    (path : Relation.TransGen (arc false) a b) (there : OnRoll roll a) :
    OnRoll roll b ∧ rank b < rank a := by
  induction path with
  | single eager => exact h.falls _ _ eager there
  | tail _ eager ih =>
    obtain ⟨there, lt⟩ := h.falls _ _ eager ih.1
    exact ⟨there, Nat.lt_trans lt ih.2⟩

/-- The task is concerned with services that are on the roll, of lower ranks than what is under
construction; a factory that is called goes the way that it has gone for an instance on the roll. -/
def Repeats (c : Container) (num : Nat) (manner : Manner) (roll : Roll)
    (arc : Bool → String → String → Prop) (rank : String → Nat) (room : Nat) (m : Machine Ledger)
    (roll' : Roll) (name : Nat → Name) (k : Nat) : Task Ledger → Prop
  | .evaluate bs => ∃ a, OnRoll roll a ∧ Above rank room m (rank a) ∧ ∀ b ∈ bs, Wired c arc a b
  | .value (.inline plan) => Open rank room m (rank plan.id) ∧ OnRoll roll plan.id ∧
      c.Holds plan ∧ ∀ b ∈ plan.allBindings, Wired c arc plan.id b
  | .value b => ∃ a, OnRoll roll a ∧ Above rank room m (rank a) ∧ Wired c arc a b
  | .carryOut call => ∃ e ∈ roll, ∃ plan x asked ls os i, plan.id = e.plan.id ∧ c.Holds plan ∧
      Above rank room m (rank plan.id) ∧ name = x.child ∧
        k = (leavesAll plan.allBindings).length + os.length ∧
          Retraces c num roll' e plan x asked ls os ∧
            call = .making i ((plan.asks manner ls).after os) m.state
  | .prewarm ids => ∀ y ∈ ids, Open rank room m (rank y) ∧ OnRoll roll y
  | .resolve id => Open rank room m (rank id) ∧ rank id < room ∧ OnRoll roll id ∧
      ∃ plan, c.plan? id = some plan

theorem repeats_value (guides : Guides c roll arc rank) (there : OnRoll roll a)
    (above : Above rank room m (rank a)) {b : Binding} (wired : Wired c arc a b) :
    Repeats c num manner roll arc rank room m roll' name k (.value b) := by
  cases b with
  | inline plan =>
    cases wired with
    | inline eager held inner =>
      obtain ⟨there, lt⟩ := guides.falls _ _ eager there
      exact ⟨above.opens lt, there, held, inner⟩
  | _ => exact ⟨a, there, above, wired⟩

/-- Where a service can be resolved, so can what its plan leads to, in less room. -/
theorem repeats_ahead (guides : Guides c roll arc rank) (hp : c.plan? a = some plan)
    (repeats : Repeats c num manner roll arc rank (room + 1) m roll' name k (.resolve a)) :
    Repeats c num manner roll arc rank room m roll' name k (.prewarm (c.orderOf a).dropLast) := by
  intro y hy
  obtain ⟨free, bound, there, -⟩ := repeats
  obtain ⟨there, lt⟩ := guides.lower (guides.laid.order _ _ hp y hy) there
  exact ⟨⟨fun x hx => Nat.lt_trans lt (free.1 x hx), Nat.le_of_lt_succ (Nat.lt_trans lt bound)⟩,
    there⟩

/-- A factory that goes the way that it has gone before asks for what is on the roll, and goes on
that way with the answer. -/
theorem repeats_demand (complete : Complete c num manner roll ids vs) (embeds : Embeds c c)
    (embeds' : Embeds c c') (uniform : manner.Uniform) (guides : Guides c' roll arc rank)
    (written : Written c' num manner roll') {id : String} {state : Ledger}
    {resume : Except Failure Value → Ledger → Call Ledger}
    (repeats : Repeats c' num manner roll arc rank room m roll' name k
      (.carryOut (.demand id state resume))) :
    state = m.state ∧ Repeats c' num manner roll arc rank room m roll' name k (.resolve id) ∧
      ∀ (v : Value) (m₁ : Machine Ledger) (new : Roll), m₁.stack = m.stack →
        Fills c' num (roll' ++ new) (name k) (.service id) v →
          Repeats c' num manner roll arc rank room m₁ (roll' ++ new) name (k + 1)
            (.carryOut (resume (.ok v) m₁.state)) := by
  obtain ⟨e, he, plan, x, asked, ls, os, i, same, held, above, rfl, rfl, retraces, call⟩ := repeats
  obtain ⟨n, hn⟩ := List.mem_iff_getElem?.1 he
  obtain ⟨host, path, part⟩ := held.exists_part
  have grown : e.plan.Grown plan := by
    obtain ⟨plan₀, hp, grown⟩ := embeds'.grown host path plan part
    rw [same, complete.planned embeds hn] at hp
    exact Option.some.inj hp ▸ grown
  cases asks : (plan.asks manner ls).after os with
  | enough =>
    rw [asks, Call.making] at call
    cases call
  | ask id' next =>
    have begun := retraces.next complete.written written embeds' part hn grown uniform asks
    rw [asks, Call.making] at call
    obtain ⟨rfl, rfl, rfl⟩ := Call.demand.inj call
    obtain ⟨there, lt, planned⟩ := guides.asked e he id
      (begun.subset (List.mem_append_right _ (List.mem_singleton.2 rfl)))
    rw [← same] at lt
    refine ⟨rfl, ⟨above.opens lt, Nat.lt_of_lt_of_le lt above.2, there, planned⟩,
      fun v m₁ new stack fills => ?_⟩
    refine ⟨e, he, plan, x, asked ++ [id], ls, os ++ [v], { i with obtained := i.obtained ++ [v] },
      same, held, ⟨stack ▸ above.1, above.2⟩, rfl, ?_, retraces.concat fills begun, ?_⟩
    · rw [List.length_append, List.length_singleton, Nat.add_assoc]
    · rw [Asks.after_concat asks]

/-- Where a container follows another, every task that it comes to succeeds. -/
theorem Ran.succeeds (frozen : Frozen f lockMode privateIds c')
    (complete : Complete c num manner roll ids vs) (embeds : Embeds c c) (embeds' : Embeds c c')
    (uniform : manner.Uniform) (guides : Guides c' roll arc rank)
    (h : Ran c' (.making manner) num room task m r m') (up : Upheld c' m)
    (chronicle : Chronicle c' num manner m roll' fun _ => False)
    (clear : Clear task name k m roll')
    (repeats : Repeats c' num manner roll arc rank room m roll' name k task) :
    ∃ vs, r = .ok vs := by
  have failed {e : Failure} {P : Prop} (h : ∃ vs : List Value, Except.error e = .ok vs) : P := by
    obtain ⟨vs, same⟩ := h
    cases same
  have opened {m m₁ : Machine Ledger} {plan : ServicePlan} {room : Nat} {roll' : Roll}
      {name : Nat → Name} {k : Nat} (hp : c'.plan? plan.id = some plan) (frame : Frame m m₁)
      (free : Open rank room m (rank plan.id)) (there : OnRoll roll plan.id) :
      Repeats c' num manner roll arc rank room m₁ roll' name k (.value (.inline plan)) :=
    ⟨free.frame frame, there, .plan hp, guides.laid.wired _ _ hp⟩
  induction h generalizing roll' name k with
  | nothing | literal | handle | ahead | kept | meanwhile | built => exact ⟨_, rfl⟩
  | first _ ih =>
    obtain ⟨a, there, above, wired⟩ := repeats
    exact failed (ih up chronicle (clear.first (.head _ _))
      (repeats_value guides there above (wired _ List.mem_cons_self)))
  | @next _ b bs m m₁ _ _ r ran _ _ ih =>
    obtain ⟨a, there, above, wired⟩ := repeats
    obtain ⟨new, ls, grows, -⟩ := ran.comes frozen rfl up chronicle (clear.first (.head b bs))
    obtain ⟨ws, rfl⟩ := ih (ran.upheld frozen up).1 (grows.settled clear (.head b bs))
      (clear.tail grows)
      ⟨a, there, above.frame ran.frame, fun b hb => wired b (List.mem_cons_of_mem _ hb)⟩
    exact ⟨_, rfl⟩
  | service _ ih =>
    obtain ⟨a, there, above, wired⟩ := repeats
    cases wired with
    | service eager planned =>
      obtain ⟨there, lt⟩ := guides.falls _ _ eager there
      exact ih up chronicle ⟨clear.fresh, clear.apart, clear.rooted⟩
        ⟨above.opens lt, Nat.lt_of_lt_of_le lt above.2, there, planned⟩
  | collection _ ih =>
    obtain ⟨a, there, above, wired⟩ := repeats
    cases wired with
    | collection items =>
      obtain ⟨ws, rfl⟩ := ih up chronicle ⟨clear.fresh, clear.apart, clear.rooted⟩
        ⟨a, there, above, items⟩
      exact ⟨_, rfl⟩
  | barred barred => exact absurd (repeats.1.1 _ barred) (Nat.lt_irrefl _)
  | @unready _ plan _ _ e _ _ ih =>
    obtain ⟨free, there, -, wired⟩ := repeats
    exact failed (ih up (chronicle.push plan.id)
      ((clear.call (.finish (.error e) {})).first (.leaves plan _)) ⟨_, there, free.push, wired⟩)
  | @called _ plan m m₁ m' us _ _ ran _ _ ih =>
    let call := callOf (.making manner) plan us (m₁.construct (.making manner) plan.id).state
    obtain ⟨free, ⟨e, he, same⟩, held, -⟩ := repeats
    have clear' := clear.call call
    obtain ⟨new, ls, grows, rfl, fills, -⟩ :=
      ran.comes frozen rfl up (chronicle.push plan.id) (clear'.first (.leaves plan call))
    have clear₂ := clear'.asked grows
    have settled := grows.settled clear' (.leaves plan call)
    have above : Above rank _ (m₁.construct (.making manner) plan.id) (rank plan.id) :=
      ⟨grows.stack ▸ free.push.1, free.push.2⟩
    exact ih (ran.upheld frozen up).1
      ⟨settled.made, settled.written, settled.kept, settled.rooted⟩
      ⟨clear₂.fresh, clear₂.apart, clear₂.rooted⟩
      ⟨e, he, plan, _, [], ls, [], _, same.symm, held, above, rfl, rfl,
        ⟨fills, .nil, List.nil_prefix⟩, rfl⟩
  | finish =>
    obtain ⟨-, -, plan, -, -, ls, os, i, -, -, -, -, -, -, same⟩ := repeats
    generalize (plan.asks manner ls).after os = asks at same
    cases asks with
    | enough =>
      obtain ⟨rfl, -⟩ := Call.finish.inj same
      exact ⟨_, rfl⟩
    | ask =>
      rw [Call.making] at same
      cases same
  | @demand _ id state resume m m₁ _ q r ran _ ih₁ ih₂ =>
    obtain ⟨rfl, first, rest⟩ :=
      repeats_demand complete embeds embeds' uniform guides chronicle.written repeats
    obtain ⟨ws, done⟩ := ih₁ up chronicle (clear.first (.answer id _ _)) first
    cases q with
    | error e => cases done
    | ok v =>
      obtain ⟨new, w, grows, same, fills, -⟩ :=
        ran.comes frozen rfl up chronicle (clear.first (.answer id _ _))
      obtain rfl : v = w := (List.cons.inj same).1
      exact ih₂ (ran.upheld frozen up).1 (grows.settled clear (.answer id _ _))
        (clear.resumed grows)
        (rest v m₁ new grows.stack fills)
  | skip _ _ ih =>
    exact ih up chronicle (.ahead : Clear _ name k _ _)
      fun y hy => repeats y (List.mem_cons_of_mem _ hy)
  | @warm _ _ _ plan m m₁ _ v _ hp shared absent ran _ _ ih =>
    obtain rfl := id_of_plan? hp
    obtain ⟨up₁, done⟩ := ran.upheld frozen up
    obtain ⟨new, made⟩ := Comes.shared hp ran.free
      (ran.comes frozen rfl up chronicle (chronicle.clear_shared absent ran.free))
    refine ih (up₁.keep frozen hp (done _ rfl) v) made.aside.chronicle
      (.ahead : Clear _ name k _ _) fun y hy => ?_
    obtain ⟨free, there⟩ := repeats y (List.mem_cons_of_mem _ hy)
    exact ⟨free.frame (ran.frame.trans (.keep (ran.frame.stack ▸ ran.free) v)), there⟩
  | @cold _ _ _ plan m _ _ hp _ absent _ ih =>
    obtain rfl := id_of_plan? hp
    obtain ⟨free, there⟩ := repeats _ List.mem_cons_self
    have out : plan.id ∉ m.stack := fun barred => Nat.lt_irrefl _ (free.1 _ barred)
    exact failed (ih up chronicle (chronicle.clear_shared absent out)
      (opened hp (.refl m) free there))
  | deep => exact absurd repeats.2.1 (Nat.not_lt_zero _)
  | unknown none =>
    obtain ⟨plan, hp⟩ := repeats.2.2.2
    rw [none] at hp
    cases hp
  | unprepared hp _ _ ih =>
    exact failed (ih up chronicle (.ahead : Clear _ name k _ _)
      (repeats_ahead guides hp repeats))
  | @broken _ _ plan m m₁ _ _ _ hp unserved shared ahead _ _ _ ih =>
    obtain rfl := id_of_plan? hp
    obtain ⟨free, bound, there, -⟩ := repeats
    have absent : ¬ Kept m plan.id := fun kept => unserved ⟨shared, kept⟩
    have absent' : m₁.instances.get? plan.id = none :=
      not_kept.1 (ahead.unkept_ahead frozen hp up absent)
    have out : plan.id ∉ m₁.stack := fun barred =>
      Nat.lt_irrefl _ ((free.frame ahead.frame).1 _ barred)
    obtain ⟨new, aside, -⟩ := ahead.comes frozen rfl up chronicle (.ahead : Clear _ name k _ _)
    exact failed (ih (ahead.upheld frozen up).1 aside.chronicle
      (aside.chronicle.clear_shared absent' out)
      (opened hp ahead.frame ⟨free.1, Nat.le_of_lt_succ bound⟩ there))
  | @fresh _ _ plan m m₁ _ _ _ hp single ahead _ _ ih =>
    obtain rfl := id_of_plan? hp
    obtain ⟨free, bound, there, -⟩ := repeats
    obtain ⟨new, aside, -⟩ := ahead.comes frozen rfl up chronicle (.ahead : Clear _ name k _ _)
    exact ih (ahead.upheld frozen up).1 aside.chronicle (aside.clear clear)
      (opened hp ahead.frame ⟨free.1, Nat.le_of_lt_succ bound⟩ there)

/-- All requests are answered that are for services on the roll. -/
theorem session_succeeds (frozen : Frozen f lockMode privateIds c')
    (complete : Complete c num manner roll ids vs) (embeds : Embeds c c) (embeds' : Embeds c c')
    (uniform : manner.Uniform) (guides : Guides c' roll arc rank)
    (bound : ∀ id plan, c'.plan? id = some plan → rank id < c'.planCount)
    {requests : List Request} {targets : List String}
    (asked : List.Forall₂ (fun q id => q.target c' = .ok id ∧ OnRoll roll id ∧
      ∃ plan, c'.plan? id = some plan) requests targets)
    (between : Between c' num manner k m roll') : ∃ (vs' : List Value) (m' : Machine Ledger),
      Ends (session c' (.making manner) num requests) m (.ok (vs'.map .ok)) m' := by
  induction asked generalizing m roll' k with
  | nil => exact ⟨[], m, ends_session_nil.2 ⟨rfl, rfl⟩⟩
  | @cons request id _ _ asked _ ih =>
    obtain ⟨target, there, plan, hp⟩ := asked
    obtain ⟨q, m₁, first⟩ := exists_ends (request.work c' (.making manner) num) m
    rcases Request.ran_cases first with ⟨e, refused, -⟩ | ⟨id', target', ran⟩
    · cases target.symm.trans refused
    obtain rfl := Except.ok.inj (target.symm.trans target')
    have room : rank id < c'.planCount + 1 := Nat.lt_succ_of_lt (bound id plan hp)
    have free : ∀ x ∈ m.stack, rank id < rank x := by
      rw [between.idle]
      exact fun _ hx => nomatch hx
    obtain ⟨ws, done⟩ := ran.succeeds frozen complete embeds embeds' uniform guides between.up
      between.chronicle (between.clear id) ⟨⟨free, Nat.le_of_lt room⟩, room, there, plan, hp⟩
    cases q with
    | error e => cases done
    | ok v =>
      obtain ⟨new, next, -⟩ := between.answered frozen ran
      obtain ⟨vs', m', others⟩ := ih next
      exact ⟨v :: vs', m', session_cons_ends first others⟩

end Wiring.Container
