import Mathlib.Data.List.Chain
import Wiring.Proofs.Container.Products

/-!
# What is under construction

A service comes under construction after another because that one leads to it. Where no factory asks
for anything the services under construction follow one another down the eager arcs, so nothing is
constructed within itself. Where factories ask for what they have handles of, whatever is between
two constructions of one service is a cycle.
-/

namespace Wiring

/-! ## Calls -/

namespace Call

variable {σ : Type}

/-- The call asks for nothing. -/
def Silent : Call σ → Prop
  | .finish _ _ => True
  | .demand _ _ _ => False

/-- The call asks for nothing but `asks`. If what it is given in answer is `good` or fails with
`fair` failures, it ends with a good product or fails with a fair failure itself. -/
def Behaves (asks : String → Prop) (good : Value → Prop) (fair : Failure → Prop) : Call σ → Prop
  | .finish (.ok v) _ => good v
  | .finish (.error e) _ => fair e
  | .demand id _ resume => asks id ∧ ∀ q s, (∀ v, q = .ok v → good v) →
      (∀ e, q = .error e → fair e) → Behaves asks good fair (resume q s)

theorem Behaves.mono {call : Call σ} {asks asks' : String → Prop} {good : Value → Prop}
    {fair : Failure → Prop} (h : Behaves asks good fair call) (imp : ∀ id, asks id → asks' id) :
    Behaves asks' good fair call := by
  induction call with
  | finish result state => cases result <;> exact h
  | demand id state resume ih =>
    exact ⟨imp id h.1, fun q s hq he => ih q s (h.2 q s hq he)⟩

end Call

namespace Application

variable {σ : Type}

/-- No factory asks for anything. -/
def Silent (app : Application σ) : Prop :=
  ∀ factory arguments keywords s, (app.call factory arguments keywords s).Silent

/-- A factory fails with the failure. -/
def Fails (app : Application σ) (e : Failure) : Prop :=
  ∃ factory arguments keywords s s', app.call factory arguments keywords s = .finish (.error e) s'

end Application

namespace Binding

/-- The service that a binding is a handle of. -/
def handle? : Binding → Option String
  | .deferred id => some id
  | _ => none

/-- The services that the values of a binding are handles of. -/
def handles : Binding → List String
  | .deferred id => [id]
  | .collection _ items => items.filterMap handle?
  | _ => []

end Binding

/-- The services that a factory is given handles of. -/
def ServicePlan.handles (p : ServicePlan) : List String := p.allBindings.flatMap Binding.handles

namespace Container

variable {σ : Type} {c : Container} {app : Application σ} {self room : Nat}
  {arc : Bool → String → String → Prop} {task : Task σ} {plan : ServicePlan} {m m' : Machine σ}
  {r : Except Failure (List Value)} {id a : String}

/-- The plans of a container, those in other plans included. -/
inductive Holds (c : Container) : ServicePlan → Prop
  | plan {id : String} {plan : ServicePlan} : c.plan? id = some plan → Holds c plan
  | inner {host plan : ServicePlan} :
    Holds c host → .inline plan ∈ host.allBindings → Holds c plan

/-- `Wired c arc a b` says that what the binding `b` of the service `a` refers to is there, and that
`a` has arcs to it. -/
inductive Wired (c : Container) (arc : Bool → String → String → Prop) : String → Binding → Prop
  | value {a : String} {v : Value} : Wired c arc a (.value v)
  | service {a id : String} : arc false a id → (∃ plan, c.plan? id = some plan) →
      Wired c arc a (.service id)
  | deferred {a id : String} : arc true a id → Wired c arc a (.deferred id)
  | collection {a tag : String} {items : List Binding} :
    (∀ i ∈ items, Wired c arc a i) → Wired c arc a (.collection tag items)
  | inline {a : String} {plan : ServicePlan} : arc false a plan.id → c.Holds plan →
      (∀ b ∈ plan.allBindings, Wired c arc plan.id b) → Wired c arc a (.inline plan)

/-- The plans of the container follow the arcs. -/
structure Laid (c : Container) (arc : Bool → String → String → Prop) : Prop where
  wired : ∀ id plan, c.plan? id = some plan → ∀ b ∈ plan.allBindings, Wired c arc plan.id b
  order : ∀ id plan, c.plan? id = some plan →
    ∀ x ∈ (c.orderOf id).dropLast, Relation.TransGen (arc false) id x

/-! ## Factories that ask for nothing -/

section Silent

variable {rank : String → Nat}

/-- Whatever is under construction is of rank `n` at least, and there is room for `n` more. -/
def Above (rank : String → Nat) (room : Nat) (m : Machine σ) (n : Nat) : Prop :=
  (∀ x ∈ m.stack, n ≤ rank x) ∧ n ≤ room

/-- A service of rank `n` can come under construction. -/
def Open (rank : String → Nat) (room : Nat) (m : Machine σ) (n : Nat) : Prop :=
  (∀ x ∈ m.stack, n < rank x) ∧ n ≤ room

theorem Above.opens {n k : Nat} (h : Above rank room m n) (lt : k < n) : Open rank room m k :=
  ⟨fun x hx => Nat.lt_of_lt_of_le lt (h.1 x hx), Nat.le_of_lt (Nat.lt_of_lt_of_le lt h.2)⟩

theorem Above.frame {n : Nat} (h : Above rank room m n) (frame : Frame m m') :
    Above rank room m' n := ⟨frame.stack ▸ h.1, h.2⟩

theorem Open.frame {n : Nat} (h : Open rank room m n) (frame : Frame m m') :
    Open rank room m' n := ⟨frame.stack ▸ h.1, h.2⟩

theorem Open.push (h : Open rank room m (rank id)) :
    Above rank room (m.push id) (rank id) := by
  refine ⟨fun x hx => ?_, h.2⟩
  rcases List.mem_append.1 hx with hx | hx
  · exact Nat.le_of_lt (h.1 x hx)
  · rw [List.mem_singleton.1 hx]

/-- The task is concerned with services of lower ranks than what is under construction. -/
def Falls (c : Container) (app : Application σ) (arc : Bool → String → String → Prop)
    (rank : String → Nat) (room : Nat) (m : Machine σ) : Task σ → Prop
  | .evaluate bs => ∃ a, Above rank room m (rank a) ∧ ∀ b ∈ bs, Wired c arc a b
  | .value (.inline plan) => Open rank room m (rank plan.id) ∧
      ∀ b ∈ plan.allBindings, Wired c arc plan.id b
  | .value b => ∃ a, Above rank room m (rank a) ∧ Wired c arc a b
  | .carryOut call => call.Silent ∧ ∀ e s, call = .finish (.error e) s → app.Fails e
  | .prewarm ids => ∀ y ∈ ids, Open rank room m (rank y)
  | .resolve id => Open rank room m (rank id) ∧ rank id < room ∧ ∃ plan, c.plan? id = some plan

theorem falls_value (falling : ∀ a b, arc false a b → rank b < rank a)
    (above : Above rank room m (rank a)) {b : Binding} (wired : Wired c arc a b) :
    Falls c app arc rank room m (.value b) := by
  cases b with
  | inline plan =>
    cases wired with
    | inline eager _ inner => exact ⟨above.opens (falling _ _ eager), inner⟩
  | _ => exact ⟨a, above, wired⟩

/-- Ranks fall down paths of eager arcs. -/
theorem rank_lt_of_path (falling : ∀ a b, arc false a b → rank b < rank a) {b : String}
    (path : Relation.TransGen (arc false) a b) : rank b < rank a := by
  induction path with
  | single eager => exact falling _ _ eager
  | tail _ eager ih => exact Nat.lt_trans (falling _ _ eager) ih

/-- What comes before a service can be built ahead of it, in less room. -/
theorem falls_ahead (laid : Laid c arc) (falling : ∀ a b, arc false a b → rank b < rank a)
    (hp : c.plan? id = some plan) (falls : Falls c app arc rank (room + 1) m (.resolve id)) :
    Falls c app arc rank room m (.prewarm (c.orderOf id).dropLast) := fun y hy => by
  have lower := rank_lt_of_path falling (laid.order _ _ hp y hy)
  exact ⟨fun x hx => Nat.lt_trans lower (falls.1.1 x hx),
    Nat.le_of_lt_succ (Nat.lt_trans lower falls.2.1)⟩

/-- The service can be constructed after that, in as much room. -/
theorem falls_construct (laid : Laid c arc) (hp : c.plan? plan.id = some plan)
    (falls : Falls c app arc rank (room + 1) m (.resolve plan.id)) (frame : Frame m m') :
    Falls c app arc rank room m' (.value (.inline plan)) :=
  ⟨Open.frame ⟨falls.1.1, Nat.le_of_lt_succ falls.2.1⟩ frame, laid.wired _ _ hp⟩

/-- Where factories ask for nothing, whatever fails fails with a factory. -/
theorem Ran.fails (laid : Laid c arc) (falling : ∀ a b, arc false a b → rank b < rank a)
    (silent : app.Silent) (h : Ran c app self room task m r m')
    (falls : Falls c app arc rank room m task) {e : Failure} (failed : r = .error e) :
    app.Fails e := by
  induction h with
  | nothing | literal | handle | ahead | kept | meanwhile | built => cases failed
  | first _ ih =>
    obtain ⟨a, above, wired⟩ := falls
    exact ih (falls_value falling above (wired _ List.mem_cons_self)) failed
  | @next _ _ _ _ _ _ _ r ran _ _ ih =>
    obtain ⟨a, above, wired⟩ := falls
    cases r with
    | ok => cases failed
    | error x =>
      exact ih ⟨a, above.frame ran.frame, fun b hb => wired b (List.mem_cons_of_mem _ hb)⟩ failed
  | service _ ih =>
    obtain ⟨a, above, wired⟩ := falls
    cases wired with
    | service eager there =>
      have lower := falling _ _ eager
      exact ih ⟨above.opens lower, Nat.lt_of_lt_of_le lower above.2, there⟩ failed
  | @collection _ _ _ _ _ r _ ih =>
    obtain ⟨a, above, wired⟩ := falls
    cases wired with
    | collection items =>
      cases r with
      | ok => cases failed
      | error x => exact ih ⟨a, above, items⟩ failed
  | barred barred => exact absurd (falls.1.1 _ barred) (Nat.lt_irrefl _)
  | unready _ _ ih => exact ih ⟨_, falls.1.push, falls.2⟩ failed
  | called _ _ _ _ ih =>
    exact ih ⟨silent _ _ _ _, fun e s same => ⟨_, _, _, _, _, same⟩⟩ failed
  | @finish _ result state _ =>
    cases result with
    | ok => cases failed
    | error x =>
      cases failed
      exact falls.2 _ _ rfl
  | demand => exact falls.1.elim
  | skip _ _ ih => exact ih (fun y hy => falls y (List.mem_cons_of_mem _ hy)) failed
  | warm hp _ _ ran _ _ ih =>
    exact ih (fun y hy => (falls y (List.mem_cons_of_mem _ hy)).frame
      (ran.frame.trans (.keep (ran.frame.stack ▸ ran.free) _))) failed
  | cold hp _ _ _ ih =>
    refine ih ⟨?_, laid.wired _ _ hp⟩ failed
    exact id_of_plan? hp ▸ falls _ List.mem_cons_self
  | deep => exact absurd falls.2.1 (Nat.not_lt_zero _)
  | unknown none =>
    obtain ⟨plan, hp⟩ := falls.2.2
    exact nomatch none.symm.trans hp
  | unprepared hp _ _ ih => exact ih (falls_ahead laid falling hp falls) failed
  | broken hp _ _ ahead _ _ _ ih | fresh hp _ ahead _ _ ih =>
    obtain rfl := id_of_plan? hp
    exact ih (falls_construct laid hp falls ahead.frame) failed

end Silent

/-! ## Factories that use their handles -/

/-- A value is one that the binding can have, where `good` holds of all products. -/
inductive Fits (self : Nat) (good : Value → Prop) : Binding → Value → Prop
  | value {v : Value} : Fits self good (.value v) v
  | service {id : String} {v : Value} : good v → Fits self good (.service id) v
  | deferred {id : String} : Fits self good (.deferred id) (.deferred self id)
  | collection {tag : String} {items : List Binding} {vs : List Value} :
    List.Forall₂ (Fits self good) items vs → Fits self good (.collection tag items) (.list vs)
  | inline {plan : ServicePlan} {v : Value} : good v → Fits self good (.inline plan) v

/-- The failure tells of services that were found within themselves. -/
def Circular (e : Failure) : Prop := ∃ cycle context, e = .fault (.circularServices cycle) context

/-- Factories ask for nothing but what they are given handles of, and make no circular failures of
their own. What holds of all products, and tells them from handles, is for the application to say. -/
def Honest (c : Container) (app : Application σ) (self : Nat) : Prop :=
  ∃ good : Value → Prop, ∀ plan, c.Holds plan → ∀ vs,
    List.Forall₂ (Fits self good) plan.allBindings vs → ∀ s (fair : Failure → Prop),
      (∀ e, ¬ Circular e → fair e) → (callOf app plan vs s).Behaves (· ∈ plan.handles) good fair

/-- `a` leads to `b` by an arc and then down eager arcs. -/
def Link (arc : Bool → String → String → Prop) (a b : String) : Prop :=
  ∃ x, (∃ isLazy, arc isLazy a x) ∧ Relation.ReflTransGen (arc false) x b

/-- If the failure is circular then its cycle is closed, and each service in it leads to the next. -/
def Looped (link : String → String → Prop) (e : Failure) : Prop :=
  ∀ cycle context, e = .fault (.circularServices cycle) context →
    ∃ a between, cycle = a :: between ++ [a] ∧ cycle.IsChain link

theorem looped_of_not_circular {link : String → String → Prop} {e : Failure} (h : ¬ Circular e) :
    Looped link e := fun cycle context same => absurd ⟨cycle, context, same⟩ h

/-- A service that is found within itself closes a cycle. -/
theorem looped_circular {link : String → String → Prop} {stack : List String}
    (chain : (stack ++ [id]).IsChain link) (barred : id ∈ stack) :
    Looped link (circular stack id) := by
  rintro cycle context same
  obtain ⟨rfl, -⟩ := Failure.fault.inj same |>.imp_left Fault.circularServices.inj
  obtain ⟨between, closed, back⟩ := exists_closed_chain chain barred
  rw [closed]
  exact ⟨id, between, rfl, back⟩

section Honest

variable {good : Value → Prop}

/-- The service `a` came under construction last, and each service under construction leads to the
next. -/
def Top (arc : Bool → String → String → Prop) (m : Machine σ) (a : String) : Prop :=
  m.stack.getLast? = some a ∧ m.stack.IsChain (Link arc)

theorem Top.next (top : Top arc m a) (link : Link arc a id) :
    (m.stack ++ [id]).IsChain (Link arc) := by
  refine List.isChain_append.2 ⟨top.2, .singleton id, fun x hx y hy => ?_⟩
  rw [Option.mem_def, top.1, Option.some.injEq] at hx
  rw [Option.mem_def, List.head?_cons, Option.some.injEq] at hy
  exact hx ▸ hy ▸ link

theorem Top.frame (top : Top arc m a) (frame : Frame m m') : Top arc m' a :=
  ⟨frame.stack ▸ top.1, frame.stack ▸ top.2⟩

/-- A service comes under construction. -/
theorem top_push (chain : (m.stack ++ [id]).IsChain (Link arc)) : Top arc (m.push id) id :=
  ⟨List.getLast?_concat, chain⟩

/-- What a task may bring under construction is led to by what is. -/
def Follows (c : Container) (arc : Bool → String → String → Prop) (good : Value → Prop)
    (m : Machine σ) : Task σ → Prop
  | .evaluate bs => ∃ a, Top arc m a ∧ ∀ b ∈ bs, Wired c arc a b
  | .value (.inline plan) => (m.stack ++ [plan.id]).IsChain (Link arc) ∧ c.Holds plan ∧
      ∀ b ∈ plan.allBindings, Wired c arc plan.id b
  | .value b => ∃ a, Top arc m a ∧ Wired c arc a b
  | .carryOut call => ∃ a, Top arc m a ∧
      call.Behaves (fun id => ∃ isLazy, arc isLazy a id) good (Looped (Link arc))
  | .prewarm ids => ∀ y ∈ ids, (m.stack ++ [y]).IsChain (Link arc)
  | .resolve id => ∀ x, Relation.ReflTransGen (arc false) id x →
      (m.stack ++ [x]).IsChain (Link arc)

/-- The values are ones that the task can end with: products that are good, values that fit. -/
def Delivers (self : Nat) (good : Value → Prop) (vs : List Value) : Task σ → Prop
  | .evaluate bs => List.Forall₂ (Fits self good) bs vs
  | .value b => List.Forall₂ (Fits self good) [b] vs
  | .carryOut _ | .resolve _ => ∀ v ∈ vs, good v
  | .prewarm _ => True

/-- The task ends with values that it can end with, or fails; the failure is circular only where
there is a cycle. -/
def Closes (arc : Bool → String → String → Prop) (self : Nat) (good : Value → Prop)
    (task : Task σ) : Except Failure (List Value) → Prop
  | .error e => Looped (Link arc) e
  | .ok vs => Delivers self good vs task

theorem follows_value (top : Top arc m a) {b : Binding} (wired : Wired c arc a b) :
    Follows c arc good m (.value b) := by
  cases b with
  | inline plan =>
    cases wired with
    | inline eager held inner => exact ⟨top.next ⟨_, ⟨_, eager⟩, .refl⟩, held, inner⟩
  | _ => exact ⟨a, top, wired⟩

/-- What a service leads to may be built ahead of it. -/
theorem follows_ahead (laid : Laid c arc) (hp : c.plan? id = some plan)
    (follows : Follows c arc good m (.resolve id)) :
    Follows c arc good m (.prewarm (c.orderOf id).dropLast) :=
  fun y hy => follows y (laid.order _ _ hp y hy).to_reflTransGen

/-- The service itself may be constructed after that. -/
theorem follows_construct (laid : Laid c arc) (hp : c.plan? plan.id = some plan)
    (follows : Follows c arc good m (.resolve plan.id)) (frame : Frame m m') :
    Follows c arc good m' (.value (.inline plan)) :=
  ⟨frame.stack ▸ follows _ .refl, .plan hp, laid.wired _ _ hp⟩

/-- The product of a task is the value of a binding that it fits. -/
theorem Closes.value {b : Binding} (fits : ∀ {v}, good v → Fits self good b v)
    (ran : Ran c app self room task m r m') (one : task.width = 1)
    (goods : ∀ vs, Delivers self good vs task → ∀ v ∈ vs, good v)
    (closes : Closes arc self good task r) : Closes arc self good (.value (σ := σ) b) r := by
  cases r with
  | error => exact closes
  | ok vs =>
    obtain ⟨v, rfl⟩ := List.length_eq_one_iff.1 ((ran.length _ rfl).trans one)
    exact .cons (fits (goods _ closes v (List.mem_singleton.2 rfl))) .nil

theorem Fits.inline_good {v : Value} (fits : Fits self good (.inline plan) v) : good v := by
  cases fits with
  | inline hv => exact hv

/-- The product of a plan is kept. -/
theorem products_keep {v : Value} (products : ∀ id v, m.instances.get? id = some v → good v)
    (hv : good v) : ∀ x w, (m.keep id v).instances.get? x = some w → good w := by
  intro x w hw
  rw [Machine.keep, Table.get?_put] at hw
  split at hw
  · exact Option.some.inj hw ▸ hv
  · exact products x w hw

/-- A factory has lazy arcs to what it is given handles of. -/
theorem Wired.handle {b : Binding} (wired : Wired c arc a b) (h : id ∈ b.handles) :
    arc true a id := by
  cases wired with
  | deferred lazily => exact List.mem_singleton.1 h ▸ lazily
  | collection items =>
    obtain ⟨i, hi, same⟩ := List.mem_filterMap.1 h
    cases items i hi with
    | deferred lazily => exact Option.some.inj same ▸ lazily
    | _ => cases same
  | _ => cases h

/-- Where factories use their handles, circular failures tell of cycles. -/
theorem Ran.closes (laid : Laid c arc)
    (honest : ∀ plan, c.Holds plan → ∀ vs, List.Forall₂ (Fits self good) plan.allBindings vs →
      ∀ s, (callOf app plan vs s).Behaves (· ∈ plan.handles) good (Looped (Link arc)))
    (h : Ran c app self room task m r m') (follows : Follows c arc good m task)
    (products : ∀ id v, m.instances.get? id = some v → good v) :
    Closes arc self good task r ∧ ∀ id v, m'.instances.get? id = some v → good v := by
  induction h with
  | nothing => exact ⟨.nil, products⟩
  | ahead => exact ⟨trivial, products⟩
  | literal => exact ⟨.cons .value .nil, products⟩
  | handle => exact ⟨.cons .deferred .nil, products⟩
  | first _ ih =>
    obtain ⟨a, top, wired⟩ := follows
    exact ih (follows_value top (wired _ List.mem_cons_self)) products
  | @next _ _ _ _ _ _ _ r ran _ ih₁ ih₂ =>
    obtain ⟨a, top, wired⟩ := follows
    obtain ⟨head, products⟩ := ih₁ (follows_value top (wired _ List.mem_cons_self)) products
    obtain ⟨tail, products⟩ := ih₂ ⟨a, top.frame ran.frame, fun b hb =>
      wired b (List.mem_cons_of_mem _ hb)⟩ products
    refine ⟨?_, products⟩
    cases r with
    | error => exact tail
    | ok => exact List.rel_append head tail
  | service ran ih =>
    obtain ⟨a, top, wired⟩ := follows
    cases wired with
    | service eager _ =>
      obtain ⟨closes, products⟩ := ih (fun x path => top.next ⟨_, ⟨_, eager⟩, path⟩) products
      exact ⟨closes.value .service ran rfl fun _ h => h, products⟩
  | @collection _ _ _ _ _ r _ ih =>
    obtain ⟨a, top, wired⟩ := follows
    cases wired with
    | collection items =>
      obtain ⟨closes, products⟩ := ih ⟨a, top, items⟩ products
      refine ⟨?_, products⟩
      cases r with
      | error => exact closes
      | ok => exact .cons (.collection closes) .nil
  | barred barred => exact ⟨looped_circular follows.1 barred, products⟩
  | unready _ _ ih => exact ih ⟨_, top_push follows.1, follows.2.2⟩ products
  | @called _ plan _ m₁ _ vs _ _ ran call ih₁ ih₂ =>
    obtain ⟨chain, held, wired⟩ := follows
    obtain ⟨fits, products⟩ := ih₁ ⟨_, top_push chain, wired⟩ products
    have asked {id : String} (hid : id ∈ plan.handles) : ∃ isLazy, arc isLazy plan.id id := by
      obtain ⟨b, hb, hid⟩ := List.mem_flatMap.1 hid
      exact ⟨true, (wired b hb).handle hid⟩
    have behaves :=
      (honest plan held vs fits (m₁.construct app plan.id).state).mono fun id hid => asked hid
    have top : Top arc (m₁.construct app plan.id) plan.id :=
      (top_push chain).frame (ran.frame.trans (.state _ _))
    obtain ⟨closes, products⟩ := ih₂ ⟨_, top, behaves⟩ products
    exact ⟨closes.value .inline call rfl fun _ h => h, products⟩
  | @finish _ result state _ =>
    obtain ⟨a, -, behaves⟩ := follows
    refine ⟨?_, products⟩
    cases result with
    | error => exact behaves
    | ok => exact fun v hv => List.mem_singleton.1 hv ▸ behaves
  | @demand _ _ _ _ _ m₁ _ q _ ran _ ih₁ ih₂ =>
    obtain ⟨a, top, asked, behaves⟩ := follows
    obtain ⟨closes, products⟩ := ih₁ (fun x path => top.next ⟨_, asked, path⟩) products
    have top := top.frame ((Frame.state _ _).trans ran.frame)
    refine ih₂ ⟨a, top, behaves q m₁.state (fun v hv => ?_) fun e he => ?_⟩ products
    · subst hv
      exact closes v (List.mem_singleton.2 rfl)
    · subst he
      exact closes
  | skip _ _ ih => exact ih (fun y hy => follows y (List.mem_cons_of_mem _ hy)) products
  | @warm _ _ _ plan _ m₁ _ v _ hp _ _ ran _ ih₁ ih₂ =>
    obtain rfl := id_of_plan? hp
    obtain ⟨fits, products⟩ :=
      ih₁ ⟨follows _ List.mem_cons_self, .plan hp, laid.wired _ _ hp⟩ products
    have hv := (List.forall₂_cons.1 fits).1.inline_good
    refine ih₂ (fun y hy => ?_) (products_keep products hv)
    show (m₁.stack ++ [y]).IsChain (Link arc)
    exact ran.frame.stack ▸ follows y (List.mem_cons_of_mem _ hy)
  | cold hp _ _ _ ih =>
    obtain rfl := id_of_plan? hp
    exact ih ⟨follows _ List.mem_cons_self, .plan hp, laid.wired _ _ hp⟩ products
  | deep => exact ⟨looped_of_not_circular (by rintro ⟨_, _, same⟩; cases same), products⟩
  | unknown none =>
    exact ⟨looped_of_not_circular (by rintro ⟨_, _, same⟩; cases same), products⟩
  | kept _ _ found =>
    exact ⟨fun v hv => List.mem_singleton.1 hv ▸ products _ _ found, products⟩
  | unprepared hp _ _ ih => exact ih (follows_ahead laid hp follows) products
  | meanwhile hp _ _ _ _ found ih =>
    obtain ⟨-, products⟩ := ih (follows_ahead laid hp follows) products
    exact ⟨fun v hv => List.mem_singleton.1 hv ▸ products _ _ found, products⟩
  | @built _ id plan _ m₁ m' v _ hp _ _ ahead _ _ ih₁ ih₂ =>
    obtain rfl := id_of_plan? hp
    obtain ⟨-, products⟩ := ih₁ (follows_ahead laid hp follows) products
    obtain ⟨fits, products⟩ := ih₂ (follows_construct laid hp follows ahead.frame) products
    have hv := (List.forall₂_cons.1 fits).1.inline_good
    exact ⟨fun w hw => List.mem_singleton.1 hw ▸ hv, products_keep products hv⟩
  | broken hp _ _ ahead _ _ ih₁ ih₂ =>
    obtain rfl := id_of_plan? hp
    obtain ⟨-, products⟩ := ih₁ (follows_ahead laid hp follows) products
    exact ih₂ (follows_construct laid hp follows ahead.frame) products
  | @fresh _ _ _ _ _ _ _ r hp _ ahead _ ih₁ ih₂ =>
    obtain rfl := id_of_plan? hp
    obtain ⟨-, products⟩ := ih₁ (follows_ahead laid hp follows) products
    obtain ⟨closes, products⟩ := ih₂ (follows_construct laid hp follows ahead.frame) products
    refine ⟨?_, products⟩
    cases r with
    | error => exact closes
    | ok vs =>
      obtain ⟨v, none, fits, nothing, rfl⟩ := List.forall₂_cons_left_iff.1 closes
      cases nothing
      exact fun w hw => List.mem_singleton.1 hw ▸ fits.inline_good

/-- Where nothing is under construction anything can be asked for. -/
theorem follows_resolve (idle : m.stack = []) : Follows c arc good m (.resolve id) := fun x _ => by
  rw [idle]
  exact .singleton x

end Honest

/-! ## Requests -/

variable {after : Except Failure Value → σ → σ → Prop} {s : σ}

/-- Between requests nothing is under construction. -/
theorem Serves.stack_eq (h : Serves c app self after { state := s } m) : m.stack = [] :=
  h.upholds (fun m => m.stack = []) rfl (fun _ _ _ idle _ => idle)
    fun _ _ _ _ _ idle ran _ => ran.frame.stack.trans idle

/-- Where factories use their handles, all products that are kept are good. -/
theorem Serves.products {good : Value → Prop} (laid : Laid c arc)
    (honest : ∀ plan, c.Holds plan → ∀ vs, List.Forall₂ (Fits self good) plan.allBindings vs →
      ∀ s, (callOf app plan vs s).Behaves (· ∈ plan.handles) good (Looped (Link arc)))
    (h : Serves c app self after { state := s } m) :
    ∀ id v, m.instances.get? id = some v → good v := by
  suffices all : m.stack = [] ∧ ∀ id v, m.instances.get? id = some v → good v from all.2
  refine h.upholds (fun m => m.stack = [] ∧ ∀ id v, m.instances.get? id = some v → good v)
    ⟨rfl, fun _ _ found => by cases found⟩ (fun _ _ _ all _ => all) ?_
  rintro id m q m' state ⟨idle, products⟩ ran -
  exact ⟨ran.frame.stack.trans idle, (ran.closes laid honest (follows_resolve idle) products).2⟩

/-- What is refused is refused for other reasons. -/
theorem not_circular_of_refused {e : Failure} (h : c.publicTarget id = .error e) :
    ¬ Circular e := by
  rintro ⟨cycle, context, rfl⟩
  unfold publicTarget at h
  split at h
  · cases h
  · split_ifs at h <;> cases h

end Container

end Wiring
