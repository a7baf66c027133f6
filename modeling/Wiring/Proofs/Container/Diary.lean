import Wiring.Proofs.Container.Names

/-!
# The order in which factories are called

An application writes down whose factories are called, in the order of the calls, and how often one
of them has failed or has asked for something. As long as none does, the shared services among those
that are called are the ones that come ahead in the construction order and are not kept, in that
order. Whatever else is called is called while one of them is constructed.
-/

namespace Wiring

variable {σ : Type}

/-- What is written down while an application is at work. -/
structure Diary where
  /-- The service that is constructed: its factory is called next. -/
  current : String := ""
  /-- The services whose factories were called, in the order of the calls. -/
  called : List String := []
  /-- How often a factory has failed or has asked for a service. -/
  unrest : Nat := 0

namespace Diary

/-- The construction of a service is announced. -/
def announced (d : Diary) : Note → Diary
  | .constructing id => { d with current := id }
  | _ => d

/-- The factory of the service that was announced is called. -/
def entered (d : Diary) : Diary := { d with called := d.called ++ [d.current] }

/-- A factory has failed or has asked for a service. -/
def disturbed (d : Diary) : Diary := { d with unrest := d.unrest + 1 }

/-- The call of a factory is over. -/
def ended (d : Diary) : Except Failure Value → Diary
  | .ok _ => d
  | .error _ => d.disturbed

end Diary

/-- A call of which it is written down if it fails or asks for something. -/
def Call.watched : Call σ → Diary → Call (σ × Diary)
  | .finish result state, d => .finish result (state, d.ended result)
  | .demand target state resume, d =>
    .demand target (state, d.disturbed) fun q s => watched (resume q s.1) s.2

/-- The application, while a diary is kept. -/
def Application.watched (app : Application σ) : Application (σ × Diary) where
  call factory arguments keywords s :=
    (app.call factory arguments keywords s.1).watched s.2.entered
  note n s := (app.note n s.1, s.2.announced n)

namespace Container

open Graph

variable {g : Graph} {c : Container} {app : Application σ} {self room : Nat}
  {lockMode : LockMode} {privateIds : List String} {task : Task (σ × Diary)} {plan : ServicePlan}
  {m m₁ m' : Machine (σ × Diary)} {r : Except Failure (List Value)} {d : Diary} {id : String}
  {rank : String → Nat}

/-! ## Unrest -/

/-- The diary as it is when a task begins. -/
def Opens (task : Task (σ × Diary)) (m : Machine (σ × Diary)) (d : Diary) : Prop :=
  match task with
  | .carryOut call => ∃ k, call = Call.watched k d
  | _ => d = m.state.2

/-- Unrest never goes away. -/
theorem Ran.unrest_le (h : Ran c app.watched self room task m r m') (opens : Opens task m d) :
    d.unrest ≤ m'.state.2.unrest := by
  induction h generalizing d with
  | nothing | literal | handle | barred | ahead | deep | unknown | kept =>
    obtain rfl := opens
    exact Nat.le_refl _
  | first _ ih | service _ ih | collection _ ih | skip _ _ ih | cold _ _ _ _ ih | unready _ _ ih
  | unprepared _ _ _ ih | meanwhile _ _ _ _ _ _ ih =>
    obtain rfl := opens
    exact ih rfl
  | next _ _ ih₁ ih₂ | warm _ _ _ _ _ ih₁ ih₂ | built _ _ _ _ _ _ ih₁ ih₂
  | broken _ _ _ _ _ _ ih₁ ih₂ | fresh _ _ _ _ ih₁ ih₂ =>
    obtain rfl := opens
    exact Nat.le_trans (ih₁ rfl) (ih₂ rfl)
  | called _ _ _ ih₁ ih₂ =>
    obtain rfl := opens
    have call := ih₂ ⟨_, rfl⟩
    exact Nat.le_trans (ih₁ rfl) call
  | @finish _ result =>
    obtain ⟨k, same⟩ := opens
    cases k with
    | demand => cases same
    | finish result' state =>
      obtain ⟨rfl, rfl⟩ := Call.finish.inj same
      cases result with
      | ok => exact Nat.le_refl _
      | error => exact Nat.le_succ _
  | demand _ _ ih₁ ih₂ =>
    obtain ⟨k, same⟩ := opens
    cases k with
    | finish => cases same
    | demand target state resume =>
      obtain ⟨rfl, rfl, rfl⟩ := Call.demand.inj same
      have asked := ih₁ rfl
      have rest := ih₂ ⟨_, rfl⟩
      exact Nat.le_trans (Nat.le_succ _) (Nat.le_trans asked rest)

/-- A call without unrest ends at once, with a product. -/
theorem Ran.quiet_call {k : Call σ}
    (h : Ran c app.watched self room (.carryOut (k.watched d)) m r m')
    (quiet : m'.state.2.unrest = d.unrest) :
    ∃ v s, r = .ok [v] ∧ m' = { m with state := (s, d) } := by
  cases k with
  | finish result state =>
    generalize hc : Call.watched (.finish result state) d = call at h
    cases h with
    | demand => cases hc
    | finish =>
      obtain ⟨rfl, rfl⟩ := Call.finish.inj hc
      cases result with
      | ok v => exact ⟨v, state, rfl, rfl⟩
      | error e => exact absurd quiet (Nat.succ_ne_self _)
  | demand target state resume =>
    generalize hc : Call.watched (.demand target state resume) d = call at h
    cases h with
    | finish => cases hc
    | demand asked rest =>
      obtain ⟨rfl, rfl, rfl⟩ := Call.demand.inj hc
      have more := asked.unrest_le rfl
      have rest := rest.unrest_le ⟨_, rfl⟩
      have disturbed : d.disturbed.unrest = d.unrest + 1 := rfl
      dsimp only at more
      omega

/-! ## What is ahead -/

/-- Whether a service is shared and there is no product of it yet. -/
def awaits {σ : Type} (c : Container) (m : Machine σ) (id : String) : Bool :=
  c.shares id && (m.instances.get? id).isNone

theorem awaits_eq_false (h : c.shares id = true → Kept m id) : c.awaits m id = false := by
  unfold awaits
  cases shared : c.shares id with
  | false => rfl
  | true =>
    obtain ⟨v, hv⟩ := h shared
    rw [hv]
    rfl

theorem awaits_of_absent (shared : c.shares id = true) (absent : ¬ Kept m id) :
    c.awaits m id = true := by
  rw [awaits, shared, not_kept.1 absent]
  rfl

theorem awaits_congr (same : Kept m₁ id ↔ Kept m id) : c.awaits m₁ id = c.awaits m id := by
  unfold awaits
  refine congrArg _ (Bool.eq_iff_iff.2 ?_)
  rw [Option.isNone_iff_eq_none, Option.isNone_iff_eq_none, ← not_kept, ← not_kept, same]

/-- Nothing is awaited of what a stocked service needs. -/
theorem Stocked.order_awaits (stocked : Stocked c m id)
    (frozen : Frozen g lockMode privateIds c) (hp : c.plan? id = some plan) :
    (c.orderOf id).filter (c.awaits m) = [] := by
  obtain ⟨d, hd, -⟩ := PlansOf.exists_definition frozen.plans hp
  refine List.filter_eq_nil_iff.2 fun x hx => ?_
  rw [frozen.mem_orderOf (mem_ids.2 ⟨d, mem_of_find? hd⟩), ← frozen.reaches_iff] at hx
  rw [awaits_eq_false fun shared => ?_]
  · exact Bool.false_ne_true
  · obtain ⟨other, hx', shared⟩ := shares_eq_true.1 shared
    exact stocked x other hx hx' shared

/-- All that a service needs at once is stocked when the service is ready. -/
theorem Ready.stocked (ready : Ready c m id) (frozen : Frozen g lockMode privateIds c)
    (hp : c.plan? id = some plan) :
    ∀ t ∈ plan.allBindings.flatMap Binding.eager, Stocked c m t := by
  intro t ht x other path hx shared
  obtain ⟨d, hd, -⟩ := PlansOf.exists_definition frozen.plans hp
  have dependency : t ∈ ServicePlan.dependenciesOf c.plans id := by
    rw [frozen.mem_dependencies hp, Binding.reads_eager.inline]
    exact ht
  have arc := (PlansOf.mem_dependenciesOf frozen.plans).1 dependency
  have listed : x ∈ c.orderOf id := by
    rw [frozen.mem_orderOf (mem_ids.2 ⟨d, mem_of_find? hd⟩), ← frozen.reaches_iff]
    exact .head dependency path
  rw [frozen.orderOf_split hp, List.mem_append, List.mem_singleton] at listed
  rcases listed with before | rfl
  · exact ready x before other hx shared
  · exact absurd (frozen.reaches_iff.1 path) (frozen.acyclic arc)

/-! ## What is called -/

/-- The services with plans in which `x` is made and which `id` leads to. -/
def Spans (c : Container) (id x : String) : Prop :=
  ∃ y plan, Walk.Reaches (ServicePlan.dependenciesOf c.plans) id y ∧ c.plan? y = some plan ∧
    x ∈ plan.made

/-- What may be called for a task. -/
def Covers (c : Container) (x : String) : Task σ → Prop
  | .evaluate bs => x ∈ bs.flatMap Binding.made ∨ ∃ t ∈ bs.flatMap Binding.eager, c.Spans t x
  | .value b => x ∈ b.made ∨ ∃ t ∈ b.eager, c.Spans t x
  | .carryOut _ => False
  | .prewarm ids => ∃ t ∈ ids, c.Spans t x
  | .resolve id => c.Spans id x

/-- The shared services whose factories are still to be called for a task. -/
def awaited (c : Container) (m : Machine σ) : Task σ → List String
  | .value (.inline plan) => [plan.id].filter c.shares
  | .prewarm ids => ids.filter (c.awaits m)
  | .resolve id => (c.orderOf id).filter (c.awaits m)
  | _ => []

/-- What a task needs is stocked, as far as it is not built ahead by the task itself, and plans that
are carried out in the place of arguments have names of their own. -/
def Prepared (c : Container) (m : Machine σ) : Task σ → Prop
  | .evaluate bs => (∀ x ∈ bs.flatMap Binding.made, c.plan? x = none) ∧
      ∀ t ∈ bs.flatMap Binding.eager, Stocked c m t
  | .value (.inline plan) => (∀ x ∈ plan.allBindings.flatMap Binding.made, c.plan? x = none) ∧
      ∀ t ∈ plan.allBindings.flatMap Binding.eager, Stocked c m t
  | .value b => (∀ x ∈ b.made, c.plan? x = none) ∧ ∀ t ∈ b.eager, Stocked c m t
  | .prewarm ids => ids.Nodup ∧ Proceeds c m (.prewarm ids)
  | .resolve _ => True
  | .carryOut _ => False

theorem prepared_value {b : Binding} (made : ∀ x ∈ b.made, c.plan? x = none)
    (stocked : ∀ t ∈ b.eager, Stocked c m t) : Prepared c m (.value b) := by
  cases b with
  | inline plan =>
    rw [Binding.made_inline] at made
    rw [Binding.reads_eager.inline] at stocked
    exact ⟨fun x hx => made x (List.mem_cons_of_mem _ hx), stocked⟩
  | _ => exact ⟨made, stocked⟩

/-- The plan of a service can be carried out once the service is ready. -/
theorem prepared_plan (frozen : Frozen g lockMode privateIds c) (distinct : c.Distinct)
    (hp : c.plan? plan.id = some plan) (ready : Ready c m plan.id) :
    Prepared c m (.value (.inline plan)) :=
  ⟨distinct.apart _ _ hp, ready.stocked frozen hp⟩

/-- What comes before a service can be built ahead of it. -/
theorem prepared_ahead (frozen : Frozen g lockMode privateIds c) (hp : c.plan? id = some plan) :
    Prepared c m (.prewarm (c.orderOf id).dropLast) :=
  ⟨(frozen.orderOf_nodup hp).sublist (List.dropLast_sublist _), .order frozen hp⟩

/-- No shared service is awaited for a plan in the place of an argument. -/
theorem awaited_value {b : Binding} (made : ∀ x ∈ b.made, c.plan? x = none) :
    awaited c m (.value b) = [] := by
  cases b with
  | inline plan =>
    have own := made plan.id (by rw [Binding.made_inline]; exact List.mem_cons_self)
    have aside : c.shares plan.id = false := by rw [shares, own, Option.any_none]
    rw [awaited, List.filter_singleton, aside]
    rfl
  | _ => rfl

/-- The task ends with values, and `new` are the services whose factories were called for it: the
shared ones among them are those that were awaited, and only of these there are products more. -/
structure Orderly (c : Container) (task : Task (σ × Diary)) (m : Machine (σ × Diary))
    (r : Except Failure (List Value)) (m' : Machine (σ × Diary)) (new : List String) : Prop where
  answered : ∃ vs, r = .ok vs
  called : m'.state.2.called = m.state.2.called ++ new
  order : new.filter c.shares = awaited c m task
  covered : ∀ x ∈ new, c.Covers x task
  kept : ∀ x, Kept m' x → Kept m x ∨ x ∈ awaited c m task

namespace Orderly

/-- Nothing is called. -/
theorem nothing (answered : ∃ vs, r = .ok vs) (none : awaited c m task = []) :
    Orderly c task m r m [] where
  answered
  called := (List.append_nil _).symm
  order := none.symm
  covered := fun _ h => nomatch h
  kept := fun _ h => .inl h

/-- A task has values, so no part of it has failed. -/
theorem not_failed {e : Failure} {new : List String}
    (h : Orderly c task m (.error e) m' new) : False := by
  obtain ⟨vs, same⟩ := h.answered
  cases same

/-- Nothing shared is called in the place of an argument, and what comes after it is as it would be
without it. -/
theorem append {b : Binding} {bs : List Binding} {vs ws : List Value} {new₁ new₂ : List String}
    (head : Orderly c (.value b) m (.ok vs) m₁ new₁) (made : ∀ x ∈ b.made, c.plan? x = none)
    (tail : Orderly c (.evaluate bs) m₁ (.ok ws) m' new₂) :
    Orderly c (.evaluate (b :: bs)) m (.ok (vs ++ ws)) m' (new₁ ++ new₂) where
  answered := ⟨_, rfl⟩
  called := by rw [tail.called, head.called, List.append_assoc]
  order := by
    rw [List.filter_append, head.order, tail.order, awaited_value made]
    rfl
  covered x hx := by
    rw [Covers, List.flatMap_cons, List.flatMap_cons, List.mem_append]
    rcases List.mem_append.1 hx with hx | hx
    · rcases head.covered x hx with made | ⟨t, ht, spans⟩
      · exact .inl (.inl made)
      · exact .inr ⟨t, List.mem_append_left _ ht, spans⟩
    · rcases tail.covered x hx with made | ⟨t, ht, spans⟩
      · exact .inl (.inr made)
      · exact .inr ⟨t, List.mem_append_right _ ht, spans⟩
  kept x kept := by
    rcases tail.kept x kept with kept | new
    · rcases head.kept x kept with old | new
      · exact .inl old
      · rw [awaited_value made] at new
        cases new
    · cases new

/-- A construction without unrest calls the factory of the plan last, and nothing is built for it
but what is made in the places of its arguments. -/
theorem construct {vs : List Value} {s : σ} {new : List String}
    (h : Orderly c (.evaluate plan.allBindings) (m.push plan.id) (.ok vs) m₁ new)
    (answered : ∃ vs, r = .ok vs)
    (ends : m' = { m₁.construct app.watched plan.id with
      state := (s, (m₁.construct app.watched plan.id).state.2.entered) }) :
    Orderly c (.value (.inline plan)) m r m'.pop (new ++ [plan.id]) := by
  subst ends
  refine ⟨answered, ?_, ?_, fun x hx => ?_, fun x kept => ?_⟩
  · show m₁.state.2.called ++ [plan.id] = m.state.2.called ++ (new ++ [plan.id])
    rw [h.called, List.append_assoc]
    rfl
  · rw [List.filter_append, h.order]
    rfl
  · rcases List.mem_append.1 hx with hx | hx
    · rcases h.covered x hx with made | ⟨t, ht, spans⟩
      · exact .inl (Binding.made_inline plan ▸ List.mem_cons_of_mem _ made)
      · exact .inr ⟨t, Binding.reads_eager.inline plan ▸ ht, spans⟩
    · rw [List.mem_singleton.1 hx]
      exact .inl plan.id_mem_made
  · have kept : Kept m₁ x := kept
    rcases h.kept x kept with old | new
    · exact .inl old
    · cases new

/-- What is called to construct a service is covered by the service. -/
theorem spans {new : List String} (h : Orderly c (.value (.inline plan)) m r m' new)
    (frozen : Frozen g lockMode privateIds c) (hp : c.plan? id = some plan) :
    ∀ x ∈ new, c.Spans id x := by
  intro x hx
  rcases h.covered x hx with made | ⟨t, ht, y, other, path, hy, made⟩
  · exact ⟨id, plan, .refl, hp, made⟩
  · exact ⟨y, other, .head ((frozen.mem_dependencies hp).2 ht) path, hy, made⟩

/-- One more service has been built ahead. -/
theorem warm {v : Value} {ids new₁ new₂ : List String}
    (one : Orderly c (.value (.inline plan)) m (.ok [v]) m₁ new₁)
    (frozen : Frozen g lockMode privateIds c) (hp : c.plan? id = some plan)
    (shared : plan.isShared = true) (absent : ¬ Kept m id) (fresh : id ∉ ids)
    (grows : ∀ x, Kept m x → Kept m₁ x)
    (rest : Orderly c (.prewarm ids) (m₁.keep plan.id v) r m' new₂) :
    Orderly c (.prewarm (id :: ids)) m r m' (new₁ ++ new₂) := by
  obtain rfl := id_of_plan? hp
  have shares : c.shares plan.id = true := (shares_eq hp).trans shared
  have first : awaited c m (.value (.inline plan)) = [plan.id] := by
    rw [awaited, List.filter_singleton, shares]
    rfl
  -- the others are kept or not as before
  have others : awaited c (m₁.keep plan.id v) (.prewarm ids) = ids.filter (c.awaits m) := by
    refine List.filter_congr fun y hy => awaits_congr ?_
    have ne : y ≠ plan.id := ne_of_mem_of_not_mem hy fresh
    rw [kept_keep, or_iff_right ne]
    refine ⟨fun kept => (one.kept y kept).resolve_right fun new => ?_, grows y⟩
    rw [first] at new
    exact ne (List.mem_singleton.1 new)
  have all : awaited c m (.prewarm (plan.id :: ids)) = plan.id :: ids.filter (c.awaits m) := by
    rw [awaited, List.filter_cons_of_pos (awaits_of_absent shares absent)]
  refine ⟨rest.answered, ?_, ?_, fun x hx => ?_, fun x kept => ?_⟩
  · have called : m'.state.2.called = m₁.state.2.called ++ new₂ := rest.called
    rw [called, one.called, List.append_assoc]
  · rw [List.filter_append, one.order, rest.order, first, others, all]
    rfl
  · rcases List.mem_append.1 hx with hx | hx
    · exact ⟨plan.id, List.mem_cons_self, one.spans frozen hp x hx⟩
    · obtain ⟨t, ht, spans⟩ := rest.covered x hx
      exact ⟨t, List.mem_cons_of_mem _ ht, spans⟩
  · rw [all]
    rcases rest.kept x kept with kept | new
    · rcases kept_keep.1 kept with rfl | kept
      · exact .inr List.mem_cons_self
      · rcases one.kept x kept with old | new
        · exact .inl old
        · rw [first] at new
          exact .inr (List.mem_singleton.1 new ▸ List.mem_cons_self)
    · rw [others] at new
      exact .inr (List.mem_cons_of_mem _ new)

/-- A service has been constructed after all that comes before it in its construction order. -/
theorem resolve {vs : List Value} {m₂ : Machine (σ × Diary)} {new₁ new₂ : List String}
    (ahead : Orderly c (.prewarm (c.orderOf id).dropLast) m (.ok vs) m₁ new₁)
    (construct : Orderly c (.value (.inline plan)) m₁ r m₂ new₂)
    (frozen : Frozen g lockMode privateIds c) (hp : c.plan? id = some plan)
    (absent : c.shares id = true → ¬ Kept m id) (same : m'.state = m₂.state)
    (kept : ∀ x, Kept m' x → Kept m₂ x ∨ c.shares id = true ∧ x = id) :
    Orderly c (.resolve id) m r m' (new₁ ++ new₂) := by
  obtain rfl := id_of_plan? hp
  have last : awaited c m (.resolve plan.id) =
      (c.orderOf plan.id).dropLast.filter (c.awaits m) ++ [plan.id].filter c.shares := by
    rw [awaited, frozen.orderOf_split hp, List.filter_append, List.dropLast_concat]
    congr 1
    refine List.filter_congr fun y hy => ?_
    obtain rfl := List.mem_singleton.1 hy
    cases shared : c.shares plan.id with
    | false => exact awaits_eq_false fun h => nomatch shared.symm.trans h
    | true => exact awaits_of_absent shared (absent shared)
  refine ⟨construct.answered, ?_, ?_, fun x hx => ?_, fun x hx => ?_⟩
  · rw [same, construct.called, ahead.called, List.append_assoc]
  · rw [List.filter_append, ahead.order, construct.order, last]
    rfl
  · rcases List.mem_append.1 hx with hx | hx
    · obtain ⟨t, ht, y, other, path, hy, made⟩ := ahead.covered x hx
      obtain ⟨-, u, hu, path'⟩ := frozen.mem_before hp ht
      exact ⟨y, other, .head hu (path'.trans path), hy, made⟩
    · exact construct.spans frozen hp x hx
  · rw [last, List.mem_append]
    rcases kept x hx with hx | ⟨shared, rfl⟩
    · rcases construct.kept x hx with hx | new
      · exact (ahead.kept x hx).imp_right .inl
      · exact .inr (.inr new)
    · exact .inr (.inr (List.mem_filter.2 ⟨List.mem_singleton.2 rfl, shared⟩))

/-- Nothing shared is called for a service in the place of an argument, which is stocked. -/
theorem service {new : List String} (h : Orderly c (.resolve id) m r m' new)
    (none : awaited c m (.resolve id) = []) : Orderly c (.value (.service id)) m r m' new where
  answered := h.answered
  called := h.called
  order := h.order.trans none
  covered x hx := .inr ⟨id, by rw [Binding.eager]; exact List.mem_singleton_self id, h.covered x hx⟩
  kept x kept := by
    have kept := h.kept x kept
    rwa [none] at kept

/-- A collection is evaluated as its items are. -/
theorem collection {tag : String} {items : List Binding} {new : List String}
    (h : Orderly c (.evaluate items) m r m' new) :
    Orderly c (.value (.collection tag items)) m (r.map fun vs => [.list vs]) m' new where
  answered := by
    obtain ⟨vs, rfl⟩ := h.answered
    exact ⟨_, rfl⟩
  called := h.called
  order := h.order
  covered x hx := by
    rw [Covers, Binding.made_collection, Binding.reads_eager.collection]
    exact h.covered x hx
  kept := h.kept

/-- What is not awaited needs not be built ahead. -/
theorem skip {ids new : List String} (h : Orderly c (.prewarm ids) m r m' new)
    (idle : c.awaits m id = false) : Orderly c (.prewarm (id :: ids)) m r m' new where
  answered := h.answered
  called := h.called
  order := by
    rw [h.order, awaited, awaited, List.filter_cons_of_neg (Bool.eq_false_iff.1 idle)]
  covered x hx := by
    obtain ⟨t, ht, spans⟩ := h.covered x hx
    exact ⟨t, List.mem_cons_of_mem _ ht, spans⟩
  kept x kept := by
    rw [awaited, List.filter_cons_of_neg (Bool.eq_false_iff.1 idle)]
    exact h.kept x kept

end Orderly

/-- Without unrest a task ends with values, and the shared services whose factories are called for
it are those that are awaited, in their order. -/
theorem Ran.orderly (frozen : Frozen g lockMode privateIds c) (distinct : c.Distinct)
    (falling : ∀ a b, c.arcs false a b → rank b < rank a)
    (h : Ran c app.watched self room task m r m')
    (falls : Falls c app.watched c.arcs rank room m task)
    (up : Upheld c m) (prepared : Prepared c m task)
    (quiet : m'.state.2.unrest = m.state.2.unrest) : ∃ new, Orderly c task m r m' new := by
  have laid := frozen.laid
  -- of two parts neither has unrest if the whole has none
  have halves {x y z : Nat} (le : x ≤ y) (le' : y ≤ z) (quiet : z = x) : y = x ∧ z = y := by omega
  induction h with
  | nothing | literal | handle | ahead => exact ⟨[], .nothing ⟨_, rfl⟩ rfl⟩
  | first _ ih =>
    obtain ⟨a, above, wired⟩ := falls
    obtain ⟨new, orderly⟩ := ih (falls_value falling above (wired _ List.mem_cons_self))
      up (prepared_value
        (fun x hx => prepared.1 x (List.mem_append_left _ hx))
        fun t ht => prepared.2 t (List.mem_append_left _ ht)) quiet
    exact orderly.not_failed.elim
  | @next _ b bs _ _ _ _ r ran rest ih₁ ih₂ =>
    obtain ⟨a, above, wired⟩ := falls
    obtain ⟨quiet₁, quiet₂⟩ := halves (ran.unrest_le rfl) (rest.unrest_le rfl) quiet
    have made : ∀ x ∈ b.made, c.plan? x = none := fun x hx =>
      prepared.1 x (List.mem_append_left _ hx)
    obtain ⟨new₁, head⟩ := ih₁ (falls_value falling above (wired _ List.mem_cons_self))
      up
      (prepared_value made fun t ht => prepared.2 t (List.mem_append_left _ ht)) quiet₁
    obtain ⟨new₂, tail⟩ := ih₂
      ⟨a, above.frame ran.frame, fun b hb => wired b (List.mem_cons_of_mem _ hb)⟩
      (ran.upheld frozen up).1
      ⟨fun x hx => prepared.1 x (List.mem_append_right _ hx),
        fun t ht => (prepared.2 t (List.mem_append_right _ ht)).mono ran.frame⟩ quiet₂
    obtain ⟨ws, rfl⟩ := tail.answered
    exact ⟨_, head.append made tail⟩
  | @service _ id _ _ _ _ ih =>
    obtain ⟨a, above, wired⟩ := falls
    cases wired with
    | service eager there =>
      have lower := falling _ _ eager
      obtain ⟨new, orderly⟩ := ih ⟨above.opens lower, Nat.lt_of_lt_of_le lower above.2, there⟩
        up trivial quiet
      obtain ⟨plan, hp⟩ := there
      have stocked := prepared.2 id (by rw [Binding.eager]; exact List.mem_singleton_self id)
      exact ⟨new, orderly.service (stocked.order_awaits frozen hp)⟩
  | collection _ ih =>
    obtain ⟨a, above, wired⟩ := falls
    obtain ⟨made, stocked⟩ := prepared
    rw [Binding.made_collection] at made
    rw [Binding.reads_eager.collection] at stocked
    cases wired with
    | collection items =>
      obtain ⟨new, orderly⟩ := ih ⟨a, above, items⟩ up ⟨made, stocked⟩ quiet
      exact ⟨new, orderly.collection⟩
  | barred barred => exact absurd (falls.1.1 _ barred) (Nat.lt_irrefl _)
  | unready _ _ ih =>
    obtain ⟨new, orderly⟩ := ih ⟨_, falls.1.push, falls.2⟩ up prepared quiet
    exact orderly.not_failed.elim
  | @called _ plan m m₁ _ vs _ _ ran call ih =>
    have later := call.unrest_le ⟨_, rfl⟩
    obtain ⟨quiet₁, quiet₂⟩ := halves (ran.unrest_le rfl) later quiet
    obtain ⟨new, orderly⟩ := ih ⟨_, falls.1.push, falls.2⟩ up prepared quiet₁
    obtain ⟨v, s, rfl, ends⟩ := call.quiet_call quiet₂
    exact ⟨_, orderly.construct ⟨_, rfl⟩ ends⟩
  | finish | demand => exact prepared.elim
  | @skip _ id ids m _ _ served _ ih =>
    have kept (plan : ServicePlan) (hp : c.plan? id = some plan) (shared : plan.isShared = true) :
        Kept m id := id_of_plan? hp ▸ (served plan hp shared).2
    obtain ⟨new, orderly⟩ := ih (fun y hy => falls y (List.mem_cons_of_mem _ hy))
      up
      ⟨(List.nodup_cons.1 prepared.1).2, prepared.2.tail (fun _ h => h) kept⟩ quiet
    have idle : c.awaits m id = false := awaits_eq_false fun shared => by
      obtain ⟨plan, hp, shared⟩ := shares_eq_true.1 shared
      exact kept plan hp shared
    exact ⟨new, orderly.skip idle⟩
  | @warm _ id ids plan m m₁ _ v _ hp shared absent ran rest ih₁ ih₂ =>
    obtain rfl := id_of_plan? hp
    obtain ⟨quiet₁, quiet₂⟩ := halves (ran.unrest_le rfl) (rest.unrest_le rfl) quiet
    obtain ⟨new₁, one⟩ := ih₁ ⟨falls _ List.mem_cons_self, laid.wired _ _ hp⟩ up
      (prepared_plan frozen distinct hp prepared.2.head) quiet₁
    obtain ⟨up₁, done⟩ := ran.upheld frozen up
    obtain ⟨fresh, nodup⟩ := List.nodup_cons.1 prepared.1
    obtain ⟨new₂, others⟩ := ih₂
      (fun y hy => (falls y (List.mem_cons_of_mem _ hy)).frame
        (ran.frame.trans (.keep (ran.frame.stack ▸ ran.free) v)))
      (up₁.keep frozen hp (done _ rfl) v)
      ⟨nodup, prepared.2.tail (fun x hx => kept_keep.2 (.inr (ran.frame.grows x hx)))
        fun _ _ _ => kept_keep.2 (.inl rfl)⟩ quiet₂
    exact ⟨_, one.warm frozen hp shared (not_kept.2 absent) fresh ran.frame.grows others⟩
  | cold hp _ _ _ ih =>
    obtain rfl := id_of_plan? hp
    obtain ⟨new, orderly⟩ := ih ⟨falls _ List.mem_cons_self, laid.wired _ _ hp⟩ up
      (prepared_plan frozen distinct hp prepared.2.head) quiet
    exact orderly.not_failed.elim
  | deep => exact absurd falls.2.1 (Nat.not_lt_zero _)
  | unknown none =>
    obtain ⟨plan, hp⟩ := falls.2.2
    rw [none] at hp
    cases hp
  | @kept _ id _ _ v hp shared found =>
    obtain rfl := id_of_plan? hp
    have stocked := up _ ⟨v, found⟩
    exact ⟨[], .nothing ⟨_, rfl⟩ (stocked.order_awaits frozen hp)⟩
  | unprepared hp _ ran ih =>
    obtain ⟨new, orderly⟩ :=
      ih (falls_ahead laid falling hp falls) up (prepared_ahead frozen hp) quiet
    exact orderly.not_failed.elim
  | @meanwhile _ id plan _ _ v _ hp missing shared _ ran found =>
    obtain rfl := id_of_plan? hp
    have absent := ran.unkept_ahead frozen hp up fun kept => missing ⟨shared, kept⟩
    exact absurd ⟨v, found⟩ absent
  | @built room id plan m m₁ m' v _ hp missing shared ahead _ ran ih₁ ih₂ =>
    obtain rfl := id_of_plan? hp
    obtain ⟨quiet₁, quiet₂⟩ := halves (ahead.unrest_le rfl) (ran.unrest_le rfl) quiet
    obtain ⟨new₁, first⟩ :=
      ih₁ (falls_ahead laid falling hp falls) up (prepared_ahead frozen hp) quiet₁
    obtain ⟨new₂, last⟩ := ih₂ (falls_construct laid hp falls ahead.frame)
      (ahead.upheld frozen up).1 (prepared_plan frozen distinct hp ahead.kept_ahead) quiet₂
    refine ⟨_, first.resolve last frozen hp (fun _ kept => missing ⟨shared, kept⟩) rfl
      fun x kept => ?_⟩
    rcases kept_keep.1 kept with rfl | kept
    · exact .inr ⟨(shares_eq hp).trans shared, rfl⟩
    · exact .inl kept
  | broken hp _ _ ahead _ ran ih₁ ih₂ =>
    obtain rfl := id_of_plan? hp
    obtain ⟨quiet₁, quiet₂⟩ := halves (ahead.unrest_le rfl) (ran.unrest_le rfl) quiet
    obtain ⟨new, orderly⟩ := ih₂ (falls_construct laid hp falls ahead.frame)
      (ahead.upheld frozen up).1 (prepared_plan frozen distinct hp ahead.kept_ahead) quiet₂
    exact orderly.not_failed.elim
  | @fresh room id plan m m₁ m' _ _ hp single ahead ran ih₁ ih₂ =>
    obtain rfl := id_of_plan? hp
    obtain ⟨quiet₁, quiet₂⟩ := halves (ahead.unrest_le rfl) (ran.unrest_le rfl) quiet
    obtain ⟨new₁, first⟩ :=
      ih₁ (falls_ahead laid falling hp falls) up (prepared_ahead frozen hp) quiet₁
    obtain ⟨new₂, last⟩ := ih₂ (falls_construct laid hp falls ahead.frame)
      (ahead.upheld frozen up).1 (prepared_plan frozen distinct hp ahead.kept_ahead) quiet₂
    refine ⟨_, first.resolve last frozen hp (fun shared => ?_) rfl fun _ => .inl⟩
    rw [shares_eq hp, single] at shared
    cases shared

end Container

end Wiring
