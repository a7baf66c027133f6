import Wiring.Proofs.Container.Runs

/-!
# Runs are what is done

What is laid out as a run is what the container does: the work of a task ends as its run says. So a
task has one run at most from any machine.
-/

namespace Wiring.Container

variable {σ : Type} {c : Container} {app : Application σ} {self room : Nat}
  {below : String → Work σ Value} {plan : ServicePlan} {task : Task σ} {m m₁ m' : Machine σ}
  {r : Except Failure (List Value)} {id : String}

/-! ## Parts of work -/

theorem ends_bind_error {α β : Type} {x : Work σ α} {k : α → Work σ β} {e : Failure}
    (h : Ends x m (.error e) m') : Ends (x >>= k) m (.error e) m' :=
  ends_bind.2 (.inl ⟨e, h, rfl⟩)

theorem ends_bind_ok {α β : Type} {x : Work σ α} {k : α → Work σ β} {a : α} {q : Except Failure β}
    (h : Ends x m (.ok a) m₁) (rest : Ends (k a) m₁ q m') : Ends (x >>= k) m q m' :=
  ends_bind.2 (.inr ⟨a, m₁, h, rest⟩)

/-- What is done with a result is done if there is one. -/
theorem ends_bind_pure {α β : Type} {x : Work σ α} {k : α → β} {q : Except Failure α}
    (h : Ends x m q m') : Ends (x >>= fun a => pure (k a)) m (q.map k) m' := by
  cases q with
  | error e => exact ends_bind_error h
  | ok a => exact ends_bind_ok h rfl

theorem ends_evaluateAll_cons {b : Binding} {bs : List Binding} {v : Value}
    (head : Ends (evaluate app self below b) m (.ok v) m₁)
    (tail : Ends (evaluateAll app self below bs) m₁ r m') :
    Ends (evaluateAll app self below (b :: bs)) m (r.map (v :: ·)) m' := by
  unfold evaluateAll
  exact ends_bind_ok head (ends_bind_pure tail)

/-- The values of bindings are those of the first ones, then those of the rest. -/
theorem ends_evaluateAll_append {as bs : List Binding}
    (h : Ends (evaluateAll app self below (as ++ bs)) m r m') :
    (∃ e, r = .error e ∧ Ends (evaluateAll app self below as) m (.error e) m') ∨
      ∃ us m₁ q, us.length = as.length ∧ r = q.map (us ++ ·) ∧
        Ends (evaluateAll app self below as) m (.ok us) m₁ ∧
        Ends (evaluateAll app self below bs) m₁ q m' := by
  induction as generalizing m r with
  | nil => exact .inr ⟨[], m, r, rfl, by cases r <;> rfl, rfl, h⟩
  | cons a as ih =>
    rw [List.cons_append, evaluateAll] at h
    rcases ends_bind.1 h with ⟨e, failed, rfl⟩ | ⟨v, m₁, head, rest⟩
    · refine .inl ⟨e, rfl, ?_⟩
      unfold evaluateAll
      exact ends_bind_error failed
    have whole {q : Except Failure (List Value)} {m' : Machine σ}
        (tail : Ends (evaluateAll app self below as) m₁ q m') :=
      ends_evaluateAll_cons head tail
    rcases ends_bind.1 rest with ⟨e, failed, rfl⟩ | ⟨vs, m₂, done, last⟩
    · rcases ih failed with ⟨e', same, failed⟩ | ⟨us, m₂, q, length, same, first, second⟩
      · obtain rfl := Except.error.inj same
        exact .inl ⟨e, rfl, whole failed⟩
      · refine .inr ⟨v :: us, m₂, q, by simp [length], ?_, whole first, second⟩
        cases q <;> simp_all [Except.map]
    · obtain ⟨rfl, rfl⟩ := ends_pure.1 last
      rcases ih done with ⟨e', same, -⟩ | ⟨us, m₂, q, length, same, first, second⟩
      · cases same
      · refine .inr ⟨v :: us, m₂, q, by simp [length], ?_, whole first, second⟩
        cases q <;> simp_all [Except.map]

/-- Keyword bindings have the values of the bindings alone, under their names. -/
theorem ends_evaluateNamed {ks : List (String × Binding)}
    (h : Ends (evaluateAll app self below (ks.map (·.2))) m r m') :
    Ends (evaluateNamed app self below ks) m (r.map fun vs => (ks.map (·.1)).zip vs) m' := by
  induction ks generalizing m r with
  | nil =>
    obtain ⟨rfl, rfl⟩ := ends_pure.1 h
    rfl
  | cons k ks ih =>
    rw [List.map_cons, evaluateAll] at h
    unfold evaluateNamed
    rcases ends_bind.1 h with ⟨e, failed, rfl⟩ | ⟨v, m₁, head, rest⟩
    · exact ends_bind_error failed
    refine ends_bind_ok head ?_
    rcases ends_bind.1 rest with ⟨e, failed, rfl⟩ | ⟨vs, m₂, done, last⟩
    · exact ends_bind_error (ih failed)
    · obtain ⟨rfl, rfl⟩ := ends_pure.1 last
      exact ends_bind_ok (ih done) rfl

/-- A plan is not carried out for what is under construction. -/
theorem ends_inline_barred (barred : plan.id ∈ m.stack) :
    Ends (evaluate app self below (.inline plan)) m (.error (circular m.stack plan.id)) m := by
  unfold evaluate enclose
  refine ends_get.2 ?_
  simp only [List.contains_eq_mem, barred, decide_true, if_true]
  exact ends_bind_error rfl

/-- A plan is carried out on behalf of its service. -/
theorem ends_inline {q : Except Failure Value} (free : plan.id ∉ m.stack) (inner : Ends (do
      let arguments ← evaluateAll app self below plan.arguments
      let keywords ← evaluateNamed app self below plan.keywords
      callFactory app below plan.id plan.factory arguments keywords) (m.push plan.id) q m₁) :
    Ends (evaluate app self below (.inline plan)) m q m₁.pop := by
  unfold evaluate enclose
  refine ends_get.2 ?_
  simp only [List.contains_eq_mem, free, decide_false, Bool.false_eq_true, if_false]
  refine ends_modify.2 (ends_bind_ok (ends_observe.2 ⟨q, rfl, inner⟩) (ends_modify.2 ?_))
  exact ends_fromResult.2 ⟨rfl, rfl⟩

/-- The factory of a plan is called with the values of all its bindings. -/
theorem ends_plan {vs : List Value} {q : Except Failure Value}
    (values : Ends (evaluateAll app self below plan.allBindings) m (.ok vs) m₁)
    (call : Ends (drive below (callOf app plan vs (m₁.construct app plan.id).state))
      (m₁.construct app plan.id) q m') :
    Ends (do
      let arguments ← evaluateAll app self below plan.arguments
      let keywords ← evaluateNamed app self below plan.keywords
      callFactory app below plan.id plan.factory arguments keywords) m q m' := by
  rcases ends_evaluateAll_append values with ⟨e, same, -⟩ | ⟨us, m₂, q', length, same, first, second⟩
  · cases same
  obtain ⟨ws, rfl, rfl⟩ := map_eq_ok.1 same.symm
  refine ends_bind_ok first (ends_bind_ok (ends_evaluateNamed second) ?_)
  refine ends_modify.2 (ends_get.2 ?_)
  simpa [callOf, ← length, Machine.construct] using call

/-- Where a binding of a plan has no value its factory is not called. -/
theorem ends_plan_error {e : Failure}
    (values : Ends (evaluateAll app self below plan.allBindings) m (.error e) m') :
    Ends (do
      let arguments ← evaluateAll app self below plan.arguments
      let keywords ← evaluateNamed app self below plan.keywords
      callFactory app below plan.id plan.factory arguments keywords) m (.error e) m' := by
  rcases ends_evaluateAll_append values with ⟨e', same, failed⟩ | ⟨us, m₁, q, -, same, first, second⟩
  · obtain rfl := Except.error.inj same
    exact ends_bind_error failed
  · cases q with
    | ok => cases same
    | error e' =>
      obtain rfl := Except.error.inj same
      exact ends_bind_ok first (ends_bind_error (ends_evaluateNamed second))

/-- The product of a shared service is kept. -/
theorem ends_constructShared {v : Value}
    (h : Ends (evaluate app self below (.inline plan)) m (.ok v) m') :
    Ends (constructShared app self below plan) m (.ok v) (m'.keep plan.id v) :=
  ends_bind_ok h (ends_modify.2 rfl)

/-- A lock makes no difference to a service that is not kept. -/
theorem ends_constructGuarded {q : Except Failure Value}
    (absent : c.locks.has plan.id = true → m.instances.get? plan.id = none)
    (h : Ends (constructShared app self below plan) m q m') :
    Ends (constructGuarded c app self below plan) m q m' := by
  unfold constructGuarded
  split
  next locked =>
    refine ends_kept.2 ?_
    rw [absent locked]
    exact h
  next => exact h

/-- Nothing is done ahead for what is kept or need not be. -/
theorem ends_prewarmOne_served
    (served : ∀ plan, c.plan? id = some plan → plan.isShared = true → Served m plan) :
    Ends (prewarmOne c app self below id) m (.ok ()) m := by
  unfold prewarmOne
  cases hp : c.plan? id with
  | none => rfl
  | some plan =>
    obtain rfl : plan.id = id := by simpa using List.find?_some hp
    refine ends_kept.2 ?_
    rw [if_neg]
    · rfl
    · rw [Bool.and_eq_true, not_and, Option.isNone_iff_eq_none]
      intro shared none
      obtain ⟨-, v, found⟩ := served plan hp shared
      rw [none] at found
      cases found

/-- A shared service that is not kept is constructed ahead. -/
theorem ends_prewarmOne {q : Except Failure Value} (hp : c.plan? id = some plan)
    (shared : plan.isShared = true) (absent : m.instances.get? plan.id = none)
    (h : Ends (constructShared app self below plan) m q m') :
    Ends (prewarmOne c app self below id) m (q.map fun _ => ()) m' := by
  obtain rfl : plan.id = id := by simpa using List.find?_some hp
  unfold prewarmOne
  rw [hp]
  refine ends_kept.2 ?_
  rw [shared, absent]
  exact ends_discard.2 ⟨q, rfl, ends_constructGuarded (fun _ => absent) h⟩

/-! ## Whole runs -/

/-- The work of a task, begun in the machine `m`, ends with `r` in the machine `m'`. -/
def Performs (c : Container) (app : Application σ) (self room : Nat) (task : Task σ) (m : Machine σ)
    (r : Except Failure (List Value)) (m' : Machine σ) : Prop :=
  let below := resolve c app self room
  match task with
  | .evaluate bs => Ends (evaluateAll app self below bs) m r m'
  | .value b => ∃ q, r = single q ∧ Ends (evaluate app self below b) m q m'
  | .carryOut call => ∃ q, r = single q ∧ Ends (drive below call) m q m'
  | .prewarm ids => ∃ q : Except Failure Unit, r = q.map (fun _ => []) ∧
      Ends (ids.forM (prewarmOne c app self below)) m q m'
  | .resolve id => ∃ q, r = single q ∧ Ends (below id) m q m'

theorem single_injective : Function.Injective single := fun q q' h => by
  cases q <;> cases q' <;> simp_all [Except.map]

theorem single_eq_ok {q : Except Failure Value} {v : Value} (h : .ok [v] = single q) : q = .ok v := by
  cases q <;> simp_all [Except.map]

theorem single_eq_error {α : Type} {q : Except Failure α} {k : α → List Value} {e : Failure}
    (h : .error e = q.map k) : q = .error e := by
  cases q <;> simp_all [Except.map]

/-- What is asked for has been looked up. -/
theorem ends_resolve {q : Except Failure Value} (hp : c.plan? id = some plan)
    (unserved : ¬ Served m plan) (h : Ends (do
      prewarm c app self (resolve c app self room) id
      if plan.isShared then constructGuarded c app self (resolve c app self room) plan
      else construct app self (resolve c app self room) plan) m q m') :
    Ends (resolve c app self (room + 1) id) m q m' := by
  obtain rfl : plan.id = id := by simpa using List.find?_some hp
  unfold resolve
  simp only [hp]
  cases shared : plan.isShared with
  | true =>
    rw [if_pos rfl]
    refine ends_kept.2 ?_
    cases found : m.instances.get? plan.id with
    | some v => exact absurd ⟨shared, v, found⟩ unserved
    | none => simpa [shared] using h
  | false => simpa [shared] using h

/-- Whatever has run is what is done. -/
theorem Ran.performs (h : Ran c app self room task m r m') : Performs c app self room task m r m' := by
  induction h with
  | nothing => exact ends_pure.2 ⟨rfl, rfl⟩
  | first _ ih =>
    obtain ⟨q, same, failed⟩ := ih
    obtain rfl := single_eq_error same
    dsimp only [Performs]
    unfold evaluateAll
    exact ends_bind_error failed
  | next _ _ ih₁ ih₂ =>
    obtain ⟨q, same, head⟩ := ih₁
    obtain ⟨v, rfl, rfl⟩ := map_eq_ok.1 same.symm
    exact ends_evaluateAll_cons head ih₂
  | @literal _ v => exact ⟨.ok v, rfl, rfl⟩
  | handle => exact ⟨.ok _, rfl, rfl⟩
  | service _ ih => exact ih
  | @collection _ _ _ _ _ r _ ih =>
    refine ⟨r.map .list, by cases r <;> rfl, ?_⟩
    unfold evaluate
    exact ends_bind_pure ih
  | barred barred => exact ⟨.error _, rfl, ends_inline_barred barred⟩
  | unready free _ ih => exact ⟨.error _, rfl, ends_inline free (ends_plan_error ih)⟩
  | called free _ _ ih₁ ih₂ =>
    obtain ⟨q, rfl, call⟩ := ih₂
    exact ⟨q, rfl, ends_inline free (ends_plan ih₁ call)⟩
  | @finish _ result => exact ⟨result, rfl, ends_modify.2 (ends_fromResult.2 ⟨rfl, rfl⟩)⟩
  | @demand _ _ _ _ _ _ _ q _ _ _ ih₁ ih₂ =>
    obtain ⟨q', same, asked⟩ := ih₁
    obtain rfl := single_injective same
    obtain ⟨q', rfl, rest⟩ := ih₂
    exact ⟨q', rfl, ends_modify.2 (ends_bind_ok (ends_observe.2 ⟨q, rfl, asked⟩) (ends_get.2 rest))⟩
  | ahead => exact ⟨.ok (), rfl, rfl⟩
  | @skip _ id _ _ _ _ served _ ih =>
    obtain ⟨q, rfl, rest⟩ := ih
    refine ⟨q, rfl, ?_⟩
    rw [forM_cons]
    exact ends_bind_ok (ends_prewarmOne_served served) rest
  | @warm _ _ _ plan _ _ _ v _ hp shared absent _ _ ih₁ ih₂ =>
    obtain ⟨q, same, construct⟩ := ih₁
    obtain rfl := single_eq_ok same
    obtain ⟨q, rfl, rest⟩ := ih₂
    refine ⟨q, rfl, ?_⟩
    rw [forM_cons]
    refine ends_bind_ok (ends_prewarmOne hp shared absent (q := .ok v) ?_) rest
    exact ends_constructShared construct
  | @cold _ _ _ _ _ _ e hp shared absent _ ih =>
    obtain ⟨q, same, construct⟩ := ih
    obtain rfl := single_eq_error same
    refine ⟨.error e, rfl, ?_⟩
    rw [forM_cons]
    refine ends_bind_error (ends_prewarmOne hp shared absent (q := .error e) ?_)
    exact ends_bind_error construct
  | deep => exact ⟨.error _, rfl, rfl⟩
  | unknown none =>
    refine ⟨.error _, rfl, ?_⟩
    unfold resolve
    simp only [none]
    rfl
  | @kept _ id plan _ v hp shared found =>
    obtain rfl : plan.id = id := by simpa using List.find?_some hp
    refine ⟨.ok v, rfl, ?_⟩
    unfold resolve
    simp only [hp, shared, if_true]
    refine ends_kept.2 ?_
    rw [found]
    rfl
  | @unprepared _ _ _ _ _ e hp unserved _ ih =>
    obtain ⟨q, same, ahead⟩ := ih
    obtain rfl := single_eq_error same
    exact ⟨.error e, rfl, ends_resolve hp unserved (ends_bind_error ahead)⟩
  | @meanwhile _ _ _ _ _ v _ hp unserved shared locked _ found ih =>
    obtain ⟨q, same, ahead⟩ := ih
    obtain ⟨⟨⟩, rfl, -⟩ := map_eq_ok.1 same.symm
    refine ⟨.ok v, rfl, ends_resolve hp unserved (ends_bind_ok ahead ?_)⟩
    rw [if_pos shared]
    unfold constructGuarded
    rw [if_pos locked]
    refine ends_kept.2 ?_
    rw [found]
    rfl
  | @built _ _ plan _ _ _ v _ hp unserved shared _ absent _ ih₁ ih₂ =>
    obtain ⟨q, same, ahead⟩ := ih₁
    obtain ⟨⟨⟩, rfl, -⟩ := map_eq_ok.1 same.symm
    obtain ⟨q, same, construct⟩ := ih₂
    obtain rfl := single_eq_ok same
    refine ⟨.ok v, rfl, ends_resolve hp unserved (ends_bind_ok ahead ?_)⟩
    rw [if_pos shared]
    exact ends_constructGuarded absent (ends_constructShared construct)
  | @broken _ _ plan _ _ _ e _ hp unserved shared _ absent _ ih₁ ih₂ =>
    obtain ⟨q, same, ahead⟩ := ih₁
    obtain ⟨⟨⟩, rfl, -⟩ := map_eq_ok.1 same.symm
    obtain ⟨q, same, construct⟩ := ih₂
    obtain rfl := single_eq_error same
    refine ⟨.error e, rfl, ends_resolve hp unserved (ends_bind_ok ahead ?_)⟩
    rw [if_pos shared]
    exact ends_constructGuarded absent (ends_bind_error construct)
  | @fresh _ _ plan m _ _ _ _ hp single _ _ ih₁ ih₂ =>
    obtain ⟨q, same, ahead⟩ := ih₁
    obtain ⟨⟨⟩, rfl, -⟩ := map_eq_ok.1 same.symm
    obtain ⟨q, rfl, construct⟩ := ih₂
    have unserved : ¬ Served m plan := fun served =>
      absurd served.1 (by simp [single])
    refine ⟨q, rfl, ends_resolve hp unserved (ends_bind_ok ahead ?_)⟩
    rw [if_neg (by simp [single])]
    exact construct

/-- What is asked for ends just as it runs. -/
theorem ends_resolve_iff {q : Except Failure Value} :
    Ends (resolve c app self room id) m q m' ↔ Ran c app self room (.resolve id) m (single q) m' := by
  refine ⟨ran_resolve c app self room id m q m', fun ran => ?_⟩
  obtain ⟨q', same, ends⟩ := ran.performs
  obtain rfl := single_injective same
  exact ends

end Wiring.Container
