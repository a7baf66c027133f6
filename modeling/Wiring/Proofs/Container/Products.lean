import Wiring.Proofs.Container.Freezing
import Wiring.Proofs.Container.Runs

/-!
# What is kept

Products of shared services are kept and never dropped, and no product is kept for a service while
it is under construction. With a service all shared services that it leads to are kept. So nothing
that is done ahead for a service ends with a product of that service.
-/

namespace Wiring.Container

open Graph

variable {σ : Type} {f : Graph} {c : Container} {app : Application σ} {self room : Nat}
  {lockMode : LockMode} {privateIds : List String} {task : Task σ} {plan : ServicePlan}
  {m m₁ m' : Machine σ} {r : Except Failure (List Value)} {vs : List Value} {id : String}

/-- A product is kept for the service. -/
def Kept (m : Machine σ) (id : String) : Prop := ∃ v, m.instances.get? id = some v

theorem not_kept : ¬ Kept m id ↔ m.instances.get? id = none := by
  rw [Kept, ← Option.ne_none_iff_exists', not_not]

/-! ## Frames -/

/-- What no work changes: what is under construction, what is kept of that, and that anything else
is kept once it is. -/
structure Frame (m m' : Machine σ) : Prop where
  stack : m'.stack = m.stack
  held : ∀ id ∈ m.stack, m'.instances.get? id = m.instances.get? id
  grows : ∀ id, Kept m id → Kept m' id

namespace Frame

theorem refl (m : Machine σ) : Frame m m := ⟨rfl, fun _ _ => rfl, fun _ h => h⟩

theorem trans (h : Frame m m₁) (h' : Frame m₁ m') : Frame m m' where
  stack := h'.stack.trans h.stack
  held id hid := (h'.held id (h.stack ▸ hid)).trans (h.held id hid)
  grows id hid := h'.grows id (h.grows id hid)

theorem state (m : Machine σ) (state : σ) : Frame m { m with state } :=
  ⟨rfl, fun _ _ => rfl, fun _ h => h⟩

/-- Work on behalf of a service leaves what it found. -/
theorem enclosed (h : Frame (m.push id) m') : Frame m m'.pop where
  stack := by rw [Machine.pop, h.stack, Machine.push, List.dropLast_concat]
  held x hx := h.held x (List.mem_append_left _ hx)
  grows := h.grows

theorem keep (free : id ∉ m.stack) (v : Value) : Frame m (m.keep id v) where
  stack := rfl
  held x hx := by
    rw [Machine.keep, Table.get?_put, if_neg]
    rintro rfl
    exact free hx
  grows x := fun ⟨w, hw⟩ => by
    unfold Kept
    rw [Machine.keep, Table.get?_put]
    split
    · exact ⟨v, rfl⟩
    · exact ⟨w, hw⟩

end Frame

theorem kept_keep {x : String} {v : Value} : Kept (m.keep id v) x ↔ x = id ∨ Kept m x := by
  unfold Kept
  rw [Machine.keep, Table.get?_put]
  by_cases same : x = id
  · simp [same]
  · simp [same]

/-- What has been constructed was not under construction. -/
theorem Ran.free (h : Ran c app self room (.value (.inline plan)) m (.ok vs) m') :
    plan.id ∉ m.stack := by
  generalize hr : (Except.ok vs : Except Failure (List Value)) = q at h
  cases h with
  | barred => cases hr
  | unready => cases hr
  | called free _ _ => exact free

/-- All work keeps to its frame. -/
theorem Ran.frame (h : Ran c app self room task m r m') : Frame m m' := by
  induction h with
  | next _ _ ih₁ ih₂ => exact ih₁.trans ih₂
  | first _ ih | service _ ih | collection _ ih | skip _ _ ih | cold _ _ _ _ ih
  | unprepared _ _ _ ih | meanwhile _ _ _ _ _ _ ih => exact ih
  | unready _ _ ih => exact ih.enclosed
  | called _ _ _ ih₁ ih₂ => exact (ih₁.trans ((Frame.state _ _).trans ih₂)).enclosed
  | finish => exact .state _ _
  | demand _ _ ih₁ ih₂ => exact ((Frame.state _ _).trans ih₁).trans ih₂
  | warm _ _ _ ran _ ih₁ ih₂ => exact (ih₁.trans (.keep (ih₁.stack ▸ ran.free) _)).trans ih₂
  | built _ _ _ _ _ ran ih₁ ih₂ =>
    have frame := ih₁.trans ih₂
    exact frame.trans (.keep (ih₂.stack ▸ ran.free) _)
  | broken _ _ _ _ _ _ ih₁ ih₂ | fresh _ _ _ _ ih₁ ih₂ => exact ih₁.trans ih₂
  | nothing | literal | handle | barred | ahead | deep | unknown | kept => exact .refl _

/-- No product of a service is kept by its own construction. -/
theorem Ran.unchanged (h : Ran c app self room (.value (.inline plan)) m r m') :
    m'.instances.get? plan.id = m.instances.get? plan.id := by
  have top {m : Machine σ} : plan.id ∈ (m.push plan.id).stack :=
    List.mem_append_right _ (List.mem_singleton.2 rfl)
  cases h with
  | barred => rfl
  | unready _ ran => exact ran.frame.held _ top
  | called _ ran call => exact (ran.frame.trans ((Frame.state _ _).trans call.frame)).held _ top

/-! ## What is kept together -/

/-- All shared services are kept that a service leads to, and the service itself if it is shared. -/
def Stocked (c : Container) (m : Machine σ) (id : String) : Prop :=
  ∀ b plan, Walk.Reaches (ServicePlan.dependenciesOf c.plans) id b → c.plan? b = some plan →
    plan.isShared = true → Kept m b

/-- With a service all shared services are kept that it leads to. -/
def Upheld (c : Container) (m : Machine σ) : Prop := ∀ id, Kept m id → Stocked c m id

theorem upheld_start {m : Machine σ} (h : m.instances = []) : Upheld c m := by
  rintro id ⟨v, hv⟩
  rw [h] at hv
  cases hv

theorem Stocked.mono (h : Stocked c m id) (frame : Frame m m') : Stocked c m' id :=
  fun b plan path hp shared => frame.grows b (h b plan path hp shared)

/-- The services that a task needs at once. -/
def Task.needs : Task σ → List String
  | .evaluate bs => bs.flatMap Binding.eager
  | .value b => b.eager
  | .resolve id => [id]
  | _ => []

/-- What a plan needs at once is what its service depends on. -/
theorem Frozen.mem_dependencies (h : Frozen f lockMode privateIds c)
    (hp : c.plan? id = some plan) {t : String} :
    t ∈ ServicePlan.dependenciesOf c.plans id ↔ t ∈ (Binding.inline plan).eager := by
  obtain ⟨d, -, planned⟩ := PlansOf.exists_definition h.plans hp
  unfold plan? at hp
  rw [ServicePlan.dependenciesOf, hp, Option.map_some, Option.getD_some, planned.dependencies_eq,
    List.mem_eraseDups, Binding.reads_eager.inline]

theorem id_of_plan? (hp : c.plan? id = some plan) : plan.id = id := by
  simpa using List.find?_some hp

/-- A service leads to what its plan needs at once leads to. -/
theorem stocked_of_needs (h : Frozen f lockMode privateIds c) (hp : c.plan? id = some plan)
    (self : plan.isShared = true → Kept m id)
    (needs : ∀ t ∈ (Binding.inline plan).eager, Stocked c m t) : Stocked c m id := by
  intro b other path hb shared
  rcases Relation.ReflTransGen.cases_head path with rfl | ⟨t, ht, path⟩
  · obtain rfl := Option.some.inj (hp.symm.trans hb)
    exact self shared
  · exact needs t ((h.mem_dependencies hp).1 ht) b other path hb shared

/-- A product is kept once all that its service needs is there. -/
theorem Upheld.keep (h : Frozen f lockMode privateIds c) (up : Upheld c m)
    (hp : c.plan? id = some plan) (needs : ∀ t ∈ (Binding.inline plan).eager, Stocked c m t)
    (v : Value) : Upheld c (m.keep id v) := by
  have grown {x : String} (hx : Stocked c m x) : Stocked c (m.keep id v) x :=
    fun b other path hb shared => kept_keep.2 (.inr (hx b other path hb shared))
  intro x hx
  rcases kept_keep.1 hx with rfl | hx
  · exact stocked_of_needs h hp (fun _ => kept_keep.2 (.inl rfl)) fun t ht => grown (needs t ht)
  · exact grown (up x hx)

/-- All work upholds what is kept together, and what a task needs is kept when it is done. -/
theorem Ran.upheld (frozen : Frozen f lockMode privateIds c) (h : Ran c app self room task m r m')
    (up : Upheld c m) :
    Upheld c m' ∧ ∀ vs, r = .ok vs → ∀ t ∈ task.needs, Stocked c m' t := by
  -- tasks that need nothing by themselves
  have idle {m : Machine σ} {r : Except Failure (List Value)} (up : Upheld c m) :
      Upheld c m ∧ ∀ vs, r = .ok vs → ∀ t ∈ ([] : List String), Stocked c m t :=
    ⟨up, fun _ _ _ ht => nomatch ht⟩
  -- tasks that fail
  have failed {m : Machine σ} {e : Failure} {needs : List String} (up : Upheld c m) :
      Upheld c m ∧ ∀ vs, (.error e : Except Failure (List Value)) = .ok vs → ∀ t ∈ needs,
        Stocked c m t := ⟨up, fun _ h => nomatch h⟩
  -- a shared service is built
  have built {plan : ServicePlan} {id : String} {m' : Machine σ} {v : Value}
      (hp : c.plan? id = some plan)
      (done : Upheld c m' ∧ ∀ vs, (.ok [v] : Except Failure (List Value)) = .ok vs →
        ∀ t ∈ (Task.value (σ := σ) (.inline plan)).needs, Stocked c m' t) :
      Upheld c (m'.keep plan.id v) := by
    obtain rfl := id_of_plan? hp
    exact done.1.keep frozen hp (done.2 _ rfl) v
  induction h with
  | nothing | literal | handle | ahead => exact idle up
  | first _ ih => exact failed (ih up).1
  | next _ ran ih₁ ih₂ =>
    obtain ⟨up₁, done₁⟩ := ih₁ up
    obtain ⟨up₂, done₂⟩ := ih₂ up₁
    refine ⟨up₂, fun vs e t ht => ?_⟩
    obtain ⟨ws, rfl, -⟩ := map_eq_ok.1 e
    rw [Task.needs, List.flatMap_cons, List.mem_append] at ht
    rcases ht with ht | ht
    · exact (done₁ _ rfl t ht).mono ran.frame
    · exact done₂ _ rfl t ht
  | service _ ih => exact ih up
  | collection _ ih =>
    obtain ⟨up', done⟩ := ih up
    refine ⟨up', fun vs e t ht => ?_⟩
    obtain ⟨ws, rfl, -⟩ := map_eq_ok.1 e
    rw [Task.needs, Binding.reads_eager.collection] at ht
    exact done _ rfl t ht
  | barred => exact failed up
  | unready _ _ ih => exact failed (ih up).1
  | called _ _ call ih₁ ih₂ =>
    obtain ⟨up₁, done₁⟩ := ih₁ up
    obtain ⟨up₂, -⟩ := ih₂ up₁
    refine ⟨up₂, fun _ _ t ht => ?_⟩
    rw [Task.needs, Binding.reads_eager.inline] at ht
    have stocked := (done₁ _ rfl t ht).mono ((Frame.state _ _).trans call.frame)
    exact stocked
  | finish => exact idle up
  | demand _ _ ih₁ ih₂ => exact ih₂ (ih₁ up).1
  | skip _ _ ih => exact ih up
  | warm hp _ _ _ _ ih₁ ih₂ => exact ih₂ (built hp (ih₁ up))
  | cold _ _ _ _ ih => exact failed (ih up).1
  | deep | unknown => exact failed up
  | @kept _ id plan _ v hp _ found =>
    obtain rfl := id_of_plan? hp
    exact ⟨up, fun _ _ t ht => List.mem_singleton.1 ht ▸ up _ ⟨v, found⟩⟩
  | unprepared _ _ _ ih => exact failed (ih up).1
  | @meanwhile _ id plan _ _ v _ hp _ _ _ _ found ih =>
    obtain rfl := id_of_plan? hp
    have up' := (ih up).1
    exact ⟨up', fun _ _ t ht => List.mem_singleton.1 ht ▸ up' _ ⟨v, found⟩⟩
  | built hp _ _ _ _ _ ih₁ ih₂ =>
    have up' := built hp (ih₂ (ih₁ up).1)
    refine ⟨up', fun _ _ t ht => List.mem_singleton.1 ht ▸ up' _ (kept_keep.2 (.inl ?_))⟩
    exact (id_of_plan? hp).symm
  | broken _ _ _ _ _ _ ih₁ ih₂ => exact failed (ih₂ (ih₁ up).1).1
  | fresh hp single _ _ ih₁ ih₂ =>
    obtain ⟨up', done⟩ := ih₂ (ih₁ up).1
    refine ⟨up', fun vs e t ht => List.mem_singleton.1 ht ▸ ?_⟩
    exact stocked_of_needs frozen hp (fun shared => nomatch single.symm.trans shared) (done vs e)

/-! ## What is done ahead -/

/-- Nothing that is done ahead for a service ends with a product of it. -/
theorem Ran.unkept (frozen : Frozen f lockMode privateIds c) {ids : List String} {a : String}
    (h : Ran c app self room (.prewarm ids) m (.ok vs) m') (up : Upheld c m)
    (below : ∀ x ∈ ids, x ≠ a ∧ Walk.Reaches (ServicePlan.dependenciesOf c.plans) a x)
    (absent : ¬ Kept m a) : ¬ Kept m' a := by
  induction ids generalizing m with
  | nil =>
    cases h
    exact absent
  | cons x xs ih =>
    have rest : ∀ y ∈ xs, y ≠ a ∧ Walk.Reaches (ServicePlan.dependenciesOf c.plans) a y :=
      fun y hy => below y (List.mem_cons_of_mem x hy)
    cases h with
    | skip _ ran => exact ih ran up rest absent
    | @warm _ _ _ plan _ m₁ _ v _ hp shared new ran later =>
      obtain rfl := id_of_plan? hp
      obtain ⟨ne, path⟩ := below plan.id List.mem_cons_self
      obtain ⟨up₁, done⟩ := ran.upheld frozen up
      have still : ¬ Kept m₁ plan.id := not_kept.2 (ran.unchanged.trans new)
      refine ih later (up₁.keep frozen hp (done _ rfl) v) rest fun kept => ?_
      rcases kept_keep.1 kept with same | kept
      · exact ne same.symm
      · exact still (up₁ a kept plan.id plan path hp shared)

/-- What comes before a service in its construction order is what it leads to. -/
theorem Frozen.mem_before (frozen : Frozen f lockMode privateIds c)
    (hp : c.plan? id = some plan) {x : String} (hx : x ∈ (c.orderOf id).dropLast) :
    x ≠ id ∧ ∃ t ∈ ServicePlan.dependenciesOf c.plans id,
      Walk.Reaches (ServicePlan.dependenciesOf c.plans) t x := by
  obtain ⟨d, hd, -⟩ := PlansOf.exists_definition frozen.plans hp
  have some : c.plans ≠ [] := List.ne_nil_of_mem (List.mem_of_find?_eq_some hp)
  rw [frozen.orderOf_eq (mem_ids.2 ⟨d, mem_of_find? hd⟩)] at hx
  obtain ⟨before, order, new, path⟩ := ServicePlan.order_eq some
  rw [order, List.dropLast_concat] at hx
  exact ⟨ne_of_mem_of_not_mem hx new, path x hx⟩

/-- Before a service is constructed it is as it was found. -/
theorem Ran.unkept_ahead (frozen : Frozen f lockMode privateIds c) (hp : c.plan? id = some plan)
    (h : Ran c app self room (.prewarm (c.orderOf id).dropLast) m (.ok vs) m') (up : Upheld c m)
    (absent : ¬ Kept m id) : ¬ Kept m' id := by
  refine h.unkept frozen up (fun x hx => ?_) absent
  obtain ⟨ne, t, ht, path⟩ := frozen.mem_before hp hx
  exact ⟨ne, .head ht path⟩

end Wiring.Container
