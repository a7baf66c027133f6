import Wiring.Proofs.Builder.Cycles
import Wiring.Proofs.Container.Diary
import Wiring.Proofs.Container.Requests

/-!
# Construction follows the construction order

However full the container is, a request calls the factories of the shared services of the
construction order that are not kept, in that order and each once, as long as no factory fails or
asks for anything. That holds where plans have names of their own; a recipe made by hand can have
the name of the service that it is embedded in, and then nothing is called at all.
-/

namespace Wiring

open Graph Container

variable {g : Graph} {c : Container} {rules : List TagRule} {lockMode : LockMode}

namespace Graph

/-- The plans that are made of a registered graph have names of their own. -/
theorem distinct_of_compile (registered : g.Registered) (sound : TagIndex.Sound rules)
    (h : g.compile rules lockMode = .ok c) : c.Distinct := by
  obtain ⟨p, f, compiled, -, frozen⟩ := compiled_of_compile registered sound h
  have hs := compiled.isSealed
  have hf := compiled.embedding.toSealed hs compiled.flat
  have laid := compiled.embedding.laid hs compiled.flat frozen
  have acyclic (a : String) : ¬ Relation.TransGen (p.Arc false) a a := fun path => by
    obtain ⟨b, arc, back⟩ := Relation.TransGen.head'_iff.1 path
    exact hs.cycles a b arc (depends_of_eager back)
  refine ⟨fun id plan hp x made => ?_, laid.loopFree acyclic⟩
  obtain ⟨d, hd, planned⟩ := PlansOf.exists_definition frozen.plans hp
  obtain ⟨hmem, rfl⟩ := mem_of_find? hd
  have sole := frozen.sole compiled.embedding hs.unique hf hmem planned hp
  cases hx : c.plan? x with
  | none => rfl
  | some other =>
    -- a service in the place of an argument would be made twice
    obtain rfl := id_of_plan? hx
    have own : other.id = plan.id := sole.alone other.id
      (by rw [ServicePlan.made_eq]; exact List.mem_cons_of_mem _ made) _ other hx other.id_mem_made
    have nodup := sole.nodup
    rw [ServicePlan.made_eq, List.nodup_cons] at nodup
    exact absurd (own ▸ made) nodup.1

/-- In a container whose plans have names of their own, a request during which no factory fails or
asks for anything is answered. Of the shared services it calls the factories of those that come in
the construction order and are not kept yet, in that order; whatever it calls is made for a service
in the construction order. The plans that are made of a registered graph have names of their own. -/
theorem compile_sequence {σ : Type} (h : g.compile rules lockMode = .ok c) (app : Application σ)
    (self : Nat) {after : Except Failure Value → σ × Diary → σ × Diary → Prop} {s : σ × Diary}
    {m m' : Machine (σ × Diary)} {id : String} {q : Except Failure Value}
    (served : c.Serves app.watched self after { state := s } m) (listed : id ∈ c.serviceIds)
    (ends : Ends (c.get app.watched self id) m q m')
    (quiet : m'.state.2.unrest = m.state.2.unrest) :
    (g.Registered → TagIndex.Sound rules → c.Distinct) ∧
      (c.Distinct → ∃ v order new, q = .ok v ∧ c.resolutionOrder id = .ok order ∧ order.Nodup ∧
        m'.state.2.called = m.state.2.called ++ new ∧
        new.filter c.shares = order.filter (c.awaits m) ∧
        ∀ x ∈ new, ∃ y ∈ order, ∃ plan, c.plan? y = some plan ∧ x ∈ plan.made) := by
  refine ⟨fun registered sound => distinct_of_compile registered sound h, fun distinct => ?_⟩
  obtain ⟨_, f, _, _, _, frozen⟩ := compile_ok h
  have frozen := freeze_eq_ok.1 frozen
  obtain ⟨settled, -⟩ := served.settled frozen (.start s)
  obtain ⟨target, plan, hp, order, same⟩ := (frozen.accepts listed).fetched
  rw [same] at ends
  obtain ⟨rank, bound, falling⟩ := distinct.exists_ranks frozen
  -- nothing is under construction, and there is room for all ranks
  have below := bound target plan hp
  have free : Open rank (c.planCount + 1) m (rank target) := by
    refine ⟨fun x hx => ?_, Nat.le_of_lt (Nat.lt_succ_of_lt below)⟩
    rw [settled.idle] at hx
    cases hx
  obtain ⟨new, orderly⟩ := Ran.orderly frozen distinct falling (ran_deferredGet ends)
    ⟨free, Nat.lt_succ_of_lt below, plan, hp⟩ settled.upheld trivial quiet
  obtain ⟨vs, answered⟩ := orderly.answered
  obtain ⟨v, rfl, -⟩ := map_eq_ok.1 answered
  refine ⟨v, _, new, rfl, order, frozen.orderOf_nodup hp, orderly.called, orderly.order,
    fun x hx => ?_⟩
  obtain ⟨y, other, path, hy, made⟩ := orderly.covered x hx
  obtain ⟨d, hd, -⟩ := PlansOf.exists_definition frozen.plans hp
  refine ⟨y, ?_, other, hy, made⟩
  rw [frozen.mem_orderOf (mem_ids.2 ⟨d, mem_of_find? hd⟩), ← frozen.reaches_iff]
  exact path

/-! ## A cake and its oven -/

/-- A cake of dough and icing. The dough needs the oven that the cake is baked in, and is made anew
each time. The icing is for this cake alone. The taster is asked in no earlier than the cake is
there. -/
def bakery : Graph where
  definitions := [
    { id := "cake", factory := some (.simple "Cake")
      arguments := [.reference ⟨"dough", false, false⟩, .reference ⟨"icing", false, false⟩,
        .reference ⟨"oven", false, false⟩, .reference ⟨"taster", false, true⟩] },
    { id := "dough", factory := some (.simple "Dough"), isShared := false
      arguments := [.reference ⟨"oven", false, false⟩] },
    { id := "icing", factory := some (.simple "Icing"), isPublic := false },
    { id := "oven", factory := some (.simple "Oven") },
    { id := "taster", factory := some (.simple "Taster") }]

theorem bakery_registered : bakery.Registered where
  unique := by decide
  uniqueAliases := by decide
  apart := by decide
  labels := by simp [bakery]
  alone := rfl
  declared := by simp [Holds, bakery, Recipe.allArguments, Argument.isDeclared]

/-- What comes of a request to the container of a graph whose factories do nothing, and what is
written down meanwhile. -/
def diaryOf (g : Graph) (id : String) : Option (Except Failure Value × Diary) :=
  match g.compile [] .thread with
  | .ok c => match c.get Application.idle.watched 0 id { state := ((), {}) } with
    | .ok v m => some (.ok v, m.state.2)
    | .error e m => some (.error e, m.state.2)
  | .error _ => none

theorem exists_diary {id : String} {q : Except Failure Value} {d : Diary}
    (h : g.diaryOf id = some (q, d)) : ∃ c m, g.compile [] .thread = .ok c ∧
      Ends (c.get Application.idle.watched 0 id) { state := ((), {}) } q m ∧ m.state.2 = d := by
  unfold diaryOf at h
  split at h
  next c hc =>
    split at h
    all_goals
      next v m hm =>
        obtain ⟨rfl, rfl⟩ := Prod.mk.inj (Option.some.inj h)
        exact ⟨c, m, hc, hm, rfl⟩
  · cases h

/-- For the cake the oven is built ahead. The dough and the icing are made on the way. -/
theorem compile_sequence_bakery : ∃ c m, bakery.compile [] .thread = .ok c ∧
    Ends (c.get Application.idle.watched 0 "cake") { state := ((), {}) } (.ok .null) m ∧
    m.state.2.called = ["oven", "dough", "icing", "cake"] ∧ c.Distinct ∧
    ∃ order new, c.resolutionOrder "cake" = .ok order ∧ m.state.2.called = [] ++ new ∧
      new.filter c.shares =
        order.filter (c.awaits { state := ((), ({} : Diary)) }) := by
  have written : bakery.diaryOf "cake" =
      some (.ok .null, ⟨"cake", ["oven", "dough", "icing", "cake"], 0⟩) := by cbv
  have listed : ((bakery.compile [] .thread).toOption.any
      fun c => c.serviceIds.contains "cake") = true := by cbv
  obtain ⟨c, m, h, ends, written⟩ := exists_diary written
  rw [h] at listed
  have served : c.Serves Application.idle.watched 0 (fun _ _ _ => True)
    { state := ((), {}) } { state := ((), {}) } := .start
  obtain ⟨named, law⟩ := compile_sequence h Application.idle 0 served
    (by simpa [Except.toOption] using listed) ends (by rw [written])
  have distinct := named bakery_registered TagIndex.sound_nil
  obtain ⟨_, order, new, -, ordered, -, called, filtered, -⟩ := law distinct
  exact ⟨c, m, h, ends, by rw [written], distinct, order, new, ordered, called, filtered⟩

/-- A service that holds a recipe of its own name is the one service in its construction order, but
it is found within itself before anything is called. No factory fails or asks for anything. -/
theorem nothing_called : ∃ c m, nested.compile [] .thread = .ok c ∧ "a" ∈ c.serviceIds ∧
    c.resolutionOrder "a" = .ok ["a"] ∧ c.shares "a" = true ∧
    Ends (c.get Application.idle.watched 0 "a") { state := ((), {}) }
      (.error (circular ["a"] "a")) m ∧
    m.state.2.unrest = 0 ∧ m.state.2.called = [] := by
  have written : nested.diaryOf "a" = some (.error (circular ["a"] "a"), {}) := by cbv
  have read : ((nested.compile [] .thread).map fun c => (c.serviceIds, c.orderOf "a",
      c.shares "a")) = .ok (["a"], ["a"], true) := by cbv
  have fetched : ((nested.compile [] .thread).bind fun c => c.publicTarget "a") = .ok "a" := by cbv
  obtain ⟨c, m, h, ends, written⟩ := exists_diary written
  rw [h] at read fetched
  obtain ⟨ids, order, shared⟩ :
      c.serviceIds = ["a"] ∧ c.orderOf "a" = ["a"] ∧ c.shares "a" = true := by
    simpa [Except.map] using read
  have target : c.publicTarget "a" = .ok "a" := fetched
  refine ⟨c, m, h, ids ▸ List.mem_cons_self, ?_, shared, ends, by rw [written], by rw [written]⟩
  rw [resolutionOrder, target, ok_bind, order]
  rfl

end Graph

end Wiring
