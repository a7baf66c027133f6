import Wiring.Proofs.Container.Requirements
import Wiring.Proofs.Graph.Validation

/-!
# Circles of dependencies

Heights are measured down chains of dependencies. The chain that is being measured grows by
services that are not on it, so it ends; where a service of the chain is met again, measuring fails.
That is so if and only if some service leads back to itself. The failure names the service that met
the other, the other, and the first once more, whatever lies between them on the way back.
-/

namespace Wiring

namespace ServicePlan

variable {next : String → List String} {heights heights' : Heights} {depth : Nat}
  {id a b : String} {chain U : List String} {plans : List ServicePlan}

/-! ## Heights that cannot be measured -/

/-- The failure names a service, a dependency of it that leads back to it, and the service again. -/
def Crossed (next : String → List String) (e : Failure) : Prop :=
  ∃ a b, e = .fault (.circularServices [a, b, a]) none ∧ b ∈ next a ∧ Walk.Reaches next b a

/-- What is open stays open while another height is measured. -/
theorem measure_leaves_open (still : Table.get? heights a = some none)
    (fresh : Table.get? heights id = none) (h : measure next depth id heights = .ok heights') :
    Table.get? heights' a = some none := by
  induction depth generalizing id heights heights' with
  | zero => cases h
  | succ depth ih =>
    have other : a ≠ id := fun e => by
      rw [e, fresh] at still
      cases still
    obtain ⟨hs, fold, rfl⟩ := measure_eq_ok.1 h
    rw [Table.get?_put, if_neg other]
    refine foldlM_ok_induct (fun hs => Table.get? hs a = some none) fold
      (by rwa [Table.get?_put, if_neg other]) fun d _ hs₁ hs₂ inv step => ?_
    unfold takeIn at step
    cases hd : Table.get? hs₁ d with
    | none =>
      rw [hd] at step
      exact ih inv hd step
    | some found =>
      rw [hd] at step
      cases found with
      | none => cases step
      | some n => exact Except.ok.inj step ▸ inv

/-- The services that are open are those of the chain that is being measured. -/
def OpenAre (chain : List String) (heights : Heights) : Prop :=
  ∀ a, Table.get? heights a = some none ↔ a ∈ chain

theorem OpenAre.put (h : OpenAre chain heights) :
    OpenAre (chain ++ [id]) (Table.put heights id none) := fun a => by
  rw [Table.get?_put, List.mem_append, List.mem_singleton, ← h a]
  split
  next e => simp [e]
  next ne => simp [ne]

theorem OpenAre.measure (h : OpenAre chain heights) (fresh : Table.get? heights id = none)
    (run : measure next depth id heights = .ok heights') : OpenAre chain heights' := fun a =>
  ⟨fun still => (h a).1 ((measure_gives fresh run).1.settles a still),
    fun there => measure_leaves_open ((h a).2 there) fresh run⟩

/-- Where services of the chain lead to the one that is measured next, measuring fails only by
meeting one of them. The chain does not outgrow the services there are. -/
theorem measure_fails (closed : ∀ a ∈ U, ∀ b ∈ next a, b ∈ U) (there : id ∈ U)
    (nodup : chain.Nodup) (inside : chain ⊆ U) (enough : U.length ≤ depth + chain.length)
    (fresh : Table.get? heights id = none) (open_ : OpenAre chain heights)
    (led : ∀ a ∈ chain, Walk.Reaches next a id) :
    FailsBy (Crossed next) (measure next depth id heights) := by
  have new : id ∉ chain := fun hid => by
    rw [(open_ id).2 hid] at fresh
    cases fresh
  induction depth generalizing id heights chain with
  | zero =>
    have few := length_lt_of_push nodup inside new there
    omega
  | succ depth ih =>
    have led' : ∀ a ∈ chain ++ [id], Walk.Reaches next a id := fun a ha => by
      rcases List.mem_append.1 ha with ha | ha
      · exact led a ha
      · exact List.mem_singleton.1 ha ▸ .refl
    refine .bind (.foldlM_of (OpenAre (chain ++ [id])) open_.put fun d hd hs open_ => ?_)
      fun _ _ => .ok _
    cases hg : Table.get? hs d with
    | none =>
      refine ⟨?_, fun hs' run => open_.measure hg run⟩
      refine ih (closed id there d hd) (nodup_push nodup new) (push_subset inside there) ?_ hg open_
        (fun a ha => (led' a ha).tail hd) ?_
      · rw [List.length_append, List.length_singleton]
        omega
      · intro again
        rw [(open_ d).2 again] at hg
        cases hg
    | some found =>
      cases found with
      | some n => exact ⟨.ok hs, fun hs' run => Except.ok.inj run ▸ open_⟩
      | none =>
        have met := led' d ((open_ d).1 hg)
        exact ⟨.error ⟨id, d, rfl, hd, met⟩, fun hs' run => nomatch run⟩

/-- Heights are missing only where a service leads back to itself. -/
theorem heights_fails
    (inside : ∀ a ∈ planned plans, ∀ b ∈ dependenciesOf plans a, b ∈ planned plans) :
    FailsBy (Crossed (dependenciesOf plans)) (ServicePlan.heights plans) := by
  have start : OpenAre [] ([] : Heights) := fun a => by simp [Table.get?]
  refine .bind (.foldlM_of (OpenAre []) start fun a ha hs none => ?_) fun _ _ => .ok _
  split
  · exact ⟨.ok hs, fun hs' run => Except.ok.inj run ▸ none⟩
  next new =>
    rw [Table.has_eq_isSome, Option.isSome_iff_ne_none, not_not] at new
    refine ⟨?_, fun hs' run => none.measure new run⟩
    exact measure_fails inside ha .nil (List.nil_subset _) (by simp [planned]) new none (by simp)

/-- Heights are measured if and only if no service leads back to itself. -/
theorem heights_ok_iff
    (inside : ∀ a ∈ planned plans, ∀ b ∈ dependenciesOf plans a, b ∈ planned plans) :
    (∃ found, ServicePlan.heights plans = .ok found) ↔
      ¬ ∃ id, Relation.TransGen (fun a b => b ∈ dependenciesOf plans a) id id := by
  constructor
  · rintro ⟨found, h⟩ ⟨id, loop⟩
    exact heights_acyclic h loop
  · intro none
    cases h : ServicePlan.heights plans with
    | ok found => exact ⟨found, rfl⟩
    | error e =>
      obtain ⟨a, b, -, hb, back⟩ := heights_fails inside e h
      exact absurd ⟨a, .head' hb back⟩ none

end ServicePlan

/-! ## Copies -/

open Graph (Uncircular)

theorem Argument.accept_uncircular {service : String} {a : Argument} :
    FailsBy Uncircular (accept service a) := by
  unfold accept
  split
  · split
    · exact .ok _
    · exact .error fun cycle phase same => by cases same
  · exact .ok _

theorem Label.accept_uncircular {service : String} {l : Label} :
    FailsBy Uncircular (accept service l) := by
  have refused (v : Value) : Uncircular (.refused (.tag service v)) :=
    fun cycle phase same => by cases same
  unfold accept
  split
  · exact .ok _
  · split
    · exact .error (refused _)
    · exact .ok _
  · exact .error (refused _)

/-- A recipe is copied where it is embedded. -/
theorem Argument.copy_inlined (m : Nat) (r : Recipe Argument) :
    copy (.inlined m r) = (Definition.copy r).map (.inlined m) := by
  unfold Definition.copy
  rw [copy]
  cases copyAll r.arguments with
  | error e => rfl
  | ok arguments =>
    cases copyNamed r.keywords with
    | error e => rfl
    | ok keywords =>
      simp only [ok_bind]
      cases arguments.mapM (accept r.id) with
      | error e => rfl
      | ok arguments =>
        cases acceptNamed r.id keywords with
        | error e => rfl
        | ok keywords => cases r.tags.mapM (Label.accept r.id) <;> rfl

theorem Definition.copy_uncircular {d : Definition} : FailsBy Uncircular (copy d) := by
  induction d using Definition.induct with
  | step d ih =>
    have each : ∀ a ∈ d.allArguments, FailsBy Uncircular (Argument.copy a) := fun a ha => by
      cases a with
      | inlined m r =>
        rw [Argument.copy_inlined]
        exact (ih m r ha).map
      | _ => exact .ok _
    unfold copy
    rw [copyAll_eq, copyNamed_eq]
    refine .bind (.mapM fun a ha => each a (List.mem_append_left _ ha)) fun _ _ => ?_
    refine .bind (.mapM fun k hk => .bind (each k.2 ?_) fun _ _ => .ok _) fun _ _ => ?_
    · exact List.mem_append_right _ (List.mem_map_of_mem hk)
    refine .bind (.mapM fun a _ => Argument.accept_uncircular) fun _ _ => ?_
    refine .bind (.mapM fun k _ => Argument.accept_uncircular.map) fun _ _ => ?_
    exact .bind (.mapM fun l _ => Label.accept_uncircular) fun _ _ => .ok _

/-! ## Containers that cannot be made -/

namespace Container

open Graph ServicePlan

variable {g : Graph} {plans : List ServicePlan} {lockMode : LockMode} {privateIds : List String}
  {cycle : List String} {phase : Option Phase}

theorem buildLocks_uncircular : FailsBy Uncircular (buildLocks g plans lockMode) := by
  cases lockMode with
  | unguarded => exact .ok []
  | thread => exact .bind edges_uncircular fun _ _ => .ok _

theorem bind_circular {α β : Type} {x : Except Failure α} {f : α → Except Failure β}
    (h : FailsBy Uncircular x) :
    x >>= f = .error (.fault (.circularServices cycle) phase) ↔
      ∃ a, x = .ok a ∧ f a = .error (.fault (.circularServices cycle) phase) := by
  cases x with
  | ok a => simp [ok_bind]
  | error e =>
    refine iff_of_false (fun same => h e rfl cycle phase ?_) (by simp)
    exact Except.error.inj same

/-- A container fails for a circle as the heights do, which are measured after aliases are followed
and the graph is copied. -/
theorem freeze_error_iff (planned : g.definitions.mapM g.plan = .ok plans) :
    freeze g lockMode privateIds = .error (.fault (.circularServices cycle) phase) ↔
      (∀ x ∈ g.aliases, ∃ target, g.resolveAliasStrict x.id = .ok target) ∧
      (∃ copied, g.copy = .ok copied) ∧
      ServicePlan.heights plans = .error (.fault (.circularServices cycle) phase) := by
  have followed : (∃ found : Table String, (g.aliases.mapM fun x => do
      return (x.id, ← g.resolveAliasStrict x.id)) = .ok found) ↔
      ∀ x ∈ g.aliases, ∃ target, g.resolveAliasStrict x.id = .ok target := by
    simp only [mapM_succeeds, bind_eq_ok, pure_eq_ok, exists_eq_right', exists_comm (α := _ × _)]
  have following : FailsBy Uncircular (g.aliases.mapM fun x => do
      return (x.id, ← g.resolveAliasStrict x.id)) :=
    .mapM fun x _ => .bind resolveAliasStrict_uncircular fun _ _ => .ok _
  have copying : FailsBy Uncircular g.copy :=
    .bind (.mapM fun d _ => Definition.copy_uncircular) fun _ _ => .ok _
  rw [← followed]
  unfold freeze
  rw [planned, ok_bind, bind_circular following]
  constructor
  · rintro ⟨found, aliases, rest⟩
    obtain ⟨copied, copies, rest⟩ := (bind_circular copying).1 rest
    refine ⟨⟨found, aliases⟩, ⟨copied, copies⟩, ?_⟩
    cases measured : ServicePlan.heights plans with
    | ok heights =>
      rw [measured, ok_bind] at rest
      obtain ⟨locks, -, done⟩ := (bind_circular buildLocks_uncircular).1 rest
      cases done
    | error e =>
      rw [measured] at rest
      exact congrArg _ (Except.error.inj rest)
  · rintro ⟨⟨found, aliases⟩, ⟨copied, copies⟩, failed⟩
    refine ⟨found, aliases, ?_⟩
    rw [copies, ok_bind, failed]
    rfl

/-- Where all services have plans, a container fails to be made for a circle if and only if its aliases
lead to services, its graph can be copied, and some service leads back to itself by what plans depend
on. The failure names a service `a`, a dependency `b` of it that leads back to it, and `a` again, so
what it names is a circle only if `a` is a dependency of `b`. -/
theorem freeze_circular (planned : g.definitions.mapM g.plan = .ok plans) :
    ((∃ cycle, freeze g lockMode privateIds = .error (.fault (.circularServices cycle) none)) ↔
      (∀ x ∈ g.aliases, ∃ target, g.resolveAliasStrict x.id = .ok target) ∧
      (∃ copied, g.copy = .ok copied) ∧
      ∃ id, Relation.TransGen (fun a b => b ∈ dependenciesOf plans a) id id) ∧
    ∀ cycle phase,
      freeze g lockMode privateIds = .error (.fault (.circularServices cycle) phase) →
      phase = none ∧ ∃ a b, cycle = [a, b, a] ∧ b ∈ dependenciesOf plans a ∧
        Relation.ReflTransGen (fun a b => b ∈ dependenciesOf plans a) b a ∧
        (cycle.IsChain (fun a b => b ∈ dependenciesOf plans a) ↔ a ∈ dependenciesOf plans b) := by
  have plansOf : PlansOf g plans := by simpa only [mapM_eq_ok, plan_eq_ok] using planned
  have inside : ∀ a ∈ ServicePlan.planned plans, ∀ b ∈ dependenciesOf plans a,
      b ∈ ServicePlan.planned plans := fun _ _ _ => plansOf.dependencies_planned
  simp only [freeze_error_iff planned]
  refine ⟨⟨?_, ?_⟩, ?_⟩
  · rintro ⟨cycle, followed, copied, failed⟩
    obtain ⟨a, b, -, hb, back⟩ := heights_fails inside _ failed
    exact ⟨followed, copied, a, .head' hb back⟩
  · rintro ⟨followed, copied, loop⟩
    cases measured : ServicePlan.heights plans with
    | ok found => exact absurd loop ((heights_ok_iff inside).1 ⟨found, measured⟩)
    | error e =>
      obtain ⟨a, b, rfl, -, -⟩ := heights_fails inside e measured
      exact ⟨_, followed, copied, rfl⟩
  · rintro cycle phase ⟨-, -, failed⟩
    obtain ⟨a, b, same, hb, back⟩ := heights_fails inside _ failed
    obtain ⟨named, rfl⟩ := Failure.fault.inj same
    obtain rfl := Fault.circularServices.inj named
    exact ⟨rfl, a, b, rfl, hb, back, by simp [hb]⟩

/-- A rock breaks scissors, scissors cut a sheet of paper, and paper covers the rock. -/
def game : Graph where
  definitions := [
    { id := "rock", factory := some (.simple "Rock")
      arguments := [.reference { id := "scissors" }] },
    { id := "scissors", factory := some (.simple "Scissors")
      arguments := [.reference { id := "sheet" }] },
    { id := "paper", factory := some (.simple "Paper")
      arguments := [.reference { id := "rock" }] }]
  aliases := [{ id := "sheet", target := "paper" }]

/-- The rock is reported between paper and paper, and paper is no dependency of the rock. -/
theorem freeze_circular_game : ∃ plans, game.definitions.mapM game.plan = .ok plans ∧
    ∃ cycle, freeze game .thread [] = .error (.fault (.circularServices cycle) none) ∧
      cycle = ["paper", "rock", "paper"] ∧
      ¬ cycle.IsChain (fun a b => b ∈ dependenciesOf plans a) := by
  have read : (game.definitions.mapM game.plan).map (fun plans => dependenciesOf plans "rock") =
      .ok ["scissors"] := by cbv
  have failed : freeze game .thread [] =
      .error (.fault (.circularServices ["paper", "rock", "paper"]) none) := by cbv
  obtain ⟨plans, planned, rock⟩ := map_eq_ok.1 read
  obtain ⟨-, a, b, same, -, -, chain⟩ := (freeze_circular planned).2 _ _ failed
  obtain ⟨rfl, rfl, -⟩ : a = "paper" ∧ b = "rock" ∧ a = "paper" := by simpa using same.symm
  exact ⟨plans, planned, _, failed, rfl, mt chain.1 (by rw [rock]; decide)⟩

end Container

end Wiring
