import Mathlib
import Wiring.Failure.Kind
import Wiring.Proofs.Builder.Compilation
import Wiring.Proofs.Container.Freezing
import Wiring.Proofs.Graph.Snapshot
import Wiring.Proofs.Pass.Failing
import Wiring.Proofs.Pass.Refusals

/-!
# What compilation fails with

A pipeline reports what its passes fail with, in their phases. On a registered graph this is a fault
with its phase, with two exceptions: a key that stands for a list or a dictionary, and a collection
of a private service that was embedded before one of its members could be.
-/

namespace Wiring

open Graph TagIndex Pass

variable {E : Failure → Prop} {b : Builtin} {phase : Phase} {rest : List (Builtin × Phase)}
  {index index₁ : TagIndex} {g g₁ : Graph} {d d' : Definition} {rules : List TagRule}

/-! ## Pipelines -/

/-- A failure as a pipeline reports it: what `E` admits, in a phase. -/
def Failure.Reported (E : Failure → Prop) (e : Failure) : Prop :=
  ∃ why phase, E why ∧ e = why.withPhase phase

/-- Passes that are run one after the other fail by `E`, however far they come. Those of the
validation phase get a stable graph and leave it as it is. -/
inductive Secure (E : Failure → Prop) : List (Builtin × Phase) → TagIndex → Graph → Prop
  | nil {index : TagIndex} {g : Graph} : Secure E [] index g
  | cons {b : Builtin} {phase : Phase} {rest : List (Builtin × Phase)} {index : TagIndex}
    {g : Graph} :
    (phase = .beforeRemoving → g.Stable ∧
      ∀ index₁ g₁, Build.Gives (b.run index) g index₁ g₁ → g₁ = g) →
    Build.FailsBy E (b.run index) g →
    (∀ index₁ g₁, Build.Gives (b.run index) g index₁ g₁ → Secure E rest index₁ g₁) →
      Secure E ((b, phase) :: rest) index g

namespace Secure

theorem split {bs cs : List (Builtin × Phase)} (h : Secure E (bs ++ cs) index g) :
    Secure E bs index g ∧
      ∀ index₁ g₁, Runs (bs.map (·.1)) index g index₁ g₁ → Secure E cs index₁ g₁ := by
  induction bs generalizing index g with
  | nil =>
    refine ⟨.nil, fun index₁ g₁ runs => ?_⟩
    cases runs
    exact h
  | cons b bs ih =>
    obtain - | ⟨stable, fails, next⟩ := h
    refine ⟨.cons stable fails fun index₁ g₁ run => (ih (next index₁ g₁ run)).1,
      fun index₁ g₁ runs => ?_⟩
    obtain - | ⟨run, runs⟩ := runs
    exact (ih (next _ _ run)).2 index₁ g₁ runs

/-- A pass that validates nothing, and leaves the index alone. -/
theorem job (ne : b ≠ .autoconfigure) (early : phase ≠ .beforeRemoving)
    (fails : Build.FailsBy E b.job g)
    (next : ∀ g₁, Build.Gives b.job g () g₁ → Secure E rest index g₁) :
    Secure E ((b, phase) :: rest) index g := by
  refine .cons (fun h => absurd h early) ?_ fun index₁ g₁ run => ?_
  · rw [Builtin.run_eq ne]
    exact .bind fails fun _ _ _ => .pure _
  · obtain ⟨job, rfl⟩ := Builtin.gives_job run ne
    exact next g₁ job

/-- A pass that validates. -/
theorem check {check : Graph → Except Failure Unit} (ne : b ≠ .autoconfigure)
    (same : b.job = Builtin.validate check) (stable : g.Stable) (fails : FailsBy E (check g))
    (next : check g = .ok () → Secure E rest index g) : Secure E ((b, phase) :: rest) index g := by
  have left {index₁ : TagIndex} {g₁ : Graph} (run : Build.Gives (b.run index) g index₁ g₁) :
      index₁ = index ∧ check g = .ok () ∧ g₁ = g := by
    obtain ⟨job, rfl⟩ := Builtin.gives_job run ne
    exact ⟨rfl, Builtin.gives_validate (same ▸ job)⟩
  refine .cons (fun _ => ⟨stable, fun index₁ g₁ run => (left run).2.2⟩) ?_ fun index₁ g₁ run => ?_
  · rw [Builtin.run_eq ne, same]
    exact .bind (.graph_bind (.check fails)) fun _ _ _ => .pure _
  · obtain ⟨rfl, accepted, rfl⟩ := left run
    exact next accepted

end Secure

namespace Workshop

variable {w : Workshop} {s : Scheduled Builtin}

theorem check_fails {σ α : Type} {x : Except Failure α} {s : σ} (h : FailsBy E x) :
    Run.FailsBy E (Pipeline.check x : Pipeline.Work σ α) s := by
  cases x with
  | ok a => exact .pure a
  | error e => exact .throw (h e rfl)

/-- A pass that fails by `E` is reported to fail so. -/
theorem runPass_fails (faults : ∀ e, e.IsFault → E e)
    (stable : s.phase = .beforeRemoving → w.working.Stable ∧
      ∀ index g, Build.Gives (s.pass.run w.index) w.working index g → g = w.working)
    (fails : Build.FailsBy E (s.pass.run w.index) w.working) :
    Run.FailsBy (Failure.Reported E) (Pipeline.runPass yard.host s .working) w := by
  refine .bind .modify fun _ w₁ start => ?_
  obtain rfl := Run.modify_ok.1 start
  refine .bind ?_ fun before w₂ taken => ?_
  · unfold Pipeline.snapshotBefore
    split
    next validation =>
      obtain ⟨⟨snapshot, taken, -⟩, -⟩ := stable validation
      refine .bind .get fun w₂ w₃ got => .bind (check_fails (.of_ok ⟨snapshot, ?_⟩)) fun _ _ _ => .pure _
      obtain ⟨rfl, rfl⟩ := Run.get_ok.1 got
      exact taken
    next => exact .pure none
  obtain ⟨rfl, when⟩ := snapshotBefore_ok.1 taken
  refine .bind (fun e w' failed => ?_) fun returned w₂ done => ?_
  · unfold Pipeline.inPhase at failed
    split at failed
    · cases failed
    next why w₂ run =>
      obtain ⟨rfl, -⟩ := EStateM.Result.error.inj failed
      refine ⟨why, s.phase, ?_, rfl⟩
      change perform s.pass .working _ = .error why w₂ at run
      unfold perform at run
      split at run
      · cases run
      next why' left run' =>
        obtain ⟨rfl, -⟩ := EStateM.Result.error.inj run
        exact fails _ _ _ run'
  · obtain ⟨rfl, left, run, left_eq⟩ := perform_ok (inPhase_ok.1 done)
    cases before with
    | none => exact .pure _
    | some before =>
      have validation : s.phase = .beforeRemoving := by
        by_contra other
        rw [if_neg other] at when
        cases when
      obtain ⟨⟨snapshot, stable, -⟩, leaves⟩ := stable validation
      have same : w₂.working = w.working := leaves w₂.index w₂.working ⟨_, left.notes, by
        rw [left_eq]
        exact run⟩
      refine .bind .get fun w₃ w₄ got => ?_
      obtain ⟨rfl, rfl⟩ := Run.get_ok.1 got
      refine .bind (check_fails (.of_ok ⟨snapshot, ?_⟩)) fun now _ _ => ?_
      · exact (congrArg Graph.snapshot same).trans stable
      · split
        · exact .bind (.throw ⟨_, s.phase, faults _ (Failure.isFault _ none), rfl⟩)
            fun _ _ _ => .pure _
        · exact .pure _

/-- Passes that fail by `E` wherever they come are reported to fail so. -/
theorem runPasses_fails (faults : ∀ e, e.IsFault → E e) {passes : List (Scheduled Builtin)}
    (secure : Secure E (passes.map fun s => (s.pass, s.phase)) w.index w.working) :
    Run.FailsBy (Failure.Reported E)
      (passes.foldlM (fun bench s => Pipeline.runPass yard.host s bench) .working) w := by
  induction passes generalizing w with
  | nil => exact .pure _
  | cons s passes ih =>
    obtain - | ⟨stable, fails, next⟩ := secure
    rw [List.foldlM_cons]
    refine .bind (runPass_fails faults (fun validation => ?_) fails) fun bench w₁ run => ?_
    · obtain ⟨stable, leaves⟩ := stable validation
      exact ⟨stable, leaves⟩
    · obtain ⟨rfl, -, gives⟩ := runPass_ok run
      exact ih (next _ _ gives)

/-- The pipeline that a builder starts with fails as its passes do. -/
theorem run_fails (faults : ∀ e, e.IsFault → E e) (builder : w.builder.pipeline = standard)
    (secure : Secure E (Builtin.schedule.map fun e => (e.1, e.2.1)) w.index w.working) :
    Run.FailsBy (Failure.Reported E) (Pipeline.run yard.host .working) w := by
  have phases (phases : List Phase) : ∀ {w : Workshop}, w.builder.pipeline = standard →
      Secure E (phases.flatMap fun phase =>
        (standard.ofPhase phase).map fun s => (s.pass, s.phase)) w.index w.working →
      Run.FailsBy (Failure.Reported E) (phases.foldlM (Pipeline.runPhase yard.host) .working) w := by
    induction phases with
    | nil => exact fun _ _ => .pure _
    | cons phase phases ih =>
      intro w builder secure
      rw [List.flatMap_cons] at secure
      obtain ⟨first, next⟩ := secure.split
      have same : yard.host.pipeline w = standard := builder
      rw [List.foldlM_cons]
      have phase_eq : Pipeline.runPhase yard.host .working phase w =
          (standard.ofPhase phase).foldlM (fun bench s => Pipeline.runPass yard.host s bench)
            .working w := by
        rw [Pipeline.runPhase, Run.get_bind, same]
      refine .bind (fun e w' failed => ?_) fun bench w₁ run => ?_
      · exact runPasses_fails faults first e w' (phase_eq ▸ failed)
      · obtain ⟨rfl, hb, runs⟩ := runPasses_ok rfl (phase_eq ▸ run)
        refine ih (hb ▸ builder) (next _ _ ?_)
        rwa [List.map_map]
  exact phases Phase.all builder (standard_schedule ▸ secure)

end Workshop

/-- A compilation fails as its passes do, if what they make of the registry can be frozen. -/
theorem Graph.compile_fails {source : Graph} {lockMode : LockMode} (copied : g.copy = .ok source)
    (faults : ∀ e, e.IsFault → E e)
    (secure : Secure E (Builtin.schedule.map fun e => (e.1, e.2.1)) { rules } source)
    (freezes : ∀ index f, Runs (Builtin.schedule.map (·.1)) { rules } source index f →
      ∃ c, Container.freeze f lockMode (Yard.privateIds source) = .ok c) :
    FailsBy (Failure.Reported E) (g.compile rules lockMode) := by
  have check_fails {α : Type} {x : Except Failure α} {w : Workshop} (h : ∃ a, x = .ok a) :
      Run.FailsBy (Failure.Reported E) (Yard.check x : Yard.Work Workshop α) w := by
    obtain ⟨a, rfl⟩ := h
    exact .pure a
  have whole : Run.FailsBy (Failure.Reported E) (Workshop.yard.compile 1)
      (workshop g rules lockMode) := by
    unfold Yard.compile
    refine .bind (fun e w failed => absurd (boots.symm.trans failed) (by simp)) fun _ w booted => ?_
    obtain ⟨-, rfl⟩ := EStateM.Result.ok.inj (boots.symm.trans booted)
    refine .bind .get fun w₁ w₂ got => ?_
    obtain ⟨rfl, rfl⟩ := Run.get_ok.1 got
    refine .bind .get fun w₁ w₂ got => ?_
    obtain ⟨rfl, rfl⟩ := Run.get_ok.1 got
    refine .bind (check_fails ⟨source, copied⟩) fun source' w₁ checked => ?_
    obtain ⟨copied', rfl⟩ := yard_check_ok.1 checked
    obtain rfl := Except.ok.inj (copied.symm.trans copied')
    refine .bind (fun e w' failed => by cases failed) fun bench w₁ allocated => ?_
    obtain ⟨rfl, rfl⟩ := EStateM.Result.ok.inj allocated
    refine .bind (Workshop.run_fails faults rfl secure) fun final w₂ run => ?_
    obtain ⟨rfl, builder, runs⟩ := Workshop.run_ok rfl run
    refine .bind .get fun w₃ w₄ got => ?_
    obtain ⟨rfl, rfl⟩ := Run.get_ok.1 got
    refine .bind .get fun w₃ w₄ got => ?_
    obtain ⟨rfl, rfl⟩ := Run.get_ok.1 got
    have lock : (Workshop.yard.builder w₂).lockMode = lockMode := congrArg (·.lockMode) builder
    refine .bind (check_fails (lock ▸ freezes w₂.index w₂.working runs)) fun c w₃ _ => ?_
    exact .bind .modify fun _ _ _ => .pure _
  intro e failed
  unfold compile at failed
  dsimp only at failed
  split at failed
  · cases failed
  next e' w run =>
    obtain rfl := Except.error.inj failed
    exact whole e' w run

/-! ## Registered graphs -/

/-- A definition asks for the services with a tag. -/
def Graph.Asks (g : Graph) (tag : String) : Prop :=
  ∃ d ∈ g.definitions, .tagged tag ∈ d.allArguments

/-- The definition is fit to be shown, and asks for nothing that `g` does not ask for. -/
structure Modest (g : Graph) (d : Definition) : Prop where
  presentable : Presentable d
  asks : ∀ tag, .tagged tag ∈ d.allArguments → g.Asks tag

namespace Modest

theorem hashable (h : ∀ d ∈ g₁.definitions, Modest g d) : g₁.Hashable :=
  fun d hd => (h d hd).presentable.2

theorem of_same (h : Modest g d) (labels : ∀ l ∈ d'.tags, l.IsTag)
    (capabilities : d'.capabilities = d.capabilities)
    (asks : ∀ tag, .tagged tag ∈ d'.allArguments → .tagged tag ∈ d.allArguments) : Modest g d' where
  presentable := ⟨labels, fun v hv => h.presentable.2 v (capabilities ▸ hv)⟩
  asks tag ht := h.asks tag (asks tag ht)

theorem revised {R : Argument → Argument → Prop} (h : Modest g d) (hR : Recipe.Revised R d d')
    (asks : ∀ a tag, R a (.tagged tag) → a = .tagged tag) : Modest g d' := by
  refine h.of_same (hR.tags_eq ▸ h.presentable.1) hR.capabilities_eq fun tag ht => ?_
  obtain ⟨a, ha, hab⟩ := forall₂_mem_right hR.allArguments ht
  exact asks a tag hab ▸ ha

theorem inherited : Inherited (Modest g) := fun parent child hp hc =>
  ⟨inherited_presentable parent child hp.presentable hc.presentable, fun tag ht =>
    (Recipe.mem_inherit ht).elim (hp.asks tag) (hc.asks tag)⟩

theorem of_registered (registered : g.Registered) (hashable : g.Hashable) :
    ∀ d ∈ g.definitions, Modest g d :=
  fun d hd => ⟨⟨registered.labels d hd, hashable d hd⟩, fun _ ht => ⟨d, hd, ht⟩⟩

theorem resolveParameters (registered : g.Registered) (h : ∀ d ∈ g.definitions, Modest g d)
    (run : Build.Gives Pass.resolveParameters g () g₁) : ∀ d ∈ g₁.definitions, Modest g d := by
  obtain ⟨_, _, -, revised⟩ := resolveParameters_spec registered.toTidy registered.flat run
  intro d' hd'
  obtain ⟨d, hd, -, hR⟩ := revised.exists_old hd'
  refine (h d hd).revised hR fun a tag hab => ?_
  cases a with
  | parameter name =>
    obtain ⟨v, e⟩ := hab
    cases e
  | _ => exact (hab : Argument.tagged tag = _).symm

theorem expandTemplates (alone : g₁.twins = []) (h : ∀ d ∈ g₁.definitions, Modest g d) {g₂ : Graph}
    (run : Build.Gives Pass.expandTemplates g₁ () g₂) : ∀ d ∈ g₂.definitions, Modest g d :=
  (expandTemplates_spec alone inherited h run).each

theorem rebuild (sound : Sound index.rules) (tidy : g₁.Tidy) (h : ∀ d ∈ g₁.definitions, Modest g d)
    {g₂ : Graph} (run : Build.Gives index.rebuild g₁ index₁ g₂) :
    ∀ d ∈ g₂.definitions, Modest g d := by
  intro d' hd'
  obtain ⟨d, hd, -, hR⟩ := (rebuild_spec sound tidy run).changed.exists_old hd'
  refine (h d hd).of_same (hR.labels (h d hd).presentable.1) (by rw [hR.frame]) fun tag ht => ?_
  rw [hR.frame] at ht
  exact ht

theorem autowire (tidy : g₁.Tidy) (flat : g₁.Flat) (h : ∀ d ∈ g₁.definitions, Modest g d)
    {g₂ : Graph} (run : Build.Gives Pass.autowire g₁ () g₂) : ∀ d ∈ g₂.definitions, Modest g d := by
  obtain ⟨_, -, wired, -⟩ := autowire_spec tidy flat run
  intro d' hd'
  obtain ⟨d, hd, -, hR⟩ := wired.exists_old hd'
  refine (h d hd).of_same (hR.tags_eq ▸ (h d hd).presentable.1) (by rw [hR.frame]) fun tag ht => ?_
  rcases hR.arguments _ ht with ht | ⟨_, e⟩ | e
  · exact ht
  · cases e
  · cases e

theorem resolveAliases (valued : Valued g₁) (h : ∀ d ∈ g₁.definitions, Modest g d) {g₂ : Graph}
    (run : Build.Gives Pass.resolveAliases g₁ () g₂) : ∀ d ∈ g₂.definitions, Modest g d := by
  obtain ⟨_, short, -, resolved⟩ := resolveAliases_spec valued.toTidy valued.declared run
  intro d' hd'
  obtain ⟨d, hd, -, hR⟩ := resolved.exists_old hd'
  exact (h d (short.definitions_eq ▸ hd)).revised hR fun a tag hab =>
    (Resolved.tagged_iff hab).1 rfl

/-- A collection comes of what is asked for. -/
theorem of_baked (valued : Valued g₁) (h : ∀ d ∈ g₁.definitions, Modest g d) {g₂ : Graph}
    (run : Build.Gives bakeCollections g₁ () g₂) {d : Definition} (hd : d ∈ g₂.definitions)
    {tag : String} {members : List Reference} (hm : .collection tag members ∈ d.allArguments) :
    g.Asks tag := by
  obtain ⟨-, collected⟩ := bakeCollections_spec valued.toTidy valued.declared run
  obtain ⟨d₁, hd₁, -, hR⟩ := collected.exists_old hd
  obtain ⟨a, ha, hab⟩ := forall₂_mem_right hR.allArguments hm
  cases a with
  | tagged tag' =>
    obtain ⟨ids, -, e⟩ := hab
    obtain ⟨rfl, -⟩ := Argument.collection.inj e
    exact (h d₁ hd₁).asks _ ha
  | collection => cases valued.valued d₁ hd₁ _ ha
  | _ => cases (hab : Argument.collection tag members = _)

end Modest

/-- What the passes of the library can fail with on a registered graph: a fault, a key that stands for
a value that is none, or a collection of a private service. -/
def Graph.Admits (g : Graph) (e : Failure) : Prop :=
  Bag.Mishap g.parameters.raw e ∨
    ∃ tag service shown, e = .refused (.collectionMember tag service shown) ∧
      (∃ d ∈ g.definitions, d.id = service ∧ d.isPublic = false) ∧ g.Asks tag

theorem Graph.admits_fault {e : Failure} (h : e.IsFault) : g.Admits e := .inl (.inl h)

/-- Inlining refuses collections that come of what is asked for. -/
theorem admits_of_refuses {p : Graph} (visible : g.Visible p)
    (asks : ∀ d ∈ p.definitions, ∀ tag members, .collection tag members ∈ d.allArguments → g.Asks tag)
    {e : Failure} (h : Refuses p e) : g.Admits e := by
  obtain ⟨tag, service, shown, rfl, d, hd, rfl, hidden, members, hm⟩ := h
  obtain ⟨d₀, hd₀, same, isPublic⟩ := visible d hd
  exact .inr ⟨tag, d.id, shown, rfl, ⟨d₀, hd₀, same.symm, isPublic ▸ hidden⟩,
    asks d hd tag members hm⟩

/-- The passes of the library are secure on a registered graph. -/
theorem secure_of_registered (registered : g.Registered) (named : Named g) (hashable : g.Hashable)
    (sound : Sound rules) :
    Secure g.Admits (Builtin.schedule.map fun e => (e.1, e.2.1)) { rules } g := by
  have modest := Modest.of_registered registered hashable
  refine .job (by decide) (by decide)
    ((resolveParameters_fails registered.flat registered.alone).mono fun _ => .inl) fun g₁ h₁ => ?_
  have valued₁ := Valued.of_parameters registered h₁
  have modest₁ := Modest.resolveParameters registered modest h₁
  refine .job (by decide) (by decide) ((expandTemplates_fails valued₁.alone
    fun d hd => (modest₁ d hd).presentable).mono fun _ => admits_fault) fun g₂ h₂ => ?_
  have valued₂ := valued₁.expandTemplates h₂
  have modest₂ := Modest.expandTemplates valued₁.alone modest₁ h₂
  have sound₃ : Sound (TagIndex.rules { rules }) := sound
  refine .cons (fun early => by cases early) ((rebuild_fails sound₃ valued₂.toTidy
    (Modest.hashable modest₂)).mono fun _ => admits_fault) fun index₃ g₃ h₃ => ?_
  have h₃ : Build.Gives (TagIndex.rebuild { rules }) g₂ index₃ g₃ := h₃
  have start := begun registered sound h₁ h₂ h₃
  have modest₃ := Modest.rebuild sound₃ valued₂.toTidy modest₂ h₃
  refine .job (by decide) (by decide) ((autowire_fails start.toTidy start.flat
    (Modest.hashable modest₃)).mono fun _ => admits_fault) fun g₄ h₄ => ?_
  have valued₄ := start.toValued.autowire h₄
  have modest₄ := Modest.autowire start.toTidy start.flat modest₃ h₄
  have aliases₄ : g₄.aliases = g.aliases := by
    obtain ⟨_, _, -, revised⟩ := resolveParameters_spec registered.toTidy registered.flat h₁
    have expanding := expandTemplates_spec valued₁.alone inherited_written valued₁.written h₂
    have rebuilt := rebuild_spec sound₃ valued₂.toTidy h₃
    obtain ⟨_, -, wired, -⟩ := autowire_spec start.toTidy start.flat h₄
    rw [wired.aliases_eq, rebuilt.changed.aliases_eq, expanding.place.aliases_eq, revised.aliases_eq]
  have named₄ : Named g₄ := fun a ha => named a (aliases₄ ▸ ha)
  refine .job (by decide) (by decide) ((resolveAliases_fails valued₄.toTidy valued₄.flat
    named₄).mono fun _ => admits_fault) fun g₅ h₅ => ?_
  have valued₅ := valued₄.resolveAliases h₅
  have modest₅ := Modest.resolveAliases valued₄ modest₄ h₅
  refine .job (by decide) (by decide) ((bakeCollections_fails valued₅.toTidy valued₅.flat
    (Modest.hashable modest₅)).mono fun _ => admits_fault) fun b h₆ => ?_
  have done := baked start h₄ h₅ h₆
  have tidy := done.toTidy
  have plain := done.flat.plain
  have stable : b.Stable := done.flat.stable done.labels
  refine .check (by decide) rfl stable ((checkDefinitions_fails tidy plain).mono fun _ => admits_fault)
    fun c₁ => ?_
  refine .check (by decide) rfl stable ((checkReferences_fails plain).mono fun _ => admits_fault)
    fun c₂ => ?_
  refine .check (by decide) rfl stable ((Graph.validate_fails plain).mono fun _ => admits_fault)
    fun c₃ => ?_
  have published : Build.FailsBy g.Admits removePrivateAliases b := .change
  refine .job (by decide) (by decide) published fun g₇ h₇ => ?_
  obtain rfl := removePrivateAliases_spec h₇
  refine .job (by decide) (by decide) ((removeUnused_fails (published_tidy tidy) plain).mono
    fun _ => admits_fault) fun p h₈ => ?_
  have pruned := removeUnused_spec (published_tidy tidy) plain h₈
  obtain ⟨isSealed, flat, -⟩ := sealed done (checked plain c₁ c₂ c₃) pruned
  have visible : g.Visible p := (start.visible.trans done.visible).trans fun d hd =>
    ⟨d, pruned.sublist.subset hd, rfl, rfl⟩
  refine .job (by decide) (by decide) ((inlineServices_refuses isSealed flat).mono fun _ =>
    admits_of_refuses visible fun d hd tag members hm => ?_) fun _ _ => .nil
  exact Modest.of_baked valued₅ modest₅ h₆ (pruned.sublist.subset hd) hm

/-- Faults are failures of a compilation, if often of a special kind. -/
theorem Fault.compilation_mem_ancestry (why : Fault) : .compilation ∈ why.kind.ancestry := by
  cases why <;> simp [Fault.kind, FailureKind.ancestry, FailureKind.parent?]

namespace Graph

variable {lockMode : LockMode}

/-- An application with a parameter that has a list for a key. -/
def shelf : Graph where
  definitions := [{ id := "app", factory := some (.simple "App") }]
  parameters := { raw := [("names", .list []), ("titles", .dict [(.str "%names%", .null)])] }

end Graph

end Wiring
