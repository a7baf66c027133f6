import Mathlib
import Wiring.Proofs.Builder.Journal

/-!
# When providers are booted

Providers are taken up in batches: those that are there when a batch begins. All of a batch are
registered before any of them alters, and what they add makes up the next batch. A batch that a hook
has aborted is not taken up again.
-/

namespace Wiring

open Run

variable {σ γ π ρ : Type}

/-! ## Pipelines -/

namespace Pipeline

variable {host : Host σ γ π} {S : σ → σ → Prop}

theorem check_holds {α : Type} (refl : ∀ s, S s s) (x : Except Failure α) :
    Holds S (check x : Work σ α) := by
  cases x with
  | ok a => exact .pure refl a
  | error e => exact .throw refl e

theorem inPhase_holds {α : Type} {x : Work σ α} (h : Holds S x) (phase : Phase) :
    Holds S (inPhase phase x) := by
  intro s
  have ends := h s
  unfold inPhase
  cases run : x s with
  | ok a s' =>
    refine ⟨fun b s₁ h => ?_, fun e s₁ h => ?_⟩
    · simp only [run] at h
      obtain ⟨rfl, rfl⟩ := EStateM.Result.ok.inj h
      exact ends.gives a s' run
    · simp [run] at h
  | error e s' =>
    refine ⟨fun b s₁ h => ?_, fun e₁ s₁ h => ?_⟩
    · simp [run] at h
    · simp only [run] at h
      obtain ⟨rfl, rfl⟩ := EStateM.Result.error.inj h
      exact ends.leaves e s' run

variable (refl : ∀ s, S s s) (trans : ∀ a b c, S a b → S b c → S a c)
  (note : ∀ n s, S s (host.note n s)) (perform : ∀ p g, Holds S (host.perform p g))

include refl trans note perform

theorem runPass_holds (s : Scheduled π) (g : γ) : Holds S (runPass host s g) := by
  unfold runPass
  refine .bind trans (fun w => .modify (note _ w)) fun _ => .bind trans ?_ fun before =>
    .bind trans (inPhase_holds (perform s.pass g) s.phase) fun returned => ?_
  · unfold snapshotBefore
    split
    · exact .get_bind fun w => .bind trans (check_holds refl _) fun _ => .pure refl _
    · exact .pure refl _
  cases returned with
  | other typeName => exact .throw refl _
  | graph other =>
    cases before with
    | none => exact .pure refl _
    | some before => exact .throw refl _
  | same =>
    cases before with
    | none => exact .pure refl _
    | some before =>
      refine .get_bind fun w => .bind trans (check_holds refl _) fun now => ?_
      split
      · exact .throw refl _
      · exact .pure refl _

/-- A pipeline keeps what its passes keep. -/
theorem run_holds (g : γ) : Holds S (run host g) :=
  .foldlM refl trans (fun g _ => .get_bind fun _ =>
    .foldlM refl trans (fun g s => runPass_holds refl trans note perform s g) _ g) _ g

end Pipeline

/-! ## Batches -/

/-- The calls that boot a batch. -/
def bootCalls (batch : List ρ) : List (HookCall ρ) :=
  batch.map (⟨·, .register, true⟩) ++ batch.map (⟨·, .alter, true⟩)

/-- The calls by which a batch was booted: all of them, or those up to the first that failed. -/
inductive BatchRun (batch : List ρ) : List (HookCall ρ) → Prop
  | whole : BatchRun batch (bootCalls batch)
  | aborted {before after : List (HookCall ρ)} {x : HookCall ρ} :
    bootCalls batch = before ++ x :: after → BatchRun batch (before ++ [x.aborted])

/-- The providers were booted batch by batch, as the journal tells. -/
def Booted (providers : List ρ) (journal : List (HookCall ρ)) : Prop :=
  ∃ batches runs, batches.flatten = providers ∧ runs.flatten = journal ∧
    List.Forall₂ BatchRun batches runs

/-- The providers whose hook was called, in order. -/
def called (hook : Hook) (journal : List (HookCall ρ)) : List ρ :=
  (journal.filter fun x => x.hook = hook).map (·.provider)

/-- The providers whose hook ran to its end, in order. -/
def completed (hook : Hook) (journal : List (HookCall ρ)) : List ρ :=
  called hook (journal.filter (·.completed))

/-- No provider alters before another is registered. -/
def RegistersFirst (journal : List (HookCall ρ)) : Prop :=
  journal.Pairwise fun x y => y.hook = .register → x.hook = .register

section Batches

variable {batch batch' providers : List ρ} {journal run : List (HookCall ρ)} {hook : Hook}

theorem called_append (run run' : List (HookCall ρ)) :
    called hook (run ++ run') = called hook run ++ called hook run' := by
  simp [called]

theorem called_bootCalls (hook : Hook) (batch : List ρ) : called hook (bootCalls batch) = batch := by
  cases hook <;> simp [called, bootCalls, List.filter_map, Function.comp_def]

theorem length_called (journal : List (HookCall ρ)) :
    (called .register journal).length + (called .alter journal).length = journal.length := by
  induction journal with
  | nil => rfl
  | cons x journal ih =>
    simp only [called, List.length_map] at ih ⊢
    rcases x with ⟨p, _ | _, completed⟩ <;> simp <;> omega

namespace BatchRun

/-- No hook is called twice. -/
theorem called_sublist (h : BatchRun batch run) (hook : Hook) : (called hook run).Sublist batch := by
  cases h with
  | whole => rw [called_bootCalls]
  | @aborted before after x split =>
    have same : called hook [x.aborted] = called hook [x] := by
      rcases x with ⟨p, _ | _, completed⟩ <;> cases hook <;> simp [called, HookCall.aborted]
    rw [← called_bootCalls hook batch, split, List.append_cons before x after,
      called_append (before ++ [x]), called_append before, called_append before, same]
    exact List.sublist_append_left _ _

/-- All hooks run to their ends if none fails. -/
theorem eq_bootCalls (h : BatchRun batch run) (done : ∀ x ∈ run, x.completed = true) :
    run = bootCalls batch := by
  cases h with
  | whole => rfl
  | @aborted before after x split =>
    have := done x.aborted (by simp)
    simp [HookCall.aborted] at this

end BatchRun

namespace Booted

theorem nil : Booted ([] : List ρ) [] := ⟨[], [], rfl, rfl, .nil⟩

theorem append (h : Booted providers journal) (ran : BatchRun batch run) :
    Booted (providers ++ batch) (journal ++ run) := by
  obtain ⟨batches, runs, rfl, rfl, each⟩ := h
  exact ⟨batches ++ [batch], runs ++ [run], by simp, by simp, List.rel_append each (.cons ran .nil)⟩

theorem called_sublist (h : Booted providers journal) (hook : Hook) :
    (called hook journal).Sublist providers := by
  obtain ⟨batches, runs, rfl, rfl, each⟩ := h
  induction each with
  | nil => exact .slnil
  | cons ran _ ih =>
    rw [List.flatten_cons, List.flatten_cons, called_append]
    exact (ran.called_sublist hook).append ih

/-- Every hook has run to its end if none has failed. -/
theorem completed_eq (h : Booted providers journal) (done : ∀ x ∈ journal, x.completed = true)
    (hook : Hook) : completed hook journal = providers := by
  rw [completed, List.filter_eq_self.2 done]
  obtain ⟨batches, runs, rfl, rfl, each⟩ := h
  induction each with
  | nil => rfl
  | cons ran _ ih =>
    simp only [List.flatten_cons, List.forall_mem_append] at done
    rw [List.flatten_cons, List.flatten_cons, called_append, ih done.2, ran.eq_bootCalls done.1,
      called_bootCalls]

/-- And if one has failed, a provider is left behind. -/
theorem done_of_completed (h : Booted providers journal)
    (registered : completed .register journal = providers)
    (altered : completed .alter journal = providers) : ∀ x ∈ journal, x.completed = true := by
  have all : journal.length ≤ (journal.filter (·.completed)).length := by
    calc journal.length
        = (called .register journal).length + (called .alter journal).length :=
          (length_called journal).symm
      _ ≤ providers.length + providers.length :=
          Nat.add_le_add (h.called_sublist .register).length_le (h.called_sublist .alter).length_le
      _ = (completed .register journal).length + (completed .alter journal).length := by
          rw [registered, altered]
      _ = (journal.filter (·.completed)).length := length_called _
  exact List.filter_eq_self.1 (List.filter_sublist.eq_of_length_le all)

end Booted

theorem registersFirst_bootCalls (batch : List ρ) : RegistersFirst (bootCalls batch) := by
  unfold RegistersFirst bootCalls
  simp [List.pairwise_append, List.pairwise_map, List.pairwise_of_forall]

/-- There is an order of this kind only if there is one batch. -/
theorem registersFirst_iff {batches : List (List ρ)} (nonempty : ∀ b ∈ batches, b ≠ []) :
    RegistersFirst (batches.flatMap bootCalls) ↔ batches.length ≤ 1 := by
  match batches with
  | [] => simp [RegistersFirst]
  | [batch] => simpa using registersFirst_bootCalls batch
  | first :: second :: rest =>
    refine ⟨fun h => ?_, fun h => by simp at h⟩
    obtain ⟨p, hp⟩ := List.exists_mem_of_ne_nil first (nonempty first (by simp))
    obtain ⟨q, hq⟩ := List.exists_mem_of_ne_nil second (nonempty second (by simp))
    rw [RegistersFirst, List.flatMap_cons, List.pairwise_append] at h
    have early : (⟨p, .alter, true⟩ : HookCall ρ) ∈ bootCalls first := by simp [bootCalls, hp]
    have late : (⟨q, .register, true⟩ : HookCall ρ) ∈ (second :: rest).flatMap bootCalls := by
      simp [bootCalls, hq]
    cases h.2.2 _ early _ late rfl

end Batches

/-! ## Booting -/

/-- The providers that have not been taken up. -/
def Builder.pending (b : Builder γ π ρ) : List ρ := b.providers.drop b.booted

namespace Builder

variable {b b' b'' : Builder γ π ρ}

theorem Same.refl (b : Builder γ π ρ) : b.Same b := ⟨rfl, rfl⟩

theorem Same.trans (h : b.Same b') (h' : b'.Same b'') : b.Same b'' :=
  ⟨h'.providers.trans h.providers, h'.booted.trans h.booted⟩

theorem Same.extended (h : b.Same b') : b.Extended b' :=
  ⟨h.providers ▸ List.prefix_rfl, h.booted⟩

theorem Extended.trans (h : b.Extended b') (h' : b'.Extended b'') : b.Extended b'' :=
  ⟨h.providers.trans h'.providers, h'.booted.trans h.booted⟩

end Builder

namespace Yard

variable {yard : Yard σ γ π ρ} {rounds : Nat} {w w₁ w' w'' : σ × List (HookCall ρ)}
  {calls calls' : List (HookCall ρ)} {batch : List ρ}

/-- The calls have been made, and providers may have been added. -/
structure Grown (yard : Yard σ γ π ρ) (calls : List (HookCall ρ)) (w w' : σ × List (HookCall ρ)) :
    Prop where
  builder : (yard.builder w.1).Extended (yard.builder w'.1)
  journal : w'.2 = w.2 ++ calls

/-- No hook has been called, and no provider added. -/
structure Quiet (yard : Yard σ γ π ρ) (w w' : σ × List (HookCall ρ)) : Prop where
  builder : (yard.builder w.1).Same (yard.builder w'.1)
  journal : w'.2 = w.2

theorem Quiet.refl (w : σ × List (HookCall ρ)) : yard.Quiet w w := ⟨.refl _, rfl⟩

theorem Quiet.trans (h : yard.Quiet w w') (h' : yard.Quiet w' w'') : yard.Quiet w w'' :=
  ⟨h.builder.trans h'.builder, h'.journal.trans h.journal⟩

theorem Quiet.grown (h : yard.Quiet w w₁) (h' : yard.Grown calls w₁ w') : yard.Grown calls w w' :=
  ⟨h.builder.extended.trans h'.builder, h.journal ▸ h'.journal⟩

theorem Grown.refl (w : σ × List (HookCall ρ)) : yard.Grown [] w w :=
  ⟨(Builder.Same.refl _).extended, (List.append_nil _).symm⟩

theorem Grown.trans (h : yard.Grown calls w w₁) (h' : yard.Grown calls' w₁ w') :
    yard.Grown (calls ++ calls') w w' :=
  ⟨h.builder.trans h'.builder, by rw [h'.journal, h.journal, List.append_assoc]⟩

/-- The calls that have been made of those that were to be made, if one of them failed. -/
def Broken (yard : Yard σ γ π ρ) (calls : List (HookCall ρ)) (w w' : σ × List (HookCall ρ)) : Prop :=
  ∃ before x after, calls = before ++ x :: after ∧ yard.Grown (before ++ [x.aborted]) w w'

theorem Grown.broken (h : yard.Grown calls w w₁) (h' : yard.Broken calls' w₁ w') :
    yard.Broken (calls ++ calls') w w' := by
  obtain ⟨before, x, after, rfl, grown⟩ := h'
  exact ⟨calls ++ before, x, after, (List.append_assoc ..).symm,
    List.append_assoc .. ▸ h.trans grown⟩

theorem Broken.append (h : yard.Broken calls w w') (calls' : List (HookCall ρ)) :
    yard.Broken (calls ++ calls') w w' := by
  obtain ⟨before, x, after, rfl, grown⟩ := h
  exact ⟨before, x, after ++ calls', by simp, grown⟩

/-- The hook is called, with this entry. -/
abbrev Calls (yard : Yard σ γ π ρ) (x : HookCall ρ) (hook : Work (σ × List (HookCall ρ)) Unit) :
    Prop :=
  ∀ w, Exits (fun _ => yard.Grown [x] w) (yard.Grown [x.aborted] w) hook w

theorem calls_entered {x : HookCall ρ} {hook : Work σ Unit}
    (h : Holds (fun s s' => (yard.builder s).Extended (yard.builder s')) hook) :
    yard.Calls x (entered x hook) := by
  intro w
  have ends := h w.1
  unfold entered
  cases run : hook w.1 with
  | ok u s =>
    refine ⟨fun _ w' h => ?_, fun e w' h => ?_⟩
    · simp only [run] at h
      obtain ⟨-, rfl⟩ := EStateM.Result.ok.inj h
      exact ⟨ends.gives u s run, rfl⟩
    · simp [run] at h
  | error e s =>
    refine ⟨fun _ w' h => ?_, fun e w' h => ?_⟩
    · simp [run] at h
    · simp only [run] at h
      obtain ⟨-, rfl⟩ := EStateM.Result.error.inj h
      exact ⟨ends.leaves _ s run, rfl⟩

theorem forM_calls {hook : ρ → Work (σ × List (HookCall ρ)) Unit} {x : ρ → HookCall ρ}
    (each : ∀ p, yard.Calls (x p) (hook p)) (batch : List ρ) (w : σ × List (HookCall ρ)) :
    Exits (fun _ => yard.Grown (batch.map x) w) (yard.Broken (batch.map x) w) (batch.forM hook) w := by
  induction batch generalizing w with
  | nil => exact .pure (.refl w)
  | cons p batch ih =>
    rw [forM_cons]
    have first := (each p w).mono (fun _ _ h => h)
      fun w' h => (⟨[], x p, batch.map x, rfl, h⟩ : yard.Broken ((p :: batch).map x) w w')
    exact first.bind fun _ w₁ _ h => (ih w₁).mono (fun _ _ => h.trans) fun _ => h.broken

theorem beside_quiet {α : Type} {x : Work σ α}
    (h : Holds (fun s s' => (yard.builder s).Same (yard.builder s')) x) :
    Holds yard.Quiet (beside x) := by
  intro w
  have ends := h w.1
  unfold beside
  cases run : x w.1 with
  | ok a s =>
    refine ⟨fun _ w' h => ?_, fun e w' h => ?_⟩
    · simp only [run] at h
      obtain ⟨-, rfl⟩ := EStateM.Result.ok.inj h
      exact ⟨ends.gives a s run, rfl⟩
    · simp [run] at h
  | error e s =>
    refine ⟨fun _ w' h => ?_, fun e w' h => ?_⟩
    · simp [run] at h
    · simp only [run] at h
      obtain ⟨-, rfl⟩ := EStateM.Result.error.inj h
      exact ⟨ends.leaves _ s run, rfl⟩

section Booting

variable (fair : yard.Fair)

include fair

theorem bootRegister_calls (p : ρ) : yard.Calls ⟨p, .register, true⟩ (yard.journaled.bootRegister p) := by
  intro w
  have noted : yard.Quiet w (yard.journaled.note (.provider (yard.providerName p)) w) :=
    ⟨fair.note _ _, rfl⟩
  refine .bind (Q := fun _ w₁ => yard.Quiet w w₁) (.modify noted) fun _ w₁ _ quiet => ?_
  exact (calls_entered (fair.register p) w₁).mono (fun _ _ => quiet.grown) fun _ => quiet.grown

/-- A batch is booted call by call, up to the first that fails. -/
theorem bootBatch_exits (batch : List ρ) (w : σ × List (HookCall ρ)) :
    Exits (fun _ => yard.Grown (bootCalls batch) w) (yard.Broken (bootCalls batch) w)
      (batch.forM yard.journaled.bootRegister >>= fun _ => batch.forM yard.journaled.alter) w := by
  have registers := forM_calls (bootRegister_calls fair) batch w
  refine .bind (registers.mono (fun _ _ h => h) fun _ h => h.append _) fun _ w₁ _ grown => ?_
  have alters := forM_calls (x := (⟨·, .alter, true⟩)) (fun p => calls_entered (fair.alter p)) batch w₁
  exact alters.mono (fun _ _ => grown.trans) fun _ => grown.broken

end Booting

/-- The world once all pending providers have been taken up. -/
def taken (yard : Yard σ γ π ρ) (s : σ) : σ :=
  yard.setBuilder { yard.builder s with booted := (yard.builder s).providers.length } s

theorem bootProviders_nil (yard : Yard σ γ π ρ) {s : σ} (none : (yard.builder s).pending = []) :
    yard.bootProviders (rounds + 1) s = .ok () (yard.taken s) := by
  have first : yard.takePending s = .ok [] (yard.taken s) := by rw [← none]; rfl
  unfold bootProviders
  show EStateM.bind _ _ s = _
  unfold EStateM.bind
  rw [first]
  rfl

theorem bootProviders_cons (yard : Yard σ γ π ρ) {s : σ} (some : (yard.builder s).pending ≠ []) :
    yard.bootProviders (rounds + 1) s =
      (((yard.builder s).pending.forM yard.bootRegister >>= fun _ =>
        (yard.builder s).pending.forM yard.alter) >>= fun _ => yard.bootProviders rounds)
        (yard.taken s) := by
  have first : yard.takePending s = .ok (yard.builder s).pending (yard.taken s) := rfl
  rw [bind_assoc]
  conv_lhs => unfold bootProviders
  show EStateM.bind _ _ s = _
  unfold EStateM.bind
  rw [first]
  cases h : (yard.builder s).pending with
  | nil => exact absurd h some
  | cons => rfl

/-- The providers that have been taken up were booted as the journal tells. -/
structure Accounted (yard : Yard σ γ π ρ) (w : σ × List (HookCall ρ)) : Prop where
  booted : Booted ((yard.builder w.1).providers.take (yard.builder w.1).booted) w.2
  le : (yard.builder w.1).booted ≤ (yard.builder w.1).providers.length

theorem Accounted.quiet (h : yard.Accounted w) (quiet : yard.Quiet w w') : yard.Accounted w' where
  booted := by
    rw [quiet.builder.providers, quiet.builder.booted, quiet.journal]
    exact h.booted
  le := by
    rw [quiet.builder.providers, quiet.builder.booted]
    exact h.le

section Booting

variable (fair : yard.Fair)

include fair

theorem builder_taken (w : σ × List (HookCall ρ)) : yard.builder (yard.journaled.taken w).1 =
    { yard.builder w.1 with booted := (yard.builder w.1).providers.length } :=
  fair.builder_setBuilder _ _

/-- A batch that has been run is accounted for, wherever its run ended. -/
theorem Accounted.next {run : List (HookCall ρ)} (h : yard.Accounted w)
    (ran : BatchRun (yard.builder w.1).pending run)
    (grown : yard.Grown run (yard.journaled.taken w) w') : yard.Accounted w' := by
  obtain ⟨⟨providers, booted⟩, journal⟩ := grown
  rw [builder_taken fair] at providers booted
  have whole : (yard.builder w'.1).providers.take (yard.builder w.1).providers.length =
      (yard.builder w.1).providers := (List.prefix_iff_eq_take.1 providers).symm
  refine ⟨?_, ?_⟩
  · rw [booted, journal, whole,
      ← List.take_append_drop (yard.builder w.1).booted (yard.builder w.1).providers]
    exact h.booted.append ran
  · rw [booted]
    exact providers.length_le

/-- Booting accounts for all providers, if it comes to its end. -/
theorem bootProviders_exits (rounds : Nat) (h : yard.Accounted w) :
    Exits (fun _ w' => yard.Accounted w' ∧
        (yard.builder w'.1).booted = (yard.builder w'.1).providers.length)
      yard.Accounted (yard.journaled.bootProviders rounds) w := by
  induction rounds generalizing w with
  | zero => exact .throw h
  | succ rounds ih =>
    by_cases none : (yard.builder w.1).pending = []
    · have ended : yard.journaled.bootProviders (rounds + 1) w = .ok () (yard.journaled.taken w) :=
        bootProviders_nil yard.journaled none
      refine ⟨fun u w' run => ?_, fun e w' run => ?_⟩
      · obtain ⟨-, rfl⟩ := EStateM.Result.ok.inj (ended.symm.trans run)
        have ran : BatchRun (yard.builder w.1).pending [] := by rw [none]; exact .whole
        exact ⟨h.next fair ran (.refl _), by rw [builder_taken fair]⟩
      · cases ended.symm.trans run
    · refine Exits.of_eq ?_ (bootProviders_cons yard.journaled none)
      have batch := bootBatch_exits fair (yard.builder w.1).pending (yard.journaled.taken w)
      refine (batch.mono (fun _ _ h => h) fun w' broken => ?_).bind fun _ w₁ _ grown =>
        ih (h.next fair .whole grown)
      obtain ⟨before, x, after, split, grown⟩ := broken
      exact h.next fair (.aborted split) grown

/-- What else belongs to a compilation has nothing to do with providers. -/
theorem compile_exits {Q E : σ × List (HookCall ρ) → Prop}
    (boot : Exits (fun _ => Q) E (yard.journaled.bootProviders rounds) w)
    (keep : ∀ w₁ w₂, Q w₁ → yard.Quiet w₁ w₂ → Q w₂) :
    Exits (fun _ => Q) (fun w' => E w' ∨ Q w') (yard.journaled.compile rounds) w := by
  have trans (a b c : σ × List (HookCall ρ)) : yard.Quiet a b → yard.Quiet b c → yard.Quiet a c :=
    Quiet.trans
  have check_quiet {α : Type} (x : Except Failure α) :
      Holds yard.Quiet (check x : Work (σ × List (HookCall ρ)) α) := by
    cases x with
    | ok a => exact .pure .refl a
    | error e => exact .throw .refl e
  have noted (n : Note) (w : σ × List (HookCall ρ)) : yard.Quiet w (yard.journaled.note n w) :=
    ⟨fair.note n w.1, rfl⟩
  have piped (g : γ) : Holds yard.Quiet (Pipeline.run yard.journaled.host g) :=
    Pipeline.run_holds .refl trans noted (fun p g => beside_quiet (fair.perform p g)) g
  unfold compile
  refine (boot.mono (fun _ _ h => h) fun _ => .inl).bind fun _ w₁ _ h => ?_
  suffices rest : Holds yard.Quiet _ from
    (rest w₁).mono (fun _ w₂ => keep w₁ w₂ h) fun w₂ quiet => .inr (keep w₁ w₂ h quiet)
  refine .get_bind fun w₂ => .get_bind fun w₃ => .bind trans (check_quiet _) fun source => ?_
  refine .bind trans (fun w₄ => ?_) fun working => .bind trans (piped working) fun final => ?_
  · exact ⟨fun _ _ run => by cases run; exact ⟨fair.allocate source w₄.1, rfl⟩,
      fun _ _ run => nomatch run⟩
  refine .get_bind fun w₄ => .get_bind fun w₅ => .bind trans (check_quiet _) fun c => ?_
  exact .bind trans (fun w₆ => .modify (noted _ w₆)) fun _ => .pure .refl c

/-- Booting that comes to its end goes batch by batch. The first batch is what was pending, and each
further one what was added meanwhile. -/
theorem bootProviders_batches (h : yard.journaled.bootProviders rounds w = .ok () w') :
    ∃ batches : List (List ρ), (∀ b ∈ batches, b ≠ []) ∧
      batches.head?.getD [] = (yard.builder w.1).pending ∧
      (batches = [] → (yard.builder w'.1).providers = (yard.builder w.1).providers) ∧
      (yard.builder w.1).providers <+: (yard.builder w'.1).providers ∧
      batches.flatten = (yard.builder w'.1).providers.drop (yard.builder w.1).booted ∧
      w'.2 = w.2 ++ batches.flatMap bootCalls := by
  induction rounds generalizing w with
  | zero => cases h
  | succ rounds ih =>
    by_cases none : (yard.builder w.1).pending = []
    · rw [bootProviders_nil yard.journaled none] at h
      obtain ⟨-, rfl⟩ := EStateM.Result.ok.inj h
      refine ⟨[], by simp, none.symm, fun _ => ?_, ?_, ?_, (List.append_nil _).symm⟩
      · rw [builder_taken fair]
      · rw [builder_taken fair]
      · rw [builder_taken fair]
        exact none.symm
    · rw [bootProviders_cons yard.journaled none, bind_ok] at h
      obtain ⟨_, w₁, first, rest⟩ := h
      obtain ⟨⟨providers, booted⟩, journal⟩ :=
        (bootBatch_exits fair _ (yard.journaled.taken w)).gives _ _ first
      obtain ⟨batches, nonempty, -, -, later, flat, journal'⟩ := ih rest
      rw [builder_taken fair] at providers booted
      refine ⟨(yard.builder w.1).pending :: batches, ?_, rfl, by simp, providers.trans later, ?_, ?_⟩
      · exact List.forall_mem_cons.2 ⟨none, nonempty⟩
      · obtain ⟨added, whole⟩ := providers.trans later
        have le : (yard.builder w.1).booted ≤ (yard.builder w.1).providers.length := by
          by_contra gt
          exact none (List.drop_eq_nil_of_le (by omega))
        rw [List.flatten_cons, flat, booted, ← whole, List.drop_append_of_le_length le,
          List.drop_left]
        rfl
      · rw [journal', journal, List.flatMap_cons, List.append_assoc]
        rfl

end Booting

/-! ## Sessions -/

/-- The states that a builder comes to by adding providers and compiling, with steps in between that
are none of these and are told by `idle`. -/
inductive Session (yard : Yard σ γ π ρ) (idle : σ → σ → Prop) (s : σ) : σ → Prop
  | start : Session yard idle s s
  | addProvider {t : σ} (p : ρ) : Session yard idle s t →
    Session yard idle s (yard.setBuilder ((yard.builder t).addProvider p) t)
  | compiled {t t' : σ} {rounds : Nat} {c : Container} : Session yard idle s t →
    yard.compile rounds t = .ok c t' → Session yard idle s t'
  | refused {t t' : σ} {rounds : Nat} {e : Failure} : Session yard idle s t →
    yard.compile rounds t = .error e t' → Session yard idle s t'
  | other {t t' : σ} : Session yard idle s t → idle t t' → Session yard idle s t'

/-- What happens in a session that has nothing to do with providers. -/
def Idle (yard : Yard σ γ π ρ) (s s' : σ) : Prop := (yard.builder s).Same (yard.builder s')

variable {s t t' s₁ : σ} {c : Container}

/-- A journal can be kept of a session. -/
theorem Session.journaled (h : yard.Session yard.Idle s t) :
    ∃ journal, yard.journaled.Session yard.Quiet (s, []) (t, journal) := by
  induction h with
  | start => exact ⟨[], .start⟩
  | addProvider p _ ih =>
    obtain ⟨journal, ih⟩ := ih
    exact ⟨journal, ih.addProvider p⟩
  | compiled _ run ih =>
    obtain ⟨journal, ih⟩ := ih
    obtain ⟨journal', run⟩ := (compile_shadows _).exists_ok (w := (_, journal)) run
    exact ⟨journal', ih.compiled run⟩
  | refused _ run ih =>
    obtain ⟨journal, ih⟩ := ih
    obtain ⟨journal', run⟩ := (compile_shadows _).exists_error (w := (_, journal)) run
    exact ⟨journal', ih.refused run⟩
  | other _ idle ih =>
    obtain ⟨journal, ih⟩ := ih
    exact ⟨journal, ih.other ⟨idle, rfl⟩⟩

/-- A compilation leaves the providers accounted for, and all of them taken up if it succeeds. -/
theorem compile_accounted (fair : yard.Fair) (h : yard.Accounted w) :
    Exits (fun _ w' => yard.Accounted w' ∧
        (yard.builder w'.1).booted = (yard.builder w'.1).providers.length)
      yard.Accounted (yard.journaled.compile rounds) w := by
  have boot := bootProviders_exits fair rounds h
  refine (compile_exits fair boot fun w₁ w₂ ⟨accounted, all⟩ quiet => ?_).mono (fun _ _ h => h)
    fun w' h => h.elim id And.left
  refine ⟨accounted.quiet quiet, ?_⟩
  rw [quiet.builder.booted, all, quiet.builder.providers]

theorem Session.accounted (fair : yard.Fair) (start : yard.Accounted w)
    (h : yard.journaled.Session yard.Quiet w w') : yard.Accounted w' := by
  induction h with
  | start => exact start
  | @addProvider w' p _ ih =>
    have added : yard.builder
        (yard.journaled.setBuilder ((yard.journaled.builder w').addProvider p) w').1 =
        (yard.builder w'.1).addProvider p := fair.builder_setBuilder _ _
    refine ⟨?_, ?_⟩
    · show Booted _ w'.2
      rw [added]
      show Booted (((yard.builder w'.1).providers ++ [p]).take (yard.builder w'.1).booted) w'.2
      rw [List.take_append_of_le_length ih.le]
      exact ih.booted
    · rw [added]
      exact ih.le.trans (by simp [Builder.addProvider])
  | compiled _ run ih => exact ((compile_accounted fair ih).gives _ _ run).1
  | refused _ run ih => exact (compile_accounted fair ih).leaves _ _ run
  | other _ quiet ih => exact ih.quiet quiet

/-- Whenever a compilation succeeds, all providers have been taken up, in the batches that the journal
tells: no hook has been called twice, and every hook has run to its end if and only if none has
failed, in this compilation or before. -/
theorem compile_boots (fair : yard.Fair)
    (new : (yard.builder s).providers = [] ∧ (yard.builder s).booted = 0)
    (session : yard.Session yard.Idle s t) (h : yard.compile rounds t = .ok c t') :
    ∃ before journal, yard.journaled.Session yard.Quiet (s, []) (t, before) ∧
      yard.journaled.compile rounds (t, before) = .ok c (t', journal) ∧
      Booted (yard.builder t').providers journal ∧
      (∀ hook, (called hook journal).Sublist (yard.builder t').providers) ∧
      ((∀ hook, completed hook journal = (yard.builder t').providers) ↔
        ∀ x ∈ journal, x.completed = true) := by
  obtain ⟨before, journaled⟩ := session.journaled
  obtain ⟨journal, run⟩ := (compile_shadows rounds).exists_ok (w := (t, before)) h
  have start : yard.Accounted (s, ([] : List (HookCall ρ))) := by
    obtain ⟨none, zero⟩ := new
    refine ⟨?_, ?_⟩
    · show Booted ((yard.builder s).providers.take _) []
      rw [none, List.take_nil]
      exact .nil
    · rw [zero]
      exact Nat.zero_le _
  obtain ⟨accounted, all⟩ :=
    (compile_accounted fair (Session.accounted fair start journaled)).gives _ _ run
  have booted : Booted (yard.builder t').providers journal := by
    have := accounted.booted
    rwa [all, List.take_length] at this
  refine ⟨before, journal, journaled, run, booted, booted.called_sublist, ?_, ?_⟩
  · exact fun h => booted.done_of_completed (h .register) (h .alter)
  · exact fun done hook => booted.completed_eq done hook

/-- Some providers. -/
inductive Plugin where
  /-- Contributes nothing else. -/
  | logger
  /-- Adds the logger. -/
  | bundle
  /-- Cannot be registered before there is a transport. -/
  | mailer
  deriving DecidableEq

/-- The world of these providers. -/
structure Bay where
  builder : Builder Unit Empty Plugin := { registry := () }
  transport : Bool := false

/-- A yard for these providers, where there are no definitions and no passes. -/
def bay : Yard Bay Unit Empty Plugin where
  builder := Bay.builder
  setBuilder b s := { s with builder := b }
  graph _ _ := {}
  allocate _ s := ((), s)
  perform p := p.elim
  passName p := p.elim
  register
    | .logger => pure ()
    | .bundle => modify fun s => { s with builder := s.builder.addProvider .logger }
    | .mailer => do if !(← get).transport then throw .tooDeep
  alter _ := pure ()
  providerName _ := "Plugin"
  note _ s := s

theorem bay_fair : bay.Fair where
  builder_setBuilder _ _ := rfl
  note _ _ := .refl _
  allocate _ _ := .refl _
  perform p := p.elim
  register
    | .logger => .pure (fun s => (Builder.Same.refl s.builder).extended) ()
    | .bundle => fun _ => .modify ⟨List.prefix_append _ _, rfl⟩
    | .mailer => .get_bind fun s => by
      have refl (s : Bay) := (Builder.Same.refl s.builder).extended
      split
      · exact .throw refl _
      · exact .pure refl ()
  alter _ := .pure (fun s => (Builder.Same.refl s.builder).extended) ()

/-- A compilation has been refused for want of a transport, and now there is one. -/
def awaiting : Bay where
  builder := { registry := (), providers := [.mailer], booted := 1 }
  transport := true

theorem awaiting_session : bay.Session bay.Idle {} awaiting := by
  have refused : bay.compile 3 (bay.setBuilder ((bay.builder {}).addProvider .mailer) {}) =
      .error .tooDeep { awaiting with transport := false } := rfl
  exact .other (t := { awaiting with transport := false })
    (.refused (.addProvider .mailer .start) refused) ⟨rfl, rfl⟩

theorem compile_boots_awaiting : ∃ c t, bay.compile 3 awaiting = .ok c t ∧
    ∃ before journal, bay.journaled.Session bay.Quiet ({}, []) (awaiting, before) ∧
      bay.journaled.compile 3 (awaiting, before) = .ok c (t, journal) ∧
      Booted t.builder.providers journal ∧
      (∀ hook, (called hook journal).Sublist t.builder.providers) ∧
      ((∀ hook, completed hook journal = t.builder.providers) ↔
        ∀ x ∈ journal, x.completed = true) := by
  have accepted : ((bay.compile 3).run' awaiting).isSome = true := by cbv
  cases h : bay.compile 3 awaiting with
  | error e t => simp [EStateM.run', EStateM.run, h] at accepted
  | ok c t => exact ⟨c, t, rfl, compile_boots bay_fair ⟨rfl, rfl⟩ awaiting_session h⟩

/-- The mailer has not been registered by then, and will not be. -/
example : (bay.journaled.compile 3 >>= fun _ => Prod.snd <$> get).run'
    (awaiting, [⟨.mailer, .register, false⟩]) = some [⟨.mailer, .register, false⟩] := by cbv

/-- The hooks that a compilation calls are those of its batches, one batch after the other, whatever
becomes of the compilation. So every provider is registered before any of them alters if and only if
none is added meanwhile. -/
theorem registers_first_iff (fair : yard.Fair) (h : yard.bootProviders rounds s = .ok () s₁) :
    plainly (yard.journaled.compile rounds (s, [])) = yard.compile rounds s ∧
    ∃ batches : List (List ρ), (∀ b ∈ batches, b ≠ []) ∧
      batches.head?.getD [] = (yard.builder s).pending ∧
      batches.flatten = (yard.builder s₁).providers.drop (yard.builder s).booted ∧
      Exits (fun _ w => w.2 = batches.flatMap bootCalls) (fun w => w.2 = batches.flatMap bootCalls)
        (yard.journaled.compile rounds) (s, []) ∧
      (RegistersFirst (batches.flatMap bootCalls) ↔
        (yard.builder s₁).providers = (yard.builder s).providers) := by
  refine ⟨compile_shadows rounds (s, []), ?_⟩
  obtain ⟨journal, run⟩ := (bootProviders_shadows rounds).exists_ok (w := (s, [])) h
  obtain ⟨batches, nonempty, first, idle, ⟨added, whole⟩, flat, rfl⟩ :=
    bootProviders_batches fair run
  refine ⟨batches, nonempty, first, flat, ?_, ?_⟩
  · have boot : Exits (fun _ w => w.2 = batches.flatMap bootCalls) (fun _ => False)
        (yard.journaled.bootProviders rounds) (s, []) := by
      refine ⟨fun u w ran => ?_, fun e w ran => ?_⟩
      · obtain ⟨-, rfl⟩ := EStateM.Result.ok.inj (run.symm.trans ran)
        rfl
      · cases run.symm.trans ran
    exact (compile_exits fair boot fun w₁ w₂ same quiet => quiet.journal.trans same).mono
      (fun _ _ h => h) fun _ h => h.resolve_left id
  · rw [registersFirst_iff nonempty]
    match batches with
    | [] => exact ⟨fun _ => idle rfl, fun _ => Nat.zero_le 1⟩
    | batch :: rest =>
      have pending : batch = (yard.builder s).pending := first
      have le : (yard.builder s).booted ≤ (yard.builder s).providers.length := by
        by_contra gt
        exact nonempty batch List.mem_cons_self
          (pending.trans (List.drop_eq_nil_of_le (by omega)))
      rw [← whole, List.drop_append_of_le_length le, List.flatten_cons, pending] at flat
      have later : rest.flatten = added := List.append_cancel_left flat
      rw [← whole, List.append_right_eq_self, ← later]
      constructor
      · intro few
        obtain rfl : rest = [] := List.eq_nil_of_length_eq_zero (by simpa using few)
        rfl
      · intro none
        cases rest with
        | nil => exact le_rfl
        | cons b rest =>
          rw [List.flatten_cons, List.append_eq_nil_iff] at none
          exact absurd none.1 (nonempty b (by simp))

/-- A bundle has been added. -/
def bundled : Bay where
  builder := { registry := (), providers := [.bundle] }

theorem registers_first_iff_bundled : ∃ s₁, bay.bootProviders 3 bundled = .ok () s₁ ∧
    plainly (bay.journaled.compile 3 (bundled, [])) = bay.compile 3 bundled ∧
    ∃ batches : List (List Plugin), (∀ b ∈ batches, b ≠ []) ∧
      batches.head?.getD [] = bundled.builder.pending ∧
      batches.flatten = s₁.builder.providers.drop bundled.builder.booted ∧
      Exits (fun _ w => w.2 = batches.flatMap bootCalls) (fun w => w.2 = batches.flatMap bootCalls)
        (bay.journaled.compile 3) (bundled, []) ∧
      (RegistersFirst (batches.flatMap bootCalls) ↔
        s₁.builder.providers = bundled.builder.providers) :=
  ⟨_, rfl, registers_first_iff bay_fair rfl⟩

/-- The bundle has altered before the logger is registered. -/
example : (bay.journaled.compile 3 >>= fun _ => Prod.snd <$> get).run' (bundled, []) =
    some [⟨.bundle, .register, true⟩, ⟨.bundle, .alter, true⟩, ⟨.logger, .register, true⟩,
      ⟨.logger, .alter, true⟩] := by cbv

end Yard

end Wiring
