import Wiring.Builder.Basic
import Wiring.Proofs.Outcome

/-!
# Hooks on record

A journal of the hooks that are called can be kept beside the world of a builder. Nothing in that
world depends on it. What else happens there leaves the journal alone, and the roster of providers,
to which hooks may add.
-/

namespace Wiring

/-! ## Both ways out -/

namespace Run

variable {ε σ τ α β : Type} {Q : α → σ → Prop} {R : β → σ → Prop} {E F : σ → Prop} {s : σ}

/-- If the work is done, `Q` holds of its result and of the state it ends in; if it fails, `E` holds
of the state it fails in. -/
structure Exits (Q : α → σ → Prop) (E : σ → Prop) (x : EStateM ε σ α) (s : σ) : Prop where
  gives : ∀ a s', x s = .ok a s' → Q a s'
  leaves : ∀ e s', x s = .error e s' → E s'

namespace Exits

variable {x : EStateM ε σ α} {f : α → EStateM ε σ β}

theorem pure {a : α} (h : Q a s) : Exits Q E (Pure.pure a : EStateM ε σ α) s where
  gives b s' run := by
    obtain ⟨rfl, rfl⟩ := pure_ok.1 run
    exact h
  leaves e s' run := by cases run

theorem throw {e : ε} (h : E s) : Exits Q E (MonadExcept.throw e : EStateM ε σ α) s where
  gives a s' run := by simp at run
  leaves e' s' run := by
    obtain ⟨-, rfl⟩ := EStateM.Result.error.inj run
    exact h

theorem bind (hx : Exits Q E x s) (hf : ∀ a s₁, x s = .ok a s₁ → Q a s₁ → Exits R E (f a) s₁) :
    Exits R E (x >>= f) s where
  gives b s' run := by
    obtain ⟨a, s₁, first, rest⟩ := bind_ok.1 run
    exact (hf a s₁ first (hx.gives a s₁ first)).gives b s' rest
  leaves e s' run := by
    change EStateM.bind x f s = .error e s' at run
    unfold EStateM.bind at run
    cases first : x s with
    | ok a s₁ =>
      rw [first] at run
      exact (hf a s₁ first (hx.gives a s₁ first)).leaves e s' run
    | error e₁ s₁ =>
      rw [first] at run
      obtain ⟨-, rfl⟩ := EStateM.Result.error.inj run
      exact hx.leaves e₁ s₁ first

theorem get_bind {f : σ → EStateM ε σ β} (h : Exits R E (f s) s) :
    Exits R E (MonadState.get >>= f) s := ⟨h.gives, h.leaves⟩

theorem modify {f : σ → σ} {Q : Unit → σ → Prop} (h : Q () (f s)) :
    Exits Q E (modify f : EStateM ε σ Unit) s where
  gives u s' run := by
    obtain rfl := modify_ok.1 run
    exact h
  leaves e s' run := by cases run

theorem of_eq {y : EStateM ε σ α} {s₁ : σ} (h : Exits Q E y s₁) (same : x s = y s₁) :
    Exits Q E x s :=
  ⟨fun a s' run => h.gives a s' (same ▸ run), fun e s' run => h.leaves e s' (same ▸ run)⟩

theorem mono {Q' : α → σ → Prop} (h : Exits Q E x s) (gives : ∀ a s', Q a s' → Q' a s')
    (leaves : ∀ s', E s' → F s') : Exits Q' F x s :=
  ⟨fun a s' run => gives a s' (h.gives a s' run), fun e s' run => leaves s' (h.leaves e s' run)⟩

end Exits

/-- Work that keeps a relation to the state it begins in, whichever way it ends. -/
abbrev Holds (S : σ → σ → Prop) (x : EStateM ε σ α) : Prop :=
  ∀ s, Exits (fun _ => S s) (S s) x s

namespace Holds

variable {S : σ → σ → Prop} {x : EStateM ε σ α} {f : α → EStateM ε σ β}

theorem pure (refl : ∀ s, S s s) (a : α) : Holds S (Pure.pure a : EStateM ε σ α) :=
  fun s => .pure (refl s)

theorem throw (refl : ∀ s, S s s) (e : ε) : Holds S (MonadExcept.throw e : EStateM ε σ α) :=
  fun s => .throw (refl s)

theorem bind (trans : ∀ a b c, S a b → S b c → S a c) (hx : Holds S x)
    (hf : ∀ a, Holds S (f a)) : Holds S (x >>= f) := fun s =>
  .bind (hx s) fun a s₁ _ h => (hf a s₁).mono (fun _ s' => trans s s₁ s' h) fun s' => trans s s₁ s' h

theorem get_bind {f : σ → EStateM ε σ β} (h : ∀ s, Holds S (f s)) :
    Holds S (MonadState.get >>= f) := fun s => .get_bind (h s s)

theorem foldlM {f : β → α → EStateM ε σ β} (refl : ∀ s, S s s)
    (trans : ∀ a b c, S a b → S b c → S a c) (h : ∀ b a, Holds S (f b a)) (as : List α) (b : β) :
    Holds S (as.foldlM f b) := by
  induction as generalizing b with
  | nil => exact pure refl b
  | cons a as ih =>
    rw [List.foldlM_cons]
    exact bind trans (h b a) ih

end Holds

/-! ## Something kept beside the state -/

/-- How work ends, without what is kept beside the state. -/
def plainly : EStateM.Result ε (σ × τ) α → EStateM.Result ε σ α
  | .ok a w => .ok a w.1
  | .error e w => .error e w.1

/-- Work with something kept beside its state ends as the work without it. -/
def Shadows (x : EStateM ε (σ × τ) α) (y : EStateM ε σ α) : Prop := ∀ w, plainly (x w) = y w.1

namespace Shadows

variable {x : EStateM ε (σ × τ) α} {y : EStateM ε σ α} {f : α → EStateM ε (σ × τ) β}
  {g : α → EStateM ε σ β} {a : α} {e : ε} {s' : σ} {w : σ × τ}

theorem exists_ok (h : Shadows x y) (run : y w.1 = .ok a s') : ∃ t', x w = .ok a (s', t') := by
  have same := h w
  rw [run] at same
  cases hx : x w with
  | ok b v =>
    rw [hx] at same
    obtain ⟨rfl, rfl⟩ := EStateM.Result.ok.inj same
    exact ⟨v.2, rfl⟩
  | error e v =>
    rw [hx] at same
    cases same

theorem exists_error (h : Shadows x y) (run : y w.1 = .error e s') :
    ∃ t', x w = .error e (s', t') := by
  have same := h w
  rw [run] at same
  cases hx : x w with
  | ok b v =>
    rw [hx] at same
    cases same
  | error e v =>
    rw [hx] at same
    obtain ⟨rfl, rfl⟩ := EStateM.Result.error.inj same
    exact ⟨v.2, rfl⟩

theorem pure (a : α) :
    Shadows (Pure.pure a : EStateM ε (σ × τ) α) (Pure.pure a : EStateM ε σ α) := fun _ => rfl

theorem throw (e : ε) : Shadows (MonadExcept.throw e : EStateM ε (σ × τ) α)
    (MonadExcept.throw e : EStateM ε σ α) := fun _ => rfl

theorem bind (hx : Shadows x y) (hf : ∀ a, Shadows (f a) (g a)) :
    Shadows (x >>= f) (y >>= g) := by
  intro w
  have same := hx w
  show plainly (EStateM.bind x f w) = EStateM.bind y g w.1
  unfold EStateM.bind
  rw [← same]
  cases x w with
  | ok a v => exact hf a v
  | error e v => rfl

theorem get_bind {f : σ × τ → EStateM ε (σ × τ) β} {g : σ → EStateM ε σ β}
    (h : ∀ w, Shadows (f w) (g w.1)) :
    Shadows (MonadState.get >>= f) (MonadState.get >>= g) := fun w => h w w

theorem modify {f : σ × τ → σ × τ} {g : σ → σ} (h : ∀ w, (f w).1 = g w.1) :
    Shadows (modify f : EStateM ε (σ × τ) Unit) (modify g : EStateM ε σ Unit) :=
  fun w => congrArg (EStateM.Result.ok ()) (h w)

theorem ite {p : Prop} [Decidable p] {x' : EStateM ε (σ × τ) α} {y' : EStateM ε σ α}
    (h : Shadows x y) (h' : Shadows x' y') :
    Shadows (if p then x else x') (if p then y else y') := by
  split
  · exact h
  · exact h'

theorem forM {f : α → EStateM ε (σ × τ) Unit} {g : α → EStateM ε σ Unit}
    (h : ∀ a, Shadows (f a) (g a)) (as : List α) : Shadows (as.forM f) (as.forM g) := by
  induction as with
  | nil => exact pure ()
  | cons a as ih =>
    rw [forM_cons, forM_cons]
    exact bind (h a) fun _ => ih

theorem foldlM {f : β → α → EStateM ε (σ × τ) β} {g : β → α → EStateM ε σ β}
    (h : ∀ b a, Shadows (f b a) (g b a)) (as : List α) (b : β) :
    Shadows (as.foldlM f b) (as.foldlM g b) := by
  induction as generalizing b with
  | nil => exact pure b
  | cons a as ih =>
    rw [List.foldlM_cons, List.foldlM_cons]
    exact bind (h b a) fun b => ih b

end Shadows

end Run

/-! ## Journals -/

/-- The hooks of a provider. -/
inductive Hook where
  | register
  | alter
  deriving DecidableEq, Repr

/-- A call of a hook. -/
structure HookCall (ρ : Type) where
  provider : ρ
  hook : Hook
  /-- Whether the hook ran to its end. -/
  completed : Bool := true
  deriving DecidableEq, Repr

/-- The call as it is noted if the hook fails. -/
def HookCall.aborted {ρ : Type} (x : HookCall ρ) : HookCall ρ := { x with completed := false }

variable {σ γ π ρ : Type}

/-- The providers are those that there were, and none has been taken up. -/
structure Builder.Same (b b' : Builder γ π ρ) : Prop where
  providers : b'.providers = b.providers
  booted : b'.booted = b.booted

/-- Providers may have been added, and none has been taken up. -/
structure Builder.Extended (b b' : Builder γ π ρ) : Prop where
  providers : b.providers <+: b'.providers
  booted : b'.booted = b.booted

namespace Yard

variable {yard : Yard σ γ π ρ}

/-- Hooks may add providers and may fail; nothing else has to do with the roster of providers. -/
structure Fair (yard : Yard σ γ π ρ) : Prop where
  builder_setBuilder : ∀ b s, yard.builder (yard.setBuilder b s) = b
  note : ∀ n s, (yard.builder s).Same (yard.builder (yard.note n s))
  allocate : ∀ g s, (yard.builder s).Same (yard.builder (yard.allocate g s).2)
  perform : ∀ p g, Run.Holds (fun s s' => (yard.builder s).Same (yard.builder s')) (yard.perform p g)
  register : ∀ p, Run.Holds (fun s s' => (yard.builder s).Extended (yard.builder s')) (yard.register p)
  alter : ∀ p, Run.Holds (fun s s' => (yard.builder s).Extended (yard.builder s')) (yard.alter p)

/-- Work beside which the journal stays as it is. -/
def beside {τ α : Type} (x : Work σ α) : Work (σ × τ) α := fun w =>
  match x w.1 with
  | .ok a s => .ok a (s, w.2)
  | .error e s => .error e (s, w.2)

/-- A hook whose call is entered in the journal, as soon as it is clear how it ended. -/
def entered (x : HookCall ρ) (hook : Work σ Unit) : Work (σ × List (HookCall ρ)) Unit := fun w =>
  match hook w.1 with
  | .ok _ s => .ok () (s, w.2 ++ [x])
  | .error e s => .error e (s, w.2 ++ [x.aborted])

/-- The world with a journal of the hooks that are called. -/
def journaled (yard : Yard σ γ π ρ) : Yard (σ × List (HookCall ρ)) γ π ρ where
  builder w := yard.builder w.1
  setBuilder b w := (yard.setBuilder b w.1, w.2)
  graph g w := yard.graph g w.1
  allocate g w := ((yard.allocate g w.1).1, (yard.allocate g w.1).2, w.2)
  perform p g := beside (yard.perform p g)
  passName := yard.passName
  register p := entered ⟨p, .register, true⟩ (yard.register p)
  alter p := entered ⟨p, .alter, true⟩ (yard.alter p)
  providerName := yard.providerName
  note n w := (yard.note n w.1, w.2)

open Run

theorem beside_shadows {τ α : Type} (x : Work σ α) : Shadows (beside x : Work (σ × τ) α) x := by
  intro w
  unfold beside
  cases x w.1 <;> rfl

theorem entered_shadows (x : HookCall ρ) (hook : Work σ Unit) : Shadows (entered x hook) hook := by
  intro w
  unfold entered
  cases hook w.1 <;> rfl

theorem check_shadows {τ α : Type} (x : Except Failure α) :
    Shadows (check x : Work (σ × τ) α) (check x : Work σ α) := by
  cases x with
  | ok a => exact .pure a
  | error e => exact .throw e

/-! ## A journal changes nothing -/

theorem bootProviders_shadows (rounds : Nat) :
    Shadows (yard.journaled.bootProviders rounds) (yard.bootProviders rounds) := by
  induction rounds with
  | zero => exact .throw _
  | succ rounds ih =>
    unfold bootProviders
    refine .bind ?_ fun pending => ?_
    · exact .get_bind fun w => .bind (.modify fun _ => rfl) fun _ => .pure _
    · cases pending with
      | nil => exact .pure ()
      | cons p ps =>
        refine .bind (.forM (fun q => ?_) _) fun _ => .bind (.forM (fun q => ?_) _) fun _ => ih
        · exact .bind (.modify fun _ => rfl) fun _ => entered_shadows _ _
        · exact entered_shadows _ _

theorem inPhase_shadows {τ α : Type} {x : Work (σ × τ) α} {y : Work σ α} (h : Shadows x y)
    (phase : Phase) : Shadows (Pipeline.inPhase phase x) (Pipeline.inPhase phase y) := by
  intro w
  have same := h w
  unfold Pipeline.inPhase
  rw [← same]
  cases x w <;> rfl

theorem snapshotBefore_shadows (phase : Phase) (g : γ) :
    Shadows (Pipeline.snapshotBefore yard.journaled.host phase g)
      (Pipeline.snapshotBefore yard.host phase g) := by
  unfold Pipeline.snapshotBefore
  split
  · exact .get_bind fun w => .bind (check_shadows _) fun _ => .pure _
  · exact .pure _

theorem runPass_shadows (s : Scheduled π) (g : γ) :
    Shadows (Pipeline.runPass yard.journaled.host s g) (Pipeline.runPass yard.host s g) := by
  unfold Pipeline.runPass
  refine .bind (.modify fun _ => rfl) fun _ => .bind (snapshotBefore_shadows s.phase g) fun before =>
    .bind (inPhase_shadows (beside_shadows _) s.phase) fun returned => ?_
  cases returned with
  | other typeName => exact .throw _
  | graph other =>
    cases before with
    | none => exact .pure _
    | some before => exact .throw _
  | same =>
    cases before with
    | none => exact .pure _
    | some before =>
      refine .get_bind fun w => .bind (check_shadows _) fun now => .ite ?_ ?_
      · exact .bind (.throw _) fun _ => .pure _
      · exact .pure _

theorem run_shadows (g : γ) :
    Shadows (Pipeline.run yard.journaled.host g) (Pipeline.run yard.host g) :=
  .foldlM (fun g _ => .get_bind fun _ => .foldlM (fun g s => runPass_shadows s g) _ g) _ g

/-- With a journal a compilation ends as it does without. -/
theorem compile_shadows (rounds : Nat) :
    Shadows (yard.journaled.compile rounds) (yard.compile rounds) := by
  unfold compile
  refine .bind (bootProviders_shadows rounds) fun _ => .get_bind fun w => .get_bind fun w' =>
    .bind (check_shadows _) fun source => .bind ?_ fun working => .bind (run_shadows working)
      fun final => .get_bind fun _ => .get_bind fun _ => .bind (check_shadows _) fun c =>
        .bind (.modify fun _ => rfl) fun _ => .pure c
  exact fun _ => rfl

end Yard

end Wiring
