import Wiring.Proofs.Outcome

/-!
# What computations fail with

A computation fails by `E` if each of its failures is one that `E` admits: for results alone, for
computations with a state, and for work on a graph. What follows a step has to be looked at only
after the step has succeeded.
-/

namespace Wiring

/-- The failure is a fault, which a pipeline reports with its phase. -/
def Failure.IsFault (e : Failure) : Prop := ∃ why phase, e = .fault why phase

theorem Failure.isFault (why : Fault) (phase : Option Phase) :
    (Failure.fault why phase).IsFault := ⟨why, phase, rfl⟩

section Results

variable {ε α β : Type} {E F : ε → Prop}

/-- If there is no result, the failure is one that `E` admits. -/
def FailsBy (E : ε → Prop) (x : Except ε α) : Prop := ∀ e, x = .error e → E e

namespace FailsBy

variable {x : Except ε α}

theorem ok (a : α) : FailsBy E (.ok a : Except ε α) := by
  rintro e ⟨⟩

theorem of_ok (h : ∃ a, x = .ok a) : FailsBy E x := by
  obtain ⟨a, rfl⟩ := h
  exact ok a

theorem error {e : ε} (h : E e) : FailsBy E (.error e : Except ε α) := by
  rintro _ ⟨⟩
  exact h

theorem mono (h : FailsBy E x) (imp : ∀ e, E e → F e) : FailsBy F x := fun e he => imp e (h e he)

theorem bind {f : α → Except ε β} (hx : FailsBy E x) (hf : ∀ a, x = .ok a → FailsBy E (f a)) :
    FailsBy E (x >>= f) := by
  cases x with
  | ok a => exact hf a rfl
  | error e => exact error (hx e rfl)

theorem map {f : α → β} (hx : FailsBy E x) : FailsBy E (x.map f) := by
  cases x with
  | ok a => exact ok (f a)
  | error e => exact error (hx e rfl)

theorem mapM {f : α → Except ε β} {as : List α} (h : ∀ a ∈ as, FailsBy E (f a)) :
    FailsBy E (as.mapM f) := by
  induction as with
  | nil => exact ok []
  | cons a as ih =>
    rw [List.mapM_cons]
    exact bind (h a List.mem_cons_self) fun b _ =>
      bind (ih fun c hc => h c (List.mem_cons_of_mem a hc)) fun bs _ => ok _

theorem forM {f : α → Except ε Unit} {as : List α} (h : ∀ a ∈ as, FailsBy E (f a)) :
    FailsBy E (as.forM f) := by
  induction as with
  | nil => exact ok ()
  | cons a as ih =>
    rw [forM_cons]
    exact bind (h a List.mem_cons_self) fun _ _ => ih fun c hc => h c (List.mem_cons_of_mem a hc)

/-- A fold fails as its steps do, from results of which something holds. -/
theorem foldlM_of {f : β → α → Except ε β} {as : List α} {b : β} (I : β → Prop) (start : I b)
    (step : ∀ a ∈ as, ∀ b, I b → FailsBy E (f b a) ∧ ∀ b', f b a = .ok b' → I b') :
    FailsBy E (as.foldlM f b) := by
  induction as generalizing b with
  | nil => exact ok b
  | cons a as ih =>
    obtain ⟨first, next⟩ := step a List.mem_cons_self b start
    rw [List.foldlM_cons]
    exact bind first fun b' run => ih (next b' run) fun c hc => step c (List.mem_cons_of_mem a hc)

theorem foldlM {f : β → α → Except ε β} {as : List α} {b : β}
    (h : ∀ a ∈ as, ∀ b, FailsBy E (f b a)) : FailsBy E (as.foldlM f b) :=
  foldlM_of (fun _ => True) trivial fun a ha b _ => ⟨h a ha b, fun _ _ => trivial⟩

theorem discard (h : FailsBy E x) : FailsBy E (Functor.discard x) := by
  cases x with
  | ok a => exact ok ()
  | error e => exact error (h e rfl)

end FailsBy

end Results

/-! ## Computations with a state -/

namespace Run

variable {ε σ α β : Type} {E : ε → Prop} {s : σ}

/-- If the work fails in a state, it fails with what `E` admits. -/
def FailsBy (E : ε → Prop) (x : EStateM ε σ α) (s : σ) : Prop := ∀ e s', x s = .error e s' → E e

namespace FailsBy

variable {x : EStateM ε σ α}

theorem pure (a : α) : FailsBy E (Pure.pure a : EStateM ε σ α) s := by
  rintro e s' ⟨⟩

theorem throw {e : ε} (h : E e) : FailsBy E (MonadExcept.throw e : EStateM ε σ α) s := by
  rintro _ _ ⟨⟩
  exact h

theorem bind {f : α → EStateM ε σ β} (hx : FailsBy E x s)
    (hf : ∀ a s₁, x s = .ok a s₁ → FailsBy E (f a) s₁) : FailsBy E (x >>= f) s := by
  intro e s' h
  change EStateM.bind x f s = .error e s' at h
  unfold EStateM.bind at h
  cases run : x s with
  | ok a s₁ =>
    rw [run] at h
    exact hf a s₁ run e s' h
  | error e₁ s₁ =>
    rw [run] at h
    obtain ⟨rfl, rfl⟩ := EStateM.Result.error.inj h
    exact hx e₁ s₁ run

theorem get : FailsBy E (MonadState.get : EStateM ε σ σ) s := by
  rintro e s' ⟨⟩

theorem modify {f : σ → σ} : FailsBy E (modify f : EStateM ε σ Unit) s := by
  rintro e s' ⟨⟩

theorem mono {F : ε → Prop} (h : FailsBy E x s) (imp : ∀ e, E e → F e) : FailsBy F x s :=
  fun e s' run => imp e (h e s' run)

theorem discard (h : FailsBy E x s) : FailsBy E (Functor.discard x) s := by
  intro e s' run
  change EStateM.map _ x s = .error e s' at run
  unfold EStateM.map at run
  cases first : x s with
  | ok a s₁ =>
    rw [first] at run
    cases run
  | error e₁ s₁ =>
    rw [first] at run
    obtain ⟨rfl, rfl⟩ := EStateM.Result.error.inj run
    exact h e₁ s₁ first

end FailsBy

/-- If the work fails in a state, it fails with what `E` admits, and if it is done, `Q` holds of its
result and of the state it ends in. -/
structure Ends (E : ε → Prop) (Q : α → σ → Prop) (x : EStateM ε σ α) (s : σ) : Prop where
  fails : FailsBy E x s
  gives : ∀ a s', x s = .ok a s' → Q a s'

namespace Ends

variable {x : EStateM ε σ α} {Q : α → σ → Prop} {R : β → σ → Prop}

theorem mono {Q' : α → σ → Prop} (h : Ends E Q x s) (imp : ∀ a s', Q a s' → Q' a s') :
    Ends E Q' x s := ⟨h.fails, fun a s' run => imp a s' (h.gives a s' run)⟩

theorem pure {a : α} (h : Q a s) : Ends E Q (Pure.pure a : EStateM ε σ α) s where
  fails := .pure a
  gives b s' run := by
    obtain ⟨rfl, rfl⟩ := pure_ok.1 run
    exact h

theorem throw {e : ε} (h : E e) : Ends E Q (MonadExcept.throw e : EStateM ε σ α) s where
  fails := .throw h
  gives a s' run := by simp at run

theorem bind {f : α → EStateM ε σ β} (hx : Ends E Q x s)
    (hf : ∀ a s₁, Q a s₁ → Ends E R (f a) s₁) : Ends E R (x >>= f) s where
  fails := hx.fails.bind fun a s₁ run => (hf a s₁ (hx.gives a s₁ run)).fails
  gives b s' run := by
    obtain ⟨a, s₁, first, rest⟩ := bind_ok.1 run
    exact (hf a s₁ (hx.gives a s₁ first)).gives b s' rest

theorem get_bind {f : σ → EStateM ε σ β} (h : Ends E R (f s) s) :
    Ends E R (MonadState.get >>= f) s :=
  bind (Q := fun s₁ s₂ => s₁ = s ∧ s₂ = s) ⟨.get, fun _ _ run => by simpa [eq_comm] using run⟩
    fun s₁ s₂ ⟨h₁, h₂⟩ => h₁ ▸ h₂ ▸ h

theorem modify {f : σ → σ} {Q : Unit → σ → Prop} (h : Q () (f s)) :
    Ends E Q (modify f : EStateM ε σ Unit) s where
  fails := .modify
  gives u s' run := by
    obtain rfl := modify_ok.1 run
    exact h

/-- Work on items that stand place by place beside others: so do the results, and what holds of the
state and of the items that are done holds afterwards of all of them. -/
theorem mapM {γ : Type} {f : α → EStateM ε σ β} {cs : List γ} {as : List α} {S : γ → α → Prop}
    (I : List γ → σ → Prop) (T : γ → β → Prop) (along : List.Forall₂ S cs as) (start : I [] s)
    (step : ∀ done, ∀ c ∈ cs, ∀ a, S c a → ∀ s, I done s →
      Ends E (fun b s' => T c b ∧ I (done ++ [c]) s') (f a) s) :
    Ends E (fun bs s' => List.Forall₂ T cs bs ∧ I cs s') (as.mapM f) s := by
  suffices key : ∀ done s, I done s →
      Ends E (fun bs s' => List.Forall₂ T cs bs ∧ I (done ++ cs) s') (as.mapM f) s from
    key [] s start
  induction along with
  | nil =>
    intro done s inv
    exact pure ⟨.nil, by simpa using inv⟩
  | @cons c a cs as related _ ih =>
    intro done s inv
    rw [List.mapM_cons]
    refine bind (step done c List.mem_cons_self a related s inv) fun b s₁ h => ?_
    refine bind (ih (fun done d hd => step done d (List.mem_cons_of_mem c hd)) _ s₁ h.2)
      fun bs s₂ h' => ?_
    exact pure ⟨.cons h.1 h'.1, by simpa using h'.2⟩

/-- Work on items one after the other, each in a state of which something holds. -/
theorem forM {f : α → EStateM ε σ Unit} {as : List α} (I : List α → σ → Prop) (start : I [] s)
    (step : ∀ done, ∀ a ∈ as, ∀ s, I done s → Ends E (fun _ s' => I (done ++ [a]) s') (f a) s) :
    Ends E (fun _ s' => I as s') (as.forM f) s := by
  suffices key : ∀ done s, I done s → Ends E (fun _ s' => I (done ++ as) s') (as.forM f) s from
    key [] s start
  induction as with
  | nil =>
    intro done s inv
    exact pure (by simpa using inv)
  | cons a as ih =>
    intro done s inv
    rw [forM_cons]
    refine bind (step done a List.mem_cons_self s inv) fun _ s₁ h => ?_
    simpa using ih (fun done c hc => step done c (List.mem_cons_of_mem a hc)) (done ++ [a]) s₁ h

end Ends

end Run

/-! ## Work on a graph -/

namespace Build

variable {α β : Type} {E : Failure → Prop} {g : Graph}

/-- If the job fails on a graph, it fails with what `E` admits. -/
def FailsBy (E : Failure → Prop) (job : Build α) (g : Graph) : Prop :=
  ∀ notes, Run.FailsBy E job ⟨g, notes⟩

namespace FailsBy

variable {x : Build α} {f : α → Build β}

theorem pure (a : α) : FailsBy E (Pure.pure a) g := fun _ => .pure a

theorem throw {e : Failure} (h : E e) : FailsBy E (MonadExcept.throw e : Build α) g :=
  fun _ => .throw h

theorem mono {F : Failure → Prop} (h : FailsBy E x g) (imp : ∀ e, E e → F e) : FailsBy F x g :=
  fun notes => (h notes).mono imp

theorem bind (hx : FailsBy E x g) (hf : ∀ a g₁, Gives x g a g₁ → FailsBy E (f a) g₁) :
    FailsBy E (x >>= f) g :=
  fun notes => .bind (hx notes) fun a w run => hf a w.graph ⟨notes, w.notes, run⟩ w.notes

theorem graph_bind {f : Graph → Build β} (h : FailsBy E (f g) g) :
    FailsBy E (Build.graph >>= f) g := fun notes => h notes

theorem check {c : Except Failure α} (h : Wiring.FailsBy E c) : FailsBy E (Build.check c) g := by
  cases c with
  | ok a => exact pure a
  | error e => exact throw (h e rfl)

theorem check_bind {c : Except Failure α} (hx : Wiring.FailsBy E c)
    (hf : ∀ a, c = .ok a → FailsBy E (f a) g) : FailsBy E (Build.check c >>= f) g :=
  bind (check hx) fun a g₁ run => by
    obtain ⟨hc, rfl⟩ := gives_check.1 run
    exact hf a hc

theorem change {f : Graph → Graph} : FailsBy E (Build.change f) g := fun _ => .modify

theorem note {n : Note} : FailsBy E (Build.note n) g := fun _ => .modify

theorem discard (h : FailsBy E x g) : FailsBy E (Functor.discard x) g := fun notes =>
  .discard (h notes)

theorem changeOrFail {f : Graph → Option Failure × Graph} (h : ∀ e g', f g = (some e, g') → E e) :
    FailsBy E (Build.changeOrFail f) g := by
  unfold Build.changeOrFail
  refine graph_bind ?_
  rcases hf : f g with ⟨_ | e, g'⟩
  · exact bind change fun _ _ _ => pure ()
  · exact bind change fun _ _ _ => throw (h e g' hf)

/-- Items that are worked on one after the other, each on a graph of which something holds. -/
theorem forM {γ : Type} {f : γ → Build Unit} {cs : List γ} (I : List γ → Graph → Prop)
    (start : I [] g) (step : ∀ done c rest g₁, cs = done ++ c :: rest → I done g₁ →
      FailsBy E (f c) g₁ ∧ ∀ g₂, Gives (f c) g₁ () g₂ → I (done ++ [c]) g₂) :
    FailsBy E (cs.forM f) g := by
  suffices key : ∀ rest done g₁, cs = done ++ rest → I done g₁ → FailsBy E (rest.forM f) g₁ from
    key cs [] g rfl start
  intro rest
  induction rest with
  | nil => exact fun _ _ _ _ => pure ()
  | cons c rest ih =>
    intro done g₁ split inv
    obtain ⟨first, next⟩ := step done c rest g₁ split inv
    rw [forM_cons]
    exact bind first fun _ g₂ run => ih (done ++ [c]) g₂ (by simp [split]) (next g₂ run)

end FailsBy

end Build

end Wiring
