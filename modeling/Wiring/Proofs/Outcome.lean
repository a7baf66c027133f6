import Wiring.Graph.Build
import Wiring.Proofs.Lists

/-!
# Successful runs

What it takes for a computation that can fail to succeed, step by step: for results alone, for
computations with a state, and for work on a graph.
-/

namespace Wiring

section Results

variable {ε α β : Type}

theorem bind_eq_ok {x : Except ε α} {f : α → Except ε β} {b : β} :
    (x >>= f) = .ok b ↔ ∃ a, x = .ok a ∧ f a = .ok b := by
  cases x <;> simp [bind, Except.bind]

theorem ok_bind {a : α} {f : α → Except ε β} : ((.ok a : Except ε α) >>= f) = f a := rfl

theorem bind_ne_ok {x : Except ε α} {f : α → Except ε β} {b : β} (h : ∀ a, f a ≠ .ok b) :
    (x >>= f) ≠ .ok b := fun fine => by
  obtain ⟨a, -, ha⟩ := bind_eq_ok.1 fine
  exact h a ha

theorem map_eq_ok {x : Except ε α} {f : α → β} {b : β} :
    x.map f = .ok b ↔ ∃ a, x = .ok a ∧ f a = b := by
  cases x <;> simp [Except.map]

@[simp] theorem pure_eq_ok {a b : α} : (pure a : Except ε α) = .ok b ↔ a = b := by
  simp [pure, Except.pure]

@[simp] theorem throw_ne_ok {e : ε} {a : α} : (throw e : Except ε α) ≠ .ok a := by
  simp [throw, throwThe, MonadExceptOf.throw]

theorem exists_ok_of_isOk {x : Except ε α} (h : x.isOk = true) : ∃ a, x = .ok a := by
  cases x with
  | ok a => exact ⟨a, rfl⟩
  | error e => cases h

/-- A list is worked through if each item is, and the results stand place by place. -/
theorem mapM_eq_ok {f : α → Except ε β} {as : List α} {bs : List β} :
    as.mapM f = .ok bs ↔ List.Forall₂ (fun a b => f a = .ok b) as bs := by
  induction as generalizing bs with
  | nil => cases bs <;> simp
  | cons a as ih =>
    rw [List.mapM_cons, bind_eq_ok]
    constructor
    · rintro ⟨b, hb, h⟩
      obtain ⟨rest, hrest, h⟩ := bind_eq_ok.1 h
      obtain rfl := pure_eq_ok.1 h
      exact .cons hb (ih.1 hrest)
    · rintro (_ | ⟨hb, hrest⟩)
      exact ⟨_, hb, bind_eq_ok.2 ⟨_, ih.2 hrest, rfl⟩⟩

/-- A list can be worked through if and only if each item can. -/
theorem mapM_succeeds {f : α → Except ε β} {as : List α} :
    (∃ bs, as.mapM f = .ok bs) ↔ ∀ a ∈ as, ∃ b, f a = .ok b := by
  simp only [mapM_eq_ok]
  constructor
  · rintro ⟨bs, h⟩ a ha
    obtain ⟨b, -, hb⟩ := forall₂_mem_left h ha
    exact ⟨b, hb⟩
  · exact forall₂_exists

theorem forM_cons {m : Type → Type} [Monad m] {f : α → m Unit} {a : α} {as : List α} :
    (a :: as).forM f = f a >>= fun _ => as.forM f := rfl

theorem forM_eq_ok {f : α → Except ε Unit} {as : List α} {u : Unit} :
    as.forM f = .ok u ↔ ∀ a ∈ as, f a = .ok () := by
  induction as with
  | nil => simp [List.forM]
  | cons a as ih =>
    rw [forM_cons, bind_eq_ok, List.forall_mem_cons, ← ih]
    exact ⟨fun ⟨_, ha, h⟩ => ⟨ha, h⟩, fun ⟨ha, h⟩ => ⟨_, ha, h⟩⟩

/-- Where a test gives an answer for each entry, a list is filtered by the answers. -/
theorem filterM_of_ok {p : α → Except ε Bool} {q : α → Bool} {as : List α}
    (h : ∀ a ∈ as, p a = .ok (q a)) : as.filterM p = .ok (as.filter q) := by
  have aux (acc : List α) : as.filterAuxM p acc = .ok ((as.filter q).reverse ++ acc) := by
    induction as generalizing acc with
    | nil => rfl
    | cons a as ih =>
      rw [List.filterAuxM, h a List.mem_cons_self, ok_bind]
      have ih := fun acc => ih (fun b hb => h b (List.mem_cons_of_mem a hb)) acc
      cases hq : q a with
      | true => simpa [hq] using ih (a :: acc)
      | false => simpa [hq] using ih acc
  rw [List.filterM, aux]
  simp

/-- What holds at first and is kept by each item holds when a fold succeeds. -/
theorem foldlM_ok_induct {f : β → α → Except ε β} {as : List α} {b b' : β} (I : β → Prop)
    (h : as.foldlM f b = .ok b') (start : I b)
    (step : ∀ a ∈ as, ∀ b b', I b → f b a = .ok b' → I b') : I b' := by
  induction as generalizing b with
  | nil =>
    obtain rfl := pure_eq_ok.1 h
    exact start
  | cons a as ih =>
    rw [List.foldlM_cons, bind_eq_ok] at h
    obtain ⟨b₁, hb, h⟩ := h
    exact ih h (step a List.mem_cons_self b b₁ start hb) fun c hc =>
      step c (List.mem_cons_of_mem a hc)

/-- What holds at first and is kept by each item, of those that are taken in, holds when a fold
succeeds. -/
theorem foldlM_ok_done {f : β → α → Except ε β} {as : List α} {b b' : β} (I : List α → β → Prop)
    (h : as.foldlM f b = .ok b') (start : I [] b)
    (step : ∀ done a b b', I done b → f b a = .ok b' → I (done ++ [a]) b') : I as b' := by
  suffices key : ∀ rest done b, I done b → rest.foldlM f b = .ok b' → I (done ++ rest) b' from
    key as [] b start h
  intro rest
  induction rest with
  | nil =>
    intro done b inv h
    obtain rfl := pure_eq_ok.1 h
    rwa [List.append_nil]
  | cons a rest ih =>
    intro done b inv h
    rw [List.foldlM_cons, bind_eq_ok] at h
    obtain ⟨b₁, hb, h⟩ := h
    rw [List.append_cons]
    exact ih (done ++ [a]) b₁ (step done a b b₁ inv hb) h

/-- A fold that each item can be taken in, from results that it leads back to, can be done. -/
theorem foldlM_ok_of {f : β → α → Except ε β} {as : List α} {b : β} (I : β → Prop) (start : I b)
    (step : ∀ a ∈ as, ∀ b, I b → ∃ b', f b a = .ok b' ∧ I b') :
    ∃ b', as.foldlM f b = .ok b' ∧ I b' := by
  induction as generalizing b with
  | nil => exact ⟨b, rfl, start⟩
  | cons a as ih =>
    obtain ⟨b₁, h₁, i₁⟩ := step a List.mem_cons_self b start
    obtain ⟨b', h', i'⟩ := ih i₁ fun c hc => step c (List.mem_cons_of_mem a hc)
    exact ⟨b', bind_eq_ok.2 ⟨b₁, h₁, h'⟩, i'⟩

/-- A fold can be done if and only if each item can be taken in, whatever it is taken into. -/
theorem foldlM_succeeds {f : β → α → Except ε β} {P : α → Prop}
    (each : ∀ b a, (∃ b', f b a = .ok b') ↔ P a) {as : List α} {b : β} :
    (∃ b', as.foldlM f b = .ok b') ↔ ∀ a ∈ as, P a := by
  induction as generalizing b with
  | nil => simp [pure, Except.pure]
  | cons a as ih =>
    simp only [List.foldlM_cons, bind_eq_ok, List.forall_mem_cons]
    constructor
    · rintro ⟨b', b₁, h₁, h⟩
      exact ⟨(each b a).1 ⟨b₁, h₁⟩, ih.1 ⟨b', h⟩⟩
    · rintro ⟨ha, rest⟩
      obtain ⟨b₁, h₁⟩ := (each b a).2 ha
      obtain ⟨b', h⟩ := (ih (b := b₁)).2 rest
      exact ⟨b', b₁, h₁, h⟩

@[simp] theorem discard_eq_ok {x : Except ε α} {u : Unit} :
    discard x = .ok u ↔ ∃ a, x = .ok a := by
  cases x <;> simp [discard, Functor.mapConst, Except.map]

end Results

/-! ## Computations with a state -/

namespace Run

variable {ε σ α β : Type}

@[simp] theorem bind_ok {x : EStateM ε σ α} {f : α → EStateM ε σ β} {s s' : σ} {b : β} :
    (x >>= f) s = .ok b s' ↔ ∃ a s₁, x s = .ok a s₁ ∧ f a s₁ = .ok b s' := by
  show EStateM.bind x f s = _ ↔ _
  unfold EStateM.bind
  cases x s <;> simp

@[simp] theorem map_ok {x : EStateM ε σ α} {f : α → β} {s s' : σ} {b : β} :
    (f <$> x) s = .ok b s' ↔ ∃ a, x s = .ok a s' ∧ f a = b := by
  show EStateM.map f x s = _ ↔ _
  unfold EStateM.map
  cases x s <;> simp [and_comm]

@[simp] theorem pure_ok {a b : α} {s s' : σ} :
    (pure a : EStateM ε σ α) s = .ok b s' ↔ a = b ∧ s = s' := by
  show EStateM.pure a s = _ ↔ _
  simp [EStateM.pure]

@[simp] theorem throw_ok {e : ε} {a : α} {s s' : σ} :
    (throw e : EStateM ε σ α) s = .ok a s' ↔ False := by
  show EStateM.Result.error e s = _ ↔ _
  simp

@[simp] theorem get_ok {s s₁ s' : σ} : (get : EStateM ε σ σ) s = .ok s₁ s' ↔ s = s₁ ∧ s = s' := by
  show EStateM.Result.ok s s = _ ↔ _
  simp

theorem get_bind {f : σ → EStateM ε σ α} {s : σ} : (get >>= f) s = f s s := rfl

@[simp] theorem modify_ok {f : σ → σ} {s s' : σ} {u : Unit} :
    (modify f : EStateM ε σ Unit) s = .ok u s' ↔ f s = s' := by
  show EStateM.Result.ok PUnit.unit (f s) = _ ↔ _
  simp

@[simp] theorem discard_ok {x : EStateM ε σ α} {s s' : σ} {u : Unit} :
    discard x s = .ok u s' ↔ ∃ a, x s = .ok a s' := by
  show EStateM.map _ x s = _ ↔ _
  unfold EStateM.map
  cases x s <;> simp

/-- What holds at first and is kept by each item holds when all items are done. -/
theorem forM_ok_induct {f : α → EStateM ε σ Unit} {as : List α} {s s' : σ} {u : Unit}
    (I : List α → σ → Prop) (h : as.forM f s = .ok u s') (start : I [] s)
    (step : ∀ done a rest s₁ s₂, as = done ++ a :: rest → I done s₁ → f a s₁ = .ok () s₂ →
      I (done ++ [a]) s₂) : I as s' := by
  suffices key : ∀ rest done s₁, as = done ++ rest → I done s₁ → rest.forM f s₁ = .ok u s' →
      I as s' from key as [] s rfl start h
  intro rest
  induction rest with
  | nil =>
    intro done s₁ split inv run
    obtain ⟨-, rfl⟩ : (() : Unit) = u ∧ s₁ = s' := by simpa using run
    rw [split, List.append_nil]
    exact inv
  | cons a rest ih =>
    intro done s₁ split inv run
    rw [forM_cons, bind_ok] at run
    obtain ⟨_, s₂, ha, run⟩ := run
    exact ih (done ++ [a]) s₂ (by simp [split]) (step done a rest s₁ s₂ split inv ha) run

/-- Work that each item can be done in, from states that it leads back to, can be done. -/
theorem forM_ok_of {f : α → EStateM ε σ Unit} (I : σ → Prop) {as : List α} {s : σ}
    (start : I s) (step : ∀ a ∈ as, ∀ s, I s → ∃ s', f a s = .ok () s' ∧ I s') :
    ∃ s', as.forM f s = .ok () s' ∧ I s' := by
  induction as generalizing s with
  | nil => exact ⟨s, by simp, start⟩
  | cons a as ih =>
    obtain ⟨s₁, h₁, i₁⟩ := step a List.mem_cons_self s start
    obtain ⟨s', h', i'⟩ := ih i₁ fun b hb => step b (List.mem_cons_of_mem a hb)
    exact ⟨s', by rw [forM_cons, bind_ok]; exact ⟨_, _, h₁, h'⟩, i'⟩

/-- Work on each item that leaves the state as it is leaves it so. -/
theorem forM_idle {f : α → EStateM ε σ Unit} {as : List α} {s : σ}
    (h : ∀ a ∈ as, f a s = .ok () s) : as.forM f s = .ok () s := by
  obtain ⟨s', run, e⟩ := forM_ok_of (f := f) (fun s' => s' = s) rfl fun a ha s' e =>
    ⟨s, by rw [e, h a ha], rfl⟩
  rw [run, e]

/-- `y` succeeds wherever `x` does, with the same result and in the same state. -/
def Follows (x y : EStateM ε σ α) : Prop := ∀ s a s', x s = .ok a s' → y s = .ok a s'

namespace Follows

theorem refl (x : EStateM ε σ α) : Follows x x := fun _ _ _ h => h

theorem throw {e : ε} {y : EStateM ε σ α} : Follows (throw e) y :=
  fun _ _ _ h => (throw_ok.1 h).elim

theorem bind {x y : EStateM ε σ α} {f g : α → EStateM ε σ β} (hx : Follows x y)
    (hf : ∀ a, Follows (f a) (g a)) : Follows (x >>= f) (y >>= g) := fun s b s' h => by
  obtain ⟨a, s₁, ha, h⟩ := bind_ok.1 h
  exact bind_ok.2 ⟨a, s₁, hx s a s₁ ha, hf a s₁ b s' h⟩

theorem forM {f g : α → EStateM ε σ Unit} {as : List α} (h : ∀ a ∈ as, Follows (f a) (g a)) :
    Follows (as.forM f) (as.forM g) := by
  induction as with
  | nil => exact .refl _
  | cons a as ih =>
    rw [forM_cons, forM_cons]
    exact (h a List.mem_cons_self).bind fun _ => ih fun b hb => h b (List.mem_cons_of_mem a hb)

end Follows

end Run

/-! ## Work on a graph -/

namespace Build

variable {α : Type} {w w' : Workbench} {u : Unit}

@[simp] theorem graph_ok {g : Graph} : Build.graph w = .ok g w' ↔ w.graph = g ∧ w = w' := by
  unfold Build.graph
  simp only [Run.bind_ok, Run.get_ok, Run.pure_ok]
  grind

@[simp] theorem check_ok {x : Except Failure α} {a : α} :
    Build.check x w = .ok a w' ↔ x = .ok a ∧ w = w' := by
  cases x <;> simp [Build.check]

@[simp] theorem change_ok {f : Graph → Graph} :
    Build.change f w = .ok u w' ↔ { w with graph := f w.graph } = w' := by
  simp [Build.change]

@[simp] theorem note_ok {n : Note} :
    Build.note n w = .ok u w' ↔ { w with notes := w.notes ++ [n] } = w' := by
  simp [Build.note]

theorem changeOrFail_ok {f : Graph → Option Failure × Graph} :
    Build.changeOrFail f w = .ok u w' ↔
      ∃ g, f w.graph = (none, g) ∧ { w with graph := g } = w' := by
  unfold Build.changeOrFail
  rcases h : f w.graph with ⟨_ | e, g⟩ <;> simp [h]

/-- The job turns one graph into another. -/
def Gives (job : Build α) (g : Graph) (a : α) (g' : Graph) : Prop :=
  ∃ notes notes', job ⟨g, notes⟩ = .ok a ⟨g', notes'⟩

/-- The job turns one graph into another, whatever was noted before. -/
def Does (job : Build α) (g : Graph) (a : α) (g' : Graph) : Prop :=
  ∀ notes, ∃ notes', job ⟨g, notes⟩ = .ok a ⟨g', notes'⟩

variable {β : Type} {g g₁ g' : Graph} {a : α} {b : β} {x : Build α} {f : α → Build β}

theorem gives_bind (h : Gives (x >>= f) g b g') : ∃ a g₁, Gives x g a g₁ ∧ Gives (f a) g₁ b g' := by
  obtain ⟨notes, notes', h⟩ := h
  obtain ⟨a, ⟨g₁, notes₁⟩, hx, hf⟩ := Run.bind_ok.1 h
  exact ⟨a, g₁, ⟨notes, notes₁, hx⟩, notes₁, notes', hf⟩

theorem gives_pure {c : α} : Gives (pure c) g a g' ↔ c = a ∧ g = g' := by
  simp [Gives]

theorem gives_graph {h : Graph} : Gives Build.graph g h g' ↔ g = h ∧ g = g' := by
  simp [Gives]

theorem gives_check {x : Except Failure α} : Gives (Build.check x) g a g' ↔ x = .ok a ∧ g = g' := by
  simp [Gives]

theorem gives_change {f : Graph → Graph} : Gives (Build.change f) g u g' ↔ f g = g' := by
  simp [Gives]

theorem gives_note {n : Note} : Gives (Build.note n) g u g' ↔ g = g' := by
  simp [Gives]

theorem gives_discard : Gives (discard x) g u g' ↔ ∃ a, Gives x g a g' := by
  simp only [Gives, Run.discard_ok]
  exact ⟨fun ⟨n, n', a, h⟩ => ⟨a, n, n', h⟩, fun ⟨a, n, n', h⟩ => ⟨n, n', a, h⟩⟩

theorem gives_throw {e : Failure} : ¬ Gives (throw e) g a g' := by
  simp [Gives]

theorem gives_changeOrFail {f : Graph → Option Failure × Graph} :
    Gives (Build.changeOrFail f) g u g' ↔ f g = (none, g') := by
  simp only [Gives, changeOrFail_ok, Workbench.mk.injEq]
  constructor
  · rintro ⟨_, _, _, h, rfl, -⟩
    exact h
  · exact fun h => ⟨[], [], g', h, rfl, rfl⟩

/-- What holds at first and is kept by each item holds when all items are done. -/
theorem gives_forM {γ : Type} {f : γ → Build Unit} {cs : List γ} (I : List γ → Graph → Prop)
    (h : Gives (cs.forM f) g u g') (start : I [] g)
    (step : ∀ done c rest g₁ g₂, cs = done ++ c :: rest → I done g₁ → Gives (f c) g₁ () g₂ →
      I (done ++ [c]) g₂) : I cs g' := by
  obtain ⟨notes, notes', h⟩ := h
  exact Run.forM_ok_induct (fun done w => I done w.graph) h start
    fun done c rest w₁ w₂ split inv run =>
      step done c rest w₁.graph w₂.graph split inv ⟨w₁.notes, w₂.notes, run⟩

theorem gives_forM_note {γ : Type} {n : γ → Note} {cs : List γ}
    (h : Gives (cs.forM fun c => Build.note (n c)) g u g') : g = g' :=
  gives_forM (fun _ g₁ => g = g₁) h rfl
    fun _ _ _ _ _ _ same run => same.trans (gives_note.1 run)

namespace Does

theorem bind (hx : Does x g a g₁) (hf : Does (f a) g₁ b g') : Does (x >>= f) g b g' := by
  intro notes
  obtain ⟨notes₁, h₁⟩ := hx notes
  obtain ⟨notes', h'⟩ := hf notes₁
  exact ⟨notes', Run.bind_ok.2 ⟨a, _, h₁, h'⟩⟩

theorem pure (a : α) : Does (Pure.pure a) g a g := fun notes => ⟨notes, rfl⟩

theorem graph : Does Build.graph g g g := fun notes => ⟨notes, rfl⟩

theorem check {x : Except Failure α} (h : x = .ok a) : Does (Build.check x) g a g :=
  fun notes => ⟨notes, by rw [h]; rfl⟩

theorem change {f : Graph → Graph} (h : f g = g') : Does (Build.change f) g () g' :=
  fun notes => ⟨notes, by rw [← h]; rfl⟩

theorem note (n : Note) : Does (Build.note n) g () g := fun notes => ⟨notes ++ [n], rfl⟩

theorem discard (h : Does x g a g') : Does (Functor.discard x) g () g' := by
  intro notes
  obtain ⟨notes', h⟩ := h notes
  exact ⟨notes', Run.discard_ok.2 ⟨a, h⟩⟩

theorem changeOrFail {f : Graph → Option Failure × Graph} (h : f g = (none, g')) :
    Does (Build.changeOrFail f) g () g' :=
  fun notes => ⟨notes, changeOrFail_ok.2 ⟨g', h, rfl⟩⟩

theorem gives (h : Does x g a g') : Gives x g a g' := by
  obtain ⟨notes', h⟩ := h []
  exact ⟨[], notes', h⟩

/-- Work that each item can be done in, from graphs that it leads back to, can be done. -/
theorem exists_forM {γ : Type} {f : γ → Build Unit} (cs : List γ) (I : List γ → Graph → Prop)
    (start : I [] g) (step : ∀ done c rest g₁, cs = done ++ c :: rest → I done g₁ →
      ∃ g₂, Does (f c) g₁ () g₂ ∧ I (done ++ [c]) g₂) : ∃ g', Does (cs.forM f) g () g' ∧ I cs g' := by
  suffices key : ∀ rest done g₁, cs = done ++ rest → I done g₁ →
      ∃ g', Does (rest.forM f) g₁ () g' ∧ I cs g' from key cs [] g rfl start
  intro rest
  induction rest with
  | nil => exact fun done g₁ split inv => ⟨g₁, pure (), by rwa [split, List.append_nil]⟩
  | cons c rest ih =>
    intro done g₁ split inv
    obtain ⟨g₂, does, inv⟩ := step done c rest g₁ split inv
    obtain ⟨g', does', inv⟩ := ih (done ++ [c]) g₂ (by simp [split]) inv
    exact ⟨g', by rw [forM_cons]; exact does.bind does', inv⟩

/-- Items of which none changes the graph leave it as it is. -/
theorem forM {γ : Type} {f : γ → Build Unit} {cs : List γ} (h : ∀ c ∈ cs, Does (f c) g () g) :
    Does (cs.forM f) g () g := by
  induction cs with
  | nil => exact pure ()
  | cons c cs ih =>
    rw [forM_cons]
    exact (h c List.mem_cons_self).bind (ih fun d hd => h d (List.mem_cons_of_mem c hd))

end Does

end Build

end Wiring

/-!
## What work keeps

An invariant of work with a state: what holds before the work holds after it, if it is done. A
failure may leave anything behind.
-/

namespace Wiring.Run

variable {ε σ α β : Type}

/-- What holds of the state before the work holds of it afterwards. -/
def Keeps (I : σ → Prop) (x : EStateM ε σ α) : Prop :=
  ∀ s a s', I s → x s = .ok a s' → I s'

namespace Keeps

variable {I : σ → Prop} {x : EStateM ε σ α} {f : α → EStateM ε σ β}

theorem pure (a : α) : Keeps I (pure a : EStateM ε σ α) := by
  intro s b s' inv run
  obtain ⟨-, rfl⟩ := pure_ok.1 run
  exact inv

theorem throw (e : ε) : Keeps I (throw e : EStateM ε σ α) := by
  intro s a s' _ run
  exact absurd run (by simp)

theorem bind (hx : Keeps I x) (hf : ∀ a, Keeps I (f a)) : Keeps I (x >>= f) := by
  intro s b s' inv run
  obtain ⟨a, s₁, first, rest⟩ := bind_ok.1 run
  exact hf a s₁ b s' (hx s a s₁ inv first) rest

theorem get : Keeps I (get : EStateM ε σ σ) := by
  intro s a s' inv run
  obtain ⟨-, rfl⟩ := get_ok.1 run
  exact inv

/-- What is done with the state may rest on what holds of it. -/
theorem get_bind {f : σ → EStateM ε σ β} (h : ∀ s, I s → Keeps I (f s)) :
    Keeps I (MonadState.get >>= f) := by
  intro s b s' inv run
  exact h s inv s b s' inv run

theorem modify {f : σ → σ} (h : ∀ s, I s → I (f s)) : Keeps I (modify f : EStateM ε σ Unit) := by
  intro s u s' inv run
  obtain rfl := modify_ok.1 run
  exact h s inv

theorem mapM {f : α → EStateM ε σ β} {as : List α} (h : ∀ a ∈ as, Keeps I (f a)) :
    Keeps I (as.mapM f) := by
  induction as with
  | nil => exact pure []
  | cons a as ih =>
    rw [List.mapM_cons]
    refine bind (h a List.mem_cons_self) fun b => bind (ih fun c hc => ?_) fun bs => pure _
    exact h c (List.mem_cons_of_mem a hc)

theorem forM {f : α → EStateM ε σ Unit} {as : List α} (h : ∀ a ∈ as, Keeps I (f a)) :
    Keeps I (as.forM f) := by
  induction as with
  | nil => exact pure ()
  | cons a as ih =>
    rw [forM_cons]
    exact bind (h a List.mem_cons_self) fun _ => ih fun c hc => h c (List.mem_cons_of_mem a hc)

theorem discard (h : Keeps I x) : Keeps I (discard x) := by
  intro s u s' inv run
  obtain ⟨a, run⟩ := discard_ok.1 run
  exact h s a s' inv run

end Keeps

end Wiring.Run

/-! ### Work on a graph -/

namespace Wiring.Build

/-- Whatever was noted, it holds of the graph. -/
def On (P : Graph → Prop) (w : Workbench) : Prop := P w.graph

/-- The job keeps what holds of the graph. -/
abbrev Keeps {α : Type} (P : Graph → Prop) (job : Build α) : Prop := Run.Keeps (On P) job

end Wiring.Build

namespace Wiring.Run.Keeps

open Build

variable {α β : Type} {P : Graph → Prop}

theorem gives {job : Build α} {g g' : Graph} {a : α} (h : Build.Keeps P job) (hg : P g)
    (run : Gives job g a g') : P g' := by
  obtain ⟨notes, notes', run⟩ := run
  exact h ⟨g, notes⟩ a ⟨g', notes'⟩ hg run

theorem graph_bind {f : Graph → Build β} (h : ∀ g, P g → Build.Keeps P (f g)) :
    Build.Keeps P (Build.graph >>= f) := by
  intro w b w' hw run
  obtain ⟨g, w₁, hg, run⟩ := Run.bind_ok.1 run
  obtain ⟨rfl, rfl⟩ := graph_ok.1 hg
  exact h _ hw w b w' hw run

theorem graph : Build.Keeps P Build.graph := graph_bind fun g _ => .pure g

theorem check {x : Except Failure α} : Build.Keeps P (Build.check x) := by
  cases x with
  | ok a => exact .pure a
  | error e => exact .throw e

/-- What follows a check may rest on its result. -/
theorem check_bind {x : Except Failure α} {f : α → Build β}
    (h : ∀ a, x = .ok a → Build.Keeps P (f a)) : Build.Keeps P (Build.check x >>= f) := by
  intro w b w' hw run
  obtain ⟨a, w₁, hc, run⟩ := Run.bind_ok.1 run
  obtain ⟨hx, rfl⟩ := check_ok.1 hc
  exact h a hx w b w' hw run

theorem note (n : Note) : Build.Keeps P (Build.note n) := .modify fun _ hw => hw

theorem change {f : Graph → Graph} (h : ∀ g, P g → P (f g)) : Build.Keeps P (Build.change f) :=
  .modify fun w hw => h w.graph hw

theorem changeOrFail {f : Graph → Option Failure × Graph}
    (h : ∀ g g', P g → f g = (none, g') → P g') : Build.Keeps P (Build.changeOrFail f) := by
  intro w u w' hw run
  obtain ⟨g, hg, rfl⟩ := changeOrFail_ok.1 run
  exact h w.graph g hw hg

end Wiring.Run.Keeps
