import Wiring.Builder.Workshop
import Wiring.Proofs.Outcome

/-!
# What a compilation runs

The pipeline of a builder runs the passes of the library one after the other, in the order of their
schedule.
-/

namespace Wiring

/-- Passes that are run one after the other turn one graph into another; the index goes along. -/
inductive Runs : List Builtin → TagIndex → Graph → TagIndex → Graph → Prop
  | nil {index : TagIndex} {g : Graph} : Runs [] index g index g
  | cons {b : Builtin} {bs : List Builtin} {index index₁ index' : TagIndex} {g g₁ g' : Graph} :
    Build.Gives (b.run index) g index₁ g₁ → Runs bs index₁ g₁ index' g' →
      Runs (b :: bs) index g index' g'

theorem Runs.append {bs cs : List Builtin} {index index₁ index' : TagIndex} {g g₁ g' : Graph}
    (h : Runs bs index g index₁ g₁) (h' : Runs cs index₁ g₁ index' g') :
    Runs (bs ++ cs) index g index' g' := by
  induction h with
  | nil => exact h'
  | cons run _ ih => exact .cons run (ih h')

/-- Passes in a row are those of a first part, then the rest. -/
theorem Runs.split {bs cs : List Builtin} {index index' : TagIndex} {g g' : Graph}
    (h : Runs (bs ++ cs) index g index' g') :
    ∃ index₁ g₁, Runs bs index g index₁ g₁ ∧ Runs cs index₁ g₁ index' g' := by
  induction bs generalizing index g with
  | nil => exact ⟨index, g, .nil, h⟩
  | cons b bs ih =>
    obtain - | ⟨run, h⟩ := h
    obtain ⟨index₁, g₁, h₁, h₂⟩ := ih h
    exact ⟨index₁, g₁, .cons run h₁, h₂⟩

theorem Builtin.run_eq {b : Builtin} (ne : b ≠ .autoconfigure) (index : TagIndex) :
    b.run index = b.job >>= fun _ => pure index := if_neg ne

theorem Builtin.gives_job {b : Builtin} {index index' : TagIndex} {g g' : Graph}
    (h : Build.Gives (b.run index) g index' g') (ne : b ≠ .autoconfigure) :
    Build.Gives b.job g () g' ∧ index' = index := by
  rw [run_eq ne] at h
  obtain ⟨_, g₁, hj, h⟩ := Build.gives_bind h
  obtain ⟨rfl, rfl⟩ := Build.gives_pure.1 h
  exact ⟨hj, rfl⟩

/-- A pass that leaves the index alone comes before those that follow. -/
theorem Runs.job {b : Builtin} {bs : List Builtin} {index index' : TagIndex} {g g₁ g' : Graph}
    (ne : b ≠ .autoconfigure) (job : Build.Gives b.job g () g₁) (rest : Runs bs index g₁ index' g') :
    Runs (b :: bs) index g index' g' := by
  obtain ⟨notes, notes', run⟩ := job
  refine .cons ⟨notes, notes', ?_⟩ rest
  rw [Builtin.run_eq ne]
  exact Run.bind_ok.2 ⟨(), _, run, rfl⟩

/-- A pass that leaves the index alone has been run before those that follow. -/
theorem Runs.of_job {b : Builtin} {bs : List Builtin} {index index' : TagIndex} {g g' : Graph}
    (h : Runs (b :: bs) index g index' g') (ne : b ≠ .autoconfigure) :
    ∃ g₁, Build.Gives b.job g () g₁ ∧ Runs bs index g₁ index' g' := by
  obtain - | ⟨run, rest⟩ := h
  obtain ⟨job, rfl⟩ := Builtin.gives_job run ne
  exact ⟨_, job, rest⟩

theorem Builtin.gives_validate {check : Graph → Except Failure Unit} {g g' : Graph} {u : Unit}
    (h : Build.Gives (validate check) g u g') : check g = .ok () ∧ g' = g := by
  obtain ⟨_, _, hg, h⟩ := Build.gives_bind h
  obtain ⟨rfl, rfl⟩ := Build.gives_graph.1 hg
  obtain ⟨hc, rfl⟩ := Build.gives_check.1 h
  exact ⟨hc, rfl⟩

/-- The graph can be validated: its tags have all parts, and it equals its own snapshot. -/
def Graph.Stable (g : Graph) : Prop :=
  ∃ snapshot, g.snapshot = .ok snapshot ∧ snapshot.same (snapshot.refresh g.recipes) = true

/-- Passes can be run one after the other, each in its phase, and turn one graph into another. Those of
the validation phase leave a stable graph as it is. -/
inductive Goes : List (Builtin × Phase) → TagIndex → Graph → TagIndex → Graph → Prop
  | nil {index : TagIndex} {g : Graph} : Goes [] index g index g
  | cons {b : Builtin} {phase : Phase} {rest : List (Builtin × Phase)} {index index₁ index' : TagIndex}
    {g g₁ g' : Graph} :
    Build.Does (b.run index) g index₁ g₁ → (phase = .beforeRemoving → g.Stable ∧ g₁ = g) →
      Goes rest index₁ g₁ index' g' → Goes ((b, phase) :: rest) index g index' g'

theorem Goes.split {bs cs : List (Builtin × Phase)} {index index' : TagIndex} {g g' : Graph}
    (h : Goes (bs ++ cs) index g index' g') :
    ∃ index₁ g₁, Goes bs index g index₁ g₁ ∧ Goes cs index₁ g₁ index' g' := by
  induction bs generalizing index g with
  | nil => exact ⟨index, g, .nil, h⟩
  | cons b bs ih =>
    obtain - | ⟨does, stable, h⟩ := h
    obtain ⟨index₁, g₁, h₁, h₂⟩ := ih h
    exact ⟨index₁, g₁, .cons does stable h₁, h₂⟩

/-- Passes that leave a stable graph as it is can be run on it. -/
theorem Goes.idle {g : Graph} (stable : g.Stable) {P : TagIndex → Prop}
    (does : ∀ (b : Builtin) (index : TagIndex), P index →
      ∃ index', P index' ∧ Build.Does (b.run index) g index' g)
    (passes : List (Builtin × Phase)) {index : TagIndex} (start : P index) :
    ∃ index', Goes passes index g index' g := by
  induction passes generalizing index with
  | nil => exact ⟨index, .nil⟩
  | cons b passes ih =>
    obtain ⟨index₁, start, run⟩ := does b.1 index start
    obtain ⟨index', rest⟩ := ih start
    exact ⟨index', .cons run (fun _ => ⟨stable, rfl⟩) rest⟩

namespace Workshop

variable {w w' : Workshop} {bench : Bench} {s : Scheduled Builtin}

/-- The passes that a builder starts with. -/
abbrev standard : Pipeline Builtin := .standard fun b => b

theorem ofPhase_standard (phase : Phase) :
    standard.ofPhase phase = standard.passes.filter fun s => s.phase == phase := by
  unfold Pipeline.ofPhase Pipeline.ordered
  rw [List.mergeSort_of_pairwise (by decide)]

/-- Phase by phase, a builder starts with the schedule of the library. -/
theorem standard_schedule : (Phase.all.flatMap fun phase =>
    (standard.ofPhase phase).map fun s => (s.pass, s.phase)) =
    Builtin.schedule.map fun e => (e.1, e.2.1) := by
  simp only [ofPhase_standard]
  decide

/-! ## Single passes -/

theorem perform_ok {b : Builtin} {r : Returned Bench}
    (h : perform b .working w = .ok r w') : r = .same ∧ ∃ left : Workbench,
      b.run w.index ⟨w.working, w.notes⟩ = .ok w'.index left ∧
        w' = { w with working := left.graph, notes := left.notes, index := w'.index } := by
  unfold perform at h
  cases run : b.run w.index ⟨w.graph .working, w.notes⟩ with
  | error e left => simp [run] at h
  | ok index left =>
    simp only [run] at h
    injection h with hr hw
    subst hw
    exact ⟨hr.symm, left, run, rfl⟩

theorem check_ok {σ α : Type} {x : Except Failure α} {a : α} {s s' : σ} :
    (Pipeline.check x : Pipeline.Work σ α) s = .ok a s' ↔ x = .ok a ∧ s = s' := by
  cases x <;> simp [Pipeline.check]

theorem inPhase_ok {σ α : Type} {phase : Phase} {work : Pipeline.Work σ α} {a : α} {s s' : σ} :
    Pipeline.inPhase phase work s = .ok a s' ↔ work s = .ok a s' := by
  unfold Pipeline.inPhase
  cases work s <;> simp

/-- A snapshot is taken of the validation phase alone, and changes nothing. -/
theorem snapshotBefore_ok {phase : Phase} {before : Option Snapshot} :
    Pipeline.snapshotBefore yard.host phase bench w = .ok before w' ↔
      w = w' ∧ (if phase = .beforeRemoving then
        ∃ snapshot, (w.graph bench).snapshot = .ok snapshot ∧ before = some snapshot
        else before = none) := by
  unfold Pipeline.snapshotBefore
  split
  · simp only [Run.get_bind, Run.bind_ok, check_ok, Run.pure_ok]
    constructor
    · rintro ⟨snapshot, _, ⟨hs, rfl⟩, rfl, rfl⟩
      exact ⟨rfl, snapshot, hs, rfl⟩
    · rintro ⟨rfl, snapshot, hs, rfl⟩
      exact ⟨snapshot, _, ⟨hs, rfl⟩, rfl, rfl⟩
  · rw [Run.pure_ok, and_comm, eq_comm (a := none)]

theorem runPass_ok (h : Pipeline.runPass yard.host s .working w = .ok bench w') :
    bench = .working ∧ w'.builder = w.builder ∧
      Build.Gives (s.pass.run w.index) w.working w'.index w'.working := by
  unfold Pipeline.runPass at h
  simp only [Run.bind_ok, Run.modify_ok] at h
  obtain ⟨_, _, rfl, before, w₁, hs, r, w₂, hp, h⟩ := h
  obtain ⟨rfl, -⟩ := snapshotBefore_ok.1 hs
  obtain ⟨rfl, left, run, hw⟩ := perform_ok (inPhase_ok.1 hp)
  obtain ⟨rfl, rfl⟩ : bench = .working ∧ w' = w₂ := by
    cases before with
    | none => simpa [eq_comm] using h
    | some before =>
      simp only [Run.get_bind, Run.bind_ok, check_ok] at h
      obtain ⟨_, _, ⟨-, rfl⟩, h⟩ := h
      split at h
      · simp at h
      · simpa [eq_comm] using h
  rw [hw]
  exact ⟨rfl, rfl, _, _, run⟩

theorem perform_does {g : Graph} {b : Builtin} {index : TagIndex}
    (does : Build.Does (b.run w.index) w.working index g) :
    ∃ notes, perform b .working w = .ok .same { w with working := g, notes, index } := by
  obtain ⟨notes, run⟩ := does w.notes
  refine ⟨notes, ?_⟩
  unfold perform
  have run : b.run w.index ⟨w.graph .working, w.notes⟩ = .ok index ⟨g, notes⟩ := run
  rw [run]
  rfl

/-- A pass that can be run on the graph is run, in whatever phase. -/
theorem runPass_does {g : Graph} {index : TagIndex}
    (does : Build.Does (s.pass.run w.index) w.working index g)
    (stable : s.phase = .beforeRemoving → w.working.Stable ∧ g = w.working) :
    ∃ w', Pipeline.runPass yard.host s .working w = .ok .working w' ∧ w'.working = g ∧
      w'.index = index ∧ w'.builder = w.builder := by
  let w₁ : Workshop := yard.note (.pass s.pass.name s.phase s.priority) w
  obtain ⟨notes, run⟩ := perform_does (w := w₁) does
  refine ⟨{ w₁ with working := g, notes, index }, ?_, rfl, rfl, rfl⟩
  unfold Pipeline.runPass
  refine Run.bind_ok.2 ⟨(), w₁, Run.modify_ok.2 rfl, ?_⟩
  by_cases validation : s.phase = .beforeRemoving
  · obtain ⟨⟨snapshot, taken, same⟩, rfl⟩ := stable validation
    have unchanged : w₁.graph .working = w.working := rfl
    refine Run.bind_ok.2 ⟨some snapshot, w₁, snapshotBefore_ok.2 ⟨rfl, ?_⟩, ?_⟩
    · rw [if_pos validation]
      exact ⟨snapshot, by rw [unchanged, taken], rfl⟩
    refine Run.bind_ok.2 ⟨.same, _, inPhase_ok.2 run, ?_⟩
    simp only [Run.get_bind, Run.bind_ok, check_ok]
    refine ⟨snapshot, _, ⟨taken, rfl⟩, ?_⟩
    have unchanged : yard.host.graph .working { w₁ with working := w.working, notes, index } =
        w.working := rfl
    rw [unchanged, same]
    rfl
  · refine Run.bind_ok.2 ⟨none, w₁, snapshotBefore_ok.2 ⟨rfl, if_neg validation ▸ rfl⟩, ?_⟩
    exact Run.bind_ok.2 ⟨.same, _, inPhase_ok.2 run, rfl⟩

/-! ## All passes -/

theorem runPasses_ok {passes : List (Scheduled Builtin)} {start : Bench} (hs : start = .working)
    (h : passes.foldlM (fun bench s => Pipeline.runPass yard.host s bench) start w = .ok bench w') :
    bench = .working ∧ w'.builder = w.builder ∧
      Runs (passes.map (·.pass)) w.index w.working w'.index w'.working := by
  induction passes generalizing w start with
  | nil =>
    obtain ⟨rfl, rfl⟩ := Run.pure_ok.1 h
    exact ⟨hs, rfl, .nil⟩
  | cons s passes ih =>
    subst hs
    rw [List.foldlM_cons, Run.bind_ok] at h
    obtain ⟨mid, w₁, hp, h⟩ := h
    obtain ⟨rfl, hb, run⟩ := runPass_ok hp
    obtain ⟨rfl, hb', runs⟩ := ih rfl h
    exact ⟨rfl, hb'.trans hb, .cons run runs⟩

theorem run_ok (builder : w.builder.pipeline = standard)
    (h : Pipeline.run yard.host .working w = .ok bench w') :
    bench = .working ∧ w'.builder = w.builder ∧
      Runs (Builtin.schedule.map (·.1)) w.index w.working w'.index w'.working := by
  have phases (phases : List Phase) : ∀ {w : Workshop} {start : Bench}, start = .working →
      w.builder.pipeline = standard →
      phases.foldlM (Pipeline.runPhase yard.host) start w = .ok bench w' →
      bench = .working ∧ w'.builder = w.builder ∧
        Runs (phases.flatMap fun phase => (standard.ofPhase phase).map (·.pass)) w.index w.working
          w'.index w'.working := by
    induction phases with
    | nil =>
      intro w start hs _ h
      obtain ⟨rfl, rfl⟩ := Run.pure_ok.1 h
      exact ⟨hs, rfl, .nil⟩
    | cons phase phases ih =>
      rintro w _ rfl builder h
      rw [List.foldlM_cons, Run.bind_ok] at h
      obtain ⟨mid, w₁, hp, h⟩ := h
      have same : yard.host.pipeline w = standard := builder
      rw [Pipeline.runPhase, Run.get_bind, same] at hp
      obtain ⟨rfl, hb, runs⟩ := runPasses_ok rfl hp
      obtain ⟨rfl, hb', runs'⟩ := ih rfl (hb ▸ builder) h
      refine ⟨rfl, hb'.trans hb, ?_⟩
      rw [List.flatMap_cons]
      exact runs.append runs'
  have all : (Phase.all.flatMap fun phase => (standard.ofPhase phase).map (·.pass)) =
      Builtin.schedule.map (·.1) := by
    simpa only [List.map_flatMap, List.map_map, Function.comp_def] using
      congrArg (List.map Prod.fst) standard_schedule
  exact all ▸ phases Phase.all rfl builder h

theorem runPasses_does {passes : List (Scheduled Builtin)} {index : TagIndex} {g : Graph}
    (goes : Goes (passes.map fun s => (s.pass, s.phase)) w.index w.working index g) :
    ∃ w', passes.foldlM (fun bench s => Pipeline.runPass yard.host s bench) .working w =
        .ok .working w' ∧
      w'.working = g ∧ w'.index = index ∧ w'.builder = w.builder := by
  induction passes generalizing w with
  | nil =>
    cases goes
    exact ⟨w, rfl, rfl, rfl, rfl⟩
  | cons s passes ih =>
    obtain - | ⟨does, stable, goes⟩ := goes
    obtain ⟨w₁, run, rfl, rfl, hb⟩ := runPass_does does stable
    obtain ⟨w', rest, hw, hi, hb'⟩ := ih goes
    exact ⟨w', by rw [List.foldlM_cons]; exact Run.bind_ok.2 ⟨_, _, run, rest⟩, hw, hi, hb'.trans hb⟩

/-- What the passes of the library can be run on goes through the pipeline. -/
theorem run_does {index : TagIndex} {g : Graph} (builder : w.builder.pipeline = standard)
    (goes : Goes (Builtin.schedule.map fun e => (e.1, e.2.1)) w.index w.working index g) :
    ∃ w', Pipeline.run yard.host .working w = .ok .working w' ∧ w'.working = g ∧
      w'.builder = w.builder := by
  have phases (phases : List Phase) : ∀ {w : Workshop}, w.builder.pipeline = standard →
      Goes (phases.flatMap fun phase => (standard.ofPhase phase).map fun s => (s.pass, s.phase))
        w.index w.working index g →
      ∃ w', phases.foldlM (Pipeline.runPhase yard.host) .working w = .ok .working w' ∧
        w'.working = g ∧ w'.builder = w.builder := by
    induction phases with
    | nil =>
      intro w _ goes
      cases goes
      exact ⟨w, rfl, rfl, rfl⟩
    | cons phase phases ih =>
      intro w builder goes
      rw [List.flatMap_cons] at goes
      obtain ⟨index₁, g₁, first, rest⟩ := goes.split
      obtain ⟨w₁, run, rfl, rfl, hb⟩ := runPasses_does first
      obtain ⟨w', run', hw, hb'⟩ := ih (hb ▸ builder) rest
      have same : yard.host.pipeline w = standard := builder
      refine ⟨w', ?_, hw, hb'.trans hb⟩
      rw [List.foldlM_cons, Run.bind_ok]
      refine ⟨.working, w₁, ?_, run'⟩
      rw [Pipeline.runPhase, Run.get_bind, same]
      exact run
  exact phases Phase.all builder (standard_schedule ▸ goes)

end Workshop

namespace Graph

variable {g f : Graph} {rules : List TagRule} {lockMode : LockMode} {c : Container}

theorem runPasses_ok (h : g.runPasses rules = .ok f) :
    ∃ index, Runs (Builtin.schedule.map (·.1)) { rules } g index f := by
  unfold runPasses at h
  dsimp only at h
  split at h
  next bench w run =>
    obtain ⟨rfl, -, runs⟩ := Workshop.run_ok rfl run
    exact ⟨w.index, Except.ok.inj h ▸ runs⟩
  next => cases h

theorem yard_check_ok {σ α : Type} {x : Except Failure α} {a : α} {s s' : σ} :
    (Yard.check x : Yard.Work σ α) s = .ok a s' ↔ x = .ok a ∧ s = s' := by
  cases x <;> simp [Yard.check]

/-- The workshop that a graph is compiled in. -/
abbrev workshop (g : Graph) (rules : List TagRule) (lockMode : LockMode) : Workshop :=
  let w := Workshop.start g rules
  { w with builder := { w.builder with lockMode } }

/-- There are no providers to boot. -/
theorem boots : Workshop.yard.bootProviders 1 (workshop g rules lockMode) =
    .ok () (workshop g rules lockMode) := rfl

/-- A compilation copies the registry, runs the passes and freezes what comes out. -/
theorem compile_ok (h : g.compile rules lockMode = .ok c) :
    ∃ source f index, g.copy = .ok source ∧
      Runs (Builtin.schedule.map (·.1)) { rules } source index f ∧
      Container.freeze f lockMode (Yard.privateIds source) = .ok c := by
  have compiled : ∃ w, Workshop.yard.compile 1 (workshop g rules lockMode) = .ok c w := by
    unfold compile at h
    dsimp only at h
    split at h
    next c' w run => exact ⟨w, Except.ok.inj h ▸ run⟩
    next => cases h
  obtain ⟨w, h⟩ := compiled
  unfold Yard.compile at h
  simp only [Run.bind_ok, Run.get_bind, boots, yard_check_ok, Run.modify_ok, Run.pure_ok] at h
  obtain ⟨_, _, hb, source, _, ⟨copied, rfl⟩, bench, w₁, allocated, final, w₂, run, d, w₃,
    ⟨frozen, rfl⟩, _, _, -, rfl, -⟩ := h
  injection hb with _ hb
  subst hb
  injection allocated with hw hb
  subst hw hb
  obtain ⟨rfl, hb, runs⟩ := Workshop.run_ok rfl run
  have lock : (Workshop.yard.builder w₂).lockMode = lockMode := congrArg (·.lockMode) hb
  rw [lock] at frozen
  exact ⟨source, w₂.working, w₂.index, copied, runs, frozen⟩

/-- What the passes make of a copy of the registry is frozen. -/
theorem compile_does {source f : Graph} {index : TagIndex} (copied : g.copy = .ok source)
    (goes : Goes (Builtin.schedule.map fun e => (e.1, e.2.1)) { rules } source index f)
    (frozen : Container.freeze f lockMode (Yard.privateIds source) = .ok c) :
    g.compile rules lockMode = .ok c := by
  obtain ⟨w, run, hw, hb⟩ := Workshop.run_does
    (w := { workshop g rules lockMode with working := source }) rfl goes
  have lock : (Workshop.yard.builder w).lockMode = lockMode := congrArg (·.lockMode) hb
  have compiled : ∃ w, Workshop.yard.compile 1 (workshop g rules lockMode) = .ok c w := by
    unfold Yard.compile
    simp only [Run.bind_ok, Run.get_bind, boots, yard_check_ok, Run.modify_ok, Run.pure_ok]
    refine ⟨_, _, _, rfl, source, _, ⟨copied, rfl⟩, .working, _, rfl, .working, w, run, c, w,
      ⟨?_, rfl⟩, (), _, rfl, rfl, rfl⟩
    rw [lock]
    subst hw
    exact frozen
  obtain ⟨w, h⟩ := compiled
  unfold compile
  dsimp only
  rw [h]

end Graph

end Wiring
