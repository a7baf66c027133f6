import Mathlib.Logic.Relation
import Wiring.Proofs.Builder.Validation

/-!
# The schedule of a pipeline

Passes may register passes while their pipeline runs. A phase runs with what is registered when it
begins, so a pass that is registered during a run takes part in it if and only if its phase has not
begun yet. Phases run in order; within a phase passes run by descending priority and then in the
order of their registration, each once, and each gets the graph that the one before has handed back.

That is so as long as passes return, and what they return is accepted: a graph, and in the validation
phase the graph that was given, with its structure unchanged.
-/

namespace Wiring

variable {σ γ π : Type}

theorem Phase.rank_inj {a b : Phase} (h : a.rank = b.rank) : a = b := by
  cases a <;> cases b <;> first | rfl | cases h

/-! ## Registrations -/

namespace Pipeline

variable {p q : Pipeline π} {x y : Scheduled π}

/-- One registration. -/
def Adds (p q : Pipeline π) : Prop := ∃ pass phase priority, q = p.add pass phase priority

/-- Any number of registrations. -/
def Grows : Pipeline π → Pipeline π → Prop := Relation.ReflTransGen Adds

/-- A pipeline that registrations have made. -/
def Built (p : Pipeline π) : Prop := Grows {} p

theorem Grows.sublist (h : Grows p q) : p.passes.Sublist q.passes := by
  induction h with
  | refl => exact .refl _
  | tail _ adds ih =>
    obtain ⟨pass, phase, priority, rfl⟩ := adds
    exact ih.trans (List.sublist_append_left _ _)

theorem Grows.mem (h : Grows p q) (hx : x ∈ p.passes) : x ∈ q.passes := h.sublist.subset hx

/-- Later registrations have higher numbers. -/
theorem Built.rising (h : Built p) : p.passes.Pairwise fun x y => x.sequence < y.sequence := by
  suffices all : p.passes.Pairwise (fun x y => x.sequence < y.sequence) ∧
      ∀ x ∈ p.passes, x.sequence < p.nextSequence from all.1
  induction h with
  | refl => exact ⟨.nil, by simp⟩
  | tail _ adds ih =>
    obtain ⟨pass, phase, priority, rfl⟩ := adds
    refine ⟨List.pairwise_append.2 ⟨ih.1, List.pairwise_singleton _ _, fun x hx y hy => ?_⟩,
      fun x hx => ?_⟩
    · obtain rfl := List.mem_singleton.1 hy
      exact ih.2 x hx
    · rcases List.mem_append.1 hx with hx | hx
      · exact Nat.lt_succ_of_lt (ih.2 x hx)
      · obtain rfl := List.mem_singleton.1 hx
        exact Nat.lt_succ_self _

theorem Built.nodup (h : Built p) : p.passes.Nodup :=
  h.rising.imp fun {x y} lt (same : x = y) => Nat.lt_irrefl _ (same ▸ lt)

/-! ## Order -/

/-- `x` comes before `y` in the schedule of a pipeline: by its phase, by its priority, or since it
was registered earlier. -/
def Before (p : Pipeline π) (x y : Scheduled π) : Prop :=
  x.phase.rank < y.phase.rank ∨ x.phase = y.phase ∧
    (y.priority < x.priority ∨ x.priority = y.priority ∧ [x, y].Sublist p.passes)

theorem Before.grows (h : Before p x y) (grows : Grows p q) : Before q x y := by
  rcases h with lt | ⟨same, lt | ⟨equal, earlier⟩⟩
  · exact .inl lt
  · exact .inr ⟨same, .inl lt⟩
  · exact .inr ⟨same, .inr ⟨equal, earlier.trans grows.sublist⟩⟩

theorem Before.rank_le (h : Before p x y) : x.phase.rank ≤ y.phase.rank := by
  rcases h with lt | ⟨same, -⟩
  · exact Nat.le_of_lt lt
  · exact Nat.le_of_eq (congrArg _ same)

/-- The order is that of phases, priorities and numbers. -/
theorem Before.numbers (built : Built p) (h : Before p x y) : x.phase.rank < y.phase.rank ∨
    x.phase.rank = y.phase.rank ∧
      (y.priority < x.priority ∨ x.priority = y.priority ∧ x.sequence < y.sequence) := by
  rcases h with lt | ⟨same, lt | ⟨equal, earlier⟩⟩
  · exact .inl lt
  · exact .inr ⟨congrArg _ same, .inl lt⟩
  · have lt : x.sequence < y.sequence :=
      List.rel_of_pairwise_cons (built.rising.sublist earlier) List.mem_cons_self
    exact .inr ⟨congrArg _ same, .inr ⟨equal, lt⟩⟩

theorem Before.asymm (built : Built p) (h : Before p x y) : ¬ Before p y x := fun back => by
  have := h.numbers built
  have := back.numbers built
  omega

theorem runsBefore_iff : x.runsBefore y = true ↔ x.phase.rank < y.phase.rank ∨
    x.phase.rank = y.phase.rank ∧
      (y.priority < x.priority ∨ x.priority = y.priority ∧ x.sequence ≤ y.sequence) := by
  unfold Scheduled.runsBefore
  simp only [bne_iff_ne]
  split
  · simp only [decide_eq_true_eq]
    omega
  · split <;> simp only [decide_eq_true_eq] <;> omega

/-- Of two passes with rising numbers the one with the lower number was registered earlier. -/
theorem sublist_of_rising {l : List (Scheduled π)}
    (rising : l.Pairwise fun x y => x.sequence < y.sequence) (hx : x ∈ l) (hy : y ∈ l) (ne : x ≠ y)
    (le : x.sequence ≤ y.sequence) : [x, y].Sublist l := by
  induction l with
  | nil => cases hx
  | cons z l ih =>
    obtain ⟨first, rising⟩ := List.pairwise_cons.1 rising
    rcases List.mem_cons.1 hx with rfl | later
    · have hy : y ∈ l := (List.mem_cons.1 hy).resolve_left (Ne.symm ne)
      exact (List.singleton_sublist.2 hy).cons_cons x
    · rcases List.mem_cons.1 hy with rfl | hy
      · exact absurd (first x later) (Nat.not_lt.2 le)
      · exact (ih rising later hy).cons z

/-- The passes of a pipeline stand in the order of the schedule. -/
theorem Built.ordered (h : Built p) : p.ordered.Pairwise p.Before := by
  have perm : p.ordered.Perm p.passes := List.mergeSort_perm _ _
  have sorted : p.ordered.Pairwise fun x y => x.runsBefore y = true := by
    refine List.pairwise_mergeSort (fun x y z hxy hyz => ?_) (fun x y => ?_) _
    · rw [runsBefore_iff] at hxy hyz ⊢
      omega
    · rw [Bool.or_eq_true, runsBefore_iff, runsBefore_iff]
      omega
  have apart : p.ordered.Pairwise (· ≠ ·) := perm.nodup_iff.2 h.nodup
  refine (sorted.and apart).imp_of_mem fun {x y} hx hy ⟨le, ne⟩ => ?_
  rcases runsBefore_iff.1 le with lt | ⟨same, lt | ⟨equal, le⟩⟩
  · exact .inl lt
  · exact .inr ⟨Phase.rank_inj same, .inl lt⟩
  · exact .inr ⟨Phase.rank_inj same,
      .inr ⟨equal, sublist_of_rising h.rising (perm.mem_iff.1 hx) (perm.mem_iff.1 hy) ne le⟩⟩

theorem mem_ofPhase {phase : Phase} : x ∈ p.ofPhase phase ↔ x ∈ p.passes ∧ x.phase = phase := by
  rw [ofPhase, List.mem_filter, ordered, (List.mergeSort_perm _ _).mem_iff, beq_iff_eq]

end Pipeline

open Pipeline

/-! ## Executions -/

/-- An execution of a pass. -/
structure Execution (σ γ π : Type) where
  scheduled : Scheduled π
  /-- The graph that the pass gets, and the state before it is announced. -/
  given : γ
  before : σ
  /-- The graph that comes of it, and the state that it leaves. -/
  returned : γ
  after : σ

/-- The graph that a pass hands back, if it is one. -/
def Returned.graph? (given : γ) : Returned γ → Option γ
  | .same => some given
  | .graph g => some g
  | .other _ => none

namespace Host

/-- Nothing that happens changes the pipeline, but that passes register others. -/
structure OnlyAdds (host : Host σ γ π) : Prop where
  note : ∀ n s, host.pipeline (host.note n s) = host.pipeline s
  perform : ∀ pass g s r s', host.perform pass g s = .ok r s' →
    Grows (host.pipeline s) (host.pipeline s')

/-- The pass is called, with the graph that it is given, and returns. -/
def Executes (host : Host σ γ π) (e : Execution σ γ π) : Prop :=
  ∃ r, host.perform e.scheduled.pass e.given (noted host e.scheduled e.before) = .ok r e.after ∧
    r.graph? e.given = some e.returned

/-- Executions one after the other: each starts with the graph that the one before has handed back,
and in the state that it has left. -/
inductive Linked (host : Host σ γ π) : γ → σ → List (Execution σ γ π) → γ → σ → Prop
  | nil {g : γ} {s : σ} : Linked host g s [] g s
  | cons {e : Execution σ γ π} {es : List (Execution σ γ π)} {g : γ} {s : σ} :
    host.Executes e → Linked host e.returned e.after es g s →
    Linked host e.given e.before (e :: es) g s

/-- The pass returns, and what it returns is accepted. -/
def Accepts (host : Host σ γ π) (x : Scheduled π) (g : γ) (s : σ) : Prop :=
  ∃ r s', host.perform x.pass g (noted host x s) = .ok r s' ∧ (r.graph? g).isSome ∧
    (x.phase = .beforeRemoving → r = .same ∧ ∃ before now,
      (host.graph g (noted host x s)).snapshot = .ok before ∧
      (host.graph g s').snapshot = .ok now ∧
      now.same (before.refresh (host.graph g s').recipes) = true)

end Host

/-- The state in which a phase begins: that after the executions of earlier phases. -/
def begins (phase : Phase) (s : σ) : List (Execution σ γ π) → σ
  | [] => s
  | e :: es => if e.scheduled.phase.rank < phase.rank then begins phase e.after es else s

namespace Host

/-- A pass is due: what comes before it in the schedule has been executed, and nothing else. -/
structure Due (host : Host σ γ π) (g : γ) (s : σ) (es : List (Execution σ γ π)) (g' : γ) (s' : σ)
    (x : Scheduled π) : Prop where
  linked : Linked host g s es g' s'
  inOrder : es.Pairwise fun d e => (host.pipeline s').Before d.scheduled e.scheduled
  earlier : ∀ y, y ∈ es.map (·.scheduled) ↔
    y ∈ (host.pipeline (begins y.phase s es)).passes ∧ (host.pipeline s').Before y x
  registered : x ∈ (host.pipeline (begins x.phase s es)).passes

/-- Each pass returns when it is due, and what it returns is accepted. -/
def Regular (host : Host σ γ π) (g : γ) (s : σ) : Prop :=
  ∀ es g' s' x, host.Due g s es g' s' x → host.Accepts x g' s'

variable {host : Host σ γ π} {g g₁ g' : γ} {s s₁ s' : σ} {es es' : List (Execution σ γ π)}
  {e : Execution σ γ π} {phase : Phase} {x : Scheduled π}

theorem Linked.append (h : Linked host g s es g₁ s₁) (h' : Linked host g₁ s₁ es' g' s') :
    Linked host g s (es ++ es') g' s' := by
  induction h with
  | nil => exact h'
  | cons executes _ ih => exact .cons executes (ih h')

theorem Linked.split {es₁ : List (Execution σ γ π)} (h : Linked host g s (es₁ ++ e :: es) g' s') :
    Linked host g s es₁ e.given e.before ∧ host.Executes e ∧
      Linked host e.returned e.after es g' s' := by
  induction es₁ generalizing g s with
  | nil =>
    cases h with
    | cons executes rest => exact ⟨.nil, executes, rest⟩
  | cons d es₁ ih =>
    cases h with
    | cons executes rest =>
      obtain ⟨before, rest⟩ := ih rest
      exact ⟨.cons executes before, rest⟩

/-! ## Growth -/

section Growth

variable (adds : host.OnlyAdds)

include adds

theorem Executes.grows (h : host.Executes e) :
    Grows (host.pipeline e.before) (host.pipeline e.after) := by
  obtain ⟨r, run, -⟩ := h
  have grows := adds.perform _ _ _ _ _ run
  rwa [noted, adds.note] at grows

theorem Linked.grows (h : Linked host g s es g' s') :
    Grows (host.pipeline s) (host.pipeline s') := by
  induction h with
  | nil => exact .refl
  | cons executes _ ih => exact (executes.grows adds).trans ih

/-- A phase begins on the way. -/
theorem Linked.grows_begins (h : Linked host g s es g' s') :
    Grows (host.pipeline s) (host.pipeline (begins phase s es)) ∧
      Grows (host.pipeline (begins phase s es)) (host.pipeline s') := by
  induction h with
  | nil => exact ⟨.refl, .refl⟩
  | @cons e es g s executes rest ih =>
    unfold begins
    split
    · exact ⟨(executes.grows adds).trans ih.1, ih.2⟩
    · exact ⟨.refl, (executes.grows adds).trans (rest.grows adds)⟩

end Growth

/-! ## Where a phase begins -/

theorem begins_of_later (later : ∀ e ∈ es, phase.rank ≤ e.scheduled.phase.rank) :
    begins phase s es = s := by
  cases es with
  | nil => rfl
  | cons e es => exact if_neg (Nat.not_lt.2 (later e List.mem_cons_self))

/-- Executions of earlier phases come before a phase begins. -/
theorem Linked.begins_append (h : Linked host g s es g₁ s₁)
    (earlier : ∀ e ∈ es, e.scheduled.phase.rank < phase.rank) :
    begins phase s (es ++ es') = begins phase s₁ es' := by
  induction h with
  | nil => rfl
  | cons _ _ ih =>
    rw [List.forall_mem_cons] at earlier
    rw [List.cons_append, begins, if_pos earlier.1, ih earlier.2]

/-- Executions of a phase and of later ones come after it has begun. -/
theorem begins_append_of_later (later : ∀ e ∈ es', phase.rank ≤ e.scheduled.phase.rank) :
    begins phase s (es ++ es') = begins phase s es := by
  induction es generalizing s with
  | nil => exact begins_of_later later
  | cons d es ih =>
    rw [List.cons_append, begins, begins]
    split
    · exact ih
    · rfl

/-! ## Runs -/

theorem snapshotBefore_of_ne (h : phase ≠ .beforeRemoving) :
    snapshotBefore host phase g s = .ok none s := by
  unfold snapshotBefore
  rw [if_neg h]
  rfl

theorem snapshotBefore_of_taken {snapshot : Snapshot}
    (taken : (host.graph g s).snapshot = .ok snapshot) :
    snapshotBefore host .beforeRemoving g s = .ok (some snapshot) s := by
  unfold snapshotBefore
  rw [if_pos rfl, Run.get_bind]
  exact Run.bind_ok.2 ⟨snapshot, s, by rw [taken]; rfl, rfl⟩

/-- A pass that is accepted is executed. -/
theorem Accepts.execution (h : host.Accepts x g s) :
    ∃ e, e.scheduled = x ∧ e.given = g ∧ e.before = s ∧ host.Executes e ∧
      runPass host x g s = .ok e.returned e.after := by
  obtain ⟨r, s', run, isSome, validated⟩ := h
  obtain ⟨g', hg⟩ := Option.isSome_iff_exists.1 isSome
  refine ⟨⟨x, g, s, g', s'⟩, rfl, rfl, rfl, ⟨r, run, hg⟩, ?_⟩
  have performed : inPhase x.phase (host.perform x.pass g) (noted host x s) = .ok r s' := by
    unfold inPhase
    rw [run]
  unfold runPass
  refine Run.bind_ok.2 ⟨(), noted host x s, Run.modify_ok.2 rfl, ?_⟩
  by_cases validation : x.phase = .beforeRemoving
  · obtain ⟨rfl, before, now, taken, taken', same⟩ := validated validation
    obtain rfl : g = g' := Option.some.inj hg
    refine Run.bind_ok.2 ⟨some before, noted host x s, ?_, Run.bind_ok.2 ⟨.same, s', performed, ?_⟩⟩
    · rw [validation]
      exact snapshotBefore_of_taken taken
    · simp only [Run.get_bind, Run.bind_ok, Workshop.check_ok]
      refine ⟨now, s', ⟨taken', rfl⟩, ?_⟩
      rw [same]
      rfl
  · refine Run.bind_ok.2 ⟨none, noted host x s, snapshotBefore_of_ne validation,
      Run.bind_ok.2 ⟨r, s', performed, ?_⟩⟩
    cases r with
    | same =>
      obtain rfl : g = g' := Option.some.inj hg
      rfl
    | graph other =>
      obtain rfl : other = g' := Option.some.inj hg
      rfl
    | other typeName => cases isSome

/-- Phases that have been run by the schedule. -/
structure Completes (host : Host σ γ π) (g : γ) (s : σ) (phases : List Phase)
    (es : List (Execution σ γ π)) (g' : γ) (s' : σ) : Prop where
  linked : Linked host g s es g' s'
  inOrder : es.Pairwise fun d e => (host.pipeline s').Before d.scheduled e.scheduled
  exact : ∀ x, x ∈ es.map (·.scheduled) ↔
    x.phase ∈ phases ∧ x ∈ (host.pipeline (begins x.phase s es)).passes

/-- A phase is under way after all earlier ones: `es₁` has been executed of it, and `rest` is left. -/
structure Underway (host : Host σ γ π) (g : γ) (s : σ) (phases : List Phase)
    (es : List (Execution σ γ π)) (g₁ : γ) (s₁ : σ) (phase : Phase)
    (es₁ : List (Execution σ γ π)) (g' : γ) (s' : σ) (rest : List (Scheduled π)) : Prop where
  completes : host.Completes g s phases es g₁ s₁
  past : ∀ p, p ∈ phases ↔ p.rank < phase.rank
  linked : Linked host g₁ s₁ es₁ g' s'
  split : (host.pipeline s₁).ofPhase phase = es₁.map (·.scheduled) ++ rest

namespace Underway

variable {phases : List Phase} {es₁ : List (Execution σ γ π)} {rest : List (Scheduled π)}
  (h : host.Underway g s phases es g₁ s₁ phase es₁ g' s' rest)

include h

theorem current (he : e ∈ es₁) : e.scheduled.phase = phase := by
  have there : e.scheduled ∈ (host.pipeline s₁).ofPhase phase := by
    rw [h.split]
    exact List.mem_append_left _ (List.mem_map_of_mem he)
  exact (mem_ofPhase.1 there).2

theorem earlier (he : e ∈ es) : e.scheduled.phase ∈ phases :=
  ((h.completes.exact _).1 (List.mem_map_of_mem he)).1

theorem begins_now : begins phase s (es ++ es₁) = s₁ := by
  rw [h.completes.linked.begins_append fun e he => (h.past _).1 (h.earlier he)]
  exact begins_of_later fun e he => Nat.le_of_eq (congrArg _ (h.current he).symm)

theorem begins_past {p : Phase} (hp : p ∈ phases) :
    begins p s (es ++ es₁) = begins p s es :=
  begins_append_of_later fun _ he => h.current he ▸ Nat.le_of_lt ((h.past p).1 hp)

theorem mem_iff : x ∈ (es ++ es₁).map (·.scheduled) ↔
    x.phase ∈ phases ∧ x ∈ (host.pipeline (begins x.phase s (es ++ es₁))).passes ∨
      x ∈ es₁.map (·.scheduled) := by
  rw [List.map_append, List.mem_append, h.completes.exact]
  by_cases hp : x.phase ∈ phases
  · rw [h.begins_past hp]
  · simp only [hp, false_and]

section Built

variable (adds : host.OnlyAdds) (built : Built (host.pipeline s))

include adds built

theorem built_now : Built (host.pipeline s₁) := built.trans (h.completes.linked.grows adds)

/-- What is left of a phase comes after what has been executed. -/
theorem ordered : (es₁.map (·.scheduled) ++ rest).Pairwise (host.pipeline s').Before := by
  rw [← h.split]
  exact ((h.built_now adds built).ordered.sublist List.filter_sublist).imp
    fun before => before.grows (h.linked.grows adds)

theorem inOrder : (es ++ es₁).Pairwise fun d e =>
    (host.pipeline s').Before d.scheduled e.scheduled := by
  refine List.pairwise_append.2 ⟨h.completes.inOrder.imp fun before =>
    before.grows (h.linked.grows adds), ?_, fun d hd e he => .inl ?_⟩
  · exact List.pairwise_map.1 (List.pairwise_append.1 (h.ordered adds built)).1
  · rw [h.current he]
    exact (h.past _).1 (h.earlier hd)

end Built

end Underway

namespace Underway

variable {phases : List Phase} {es₁ : List (Execution σ γ π)} {rest : List (Scheduled π)}

/-- The next pass of a phase is due. -/
theorem due (h : host.Underway g s phases es g₁ s₁ phase es₁ g' s' (x :: rest))
    (adds : host.OnlyAdds) (built : Built (host.pipeline s)) :
    host.Due g s (es ++ es₁) g' s' x := by
  have built' : Built (host.pipeline s') :=
    (h.built_now adds built).trans (h.linked.grows adds)
  have ordered := h.ordered adds built
  have mem (y) : y ∈ es₁.map (·.scheduled) ++ x :: rest ↔
      y ∈ (host.pipeline s₁).passes ∧ y.phase = phase := by
    rw [← h.split, mem_ofPhase]
  obtain ⟨there, rfl⟩ := (mem x).1 (List.mem_append_right _ List.mem_cons_self)
  refine ⟨h.completes.linked.append h.linked, h.inOrder adds built, fun y => ?_, ?_⟩
  · rw [h.mem_iff]
    constructor
    · rintro (⟨hp, hy⟩ | hy)
      · exact ⟨hy, .inl ((h.past _).1 hp)⟩
      · obtain ⟨there, same⟩ := (mem y).1 (List.mem_append_left _ hy)
        rw [same, h.begins_now]
        exact ⟨there, (List.pairwise_append.1 ordered).2.2 y hy x List.mem_cons_self⟩
    · rintro ⟨hy, lt | ⟨same, before⟩⟩
      · exact .inl ⟨(h.past _).2 lt, hy⟩
      · rw [same, h.begins_now] at hy
        refine .inr ((List.mem_append.1 ((mem y).2 ⟨hy, same⟩)).resolve_right fun left => ?_)
        -- what is left does not come before its first pass
        have before : (host.pipeline s').Before y x := .inr ⟨same, before⟩
        rcases List.mem_cons.1 left with rfl | left
        · exact before.asymm built' before
        · exact before.asymm built'
            ((List.pairwise_cons.1 (List.pairwise_append.1 ordered).2.1).1 y left)
  · rw [h.begins_now]
    exact there

/-- What is left of a phase is executed. -/
theorem runs (h : host.Underway g s phases es g₁ s₁ phase es₁ g' s' rest) (adds : host.OnlyAdds)
    (built : Built (host.pipeline s)) (regular : host.Regular g s) :
    ∃ es₂ g₂ s₂, rest.foldlM (fun g x => runPass host x g) g' s' = .ok g₂ s₂ ∧
      host.Underway g s phases es g₁ s₁ phase es₂ g₂ s₂ [] := by
  induction rest generalizing es₁ g' s' with
  | nil => exact ⟨es₁, g', s', rfl, h⟩
  | cons x rest ih =>
    obtain ⟨e, rfl, rfl, rfl, executes, run⟩ :=
      (regular _ _ _ _ (h.due adds built)).execution
    obtain ⟨es₂, g₂, s₂, runs, h₂⟩ := ih ⟨h.completes, h.past,
      h.linked.append (.cons executes .nil), by simp [h.split]⟩
    refine ⟨es₂, g₂, s₂, ?_, h₂⟩
    rw [List.foldlM_cons]
    exact Run.bind_ok.2 ⟨e.returned, e.after, run, runs⟩

/-- A phase of which nothing is left is completed. -/
theorem done (h : host.Underway g s phases es g₁ s₁ phase es₁ g' s' [])
    (adds : host.OnlyAdds) (built : Built (host.pipeline s)) :
    host.Completes g s (phases ++ [phase]) (es ++ es₁) g' s' := by
  refine ⟨h.completes.linked.append h.linked, h.inOrder adds built, fun y => ?_⟩
  have mem : y ∈ es₁.map (·.scheduled) ↔ y ∈ (host.pipeline s₁).passes ∧ y.phase = phase := by
    rw [← mem_ofPhase, h.split, List.append_nil]
  rw [h.mem_iff, mem, List.mem_append, List.mem_singleton, or_and_right]
  refine or_congr_right ⟨fun ⟨hy, same⟩ => ?_, fun ⟨same, hy⟩ => ?_⟩
  · exact ⟨same, by rwa [same, h.begins_now]⟩
  · rw [same, h.begins_now] at hy
    exact ⟨hy, same⟩

end Underway

/-- A phase runs after all earlier ones. -/
theorem Completes.runPhase {phases : List Phase} (h : host.Completes g s phases es g₁ s₁)
    (adds : host.OnlyAdds) (built : Built (host.pipeline s)) (regular : host.Regular g s)
    (past : ∀ p, p ∈ phases ↔ p.rank < phase.rank) :
    ∃ es' g' s', Pipeline.runPhase host g₁ phase s₁ = .ok g' s' ∧
      host.Completes g s (phases ++ [phase]) es' g' s' := by
  have start : host.Underway g s phases es g₁ s₁ phase [] g₁ s₁
      ((host.pipeline s₁).ofPhase phase) := ⟨h, past, .nil, rfl⟩
  obtain ⟨es₂, g₂, s₂, run, h₂⟩ := start.runs adds built regular
  exact ⟨es ++ es₂, g₂, s₂, run, h₂.done adds built⟩

/-- The phases that come before one in the list of all are the earlier ones. -/
theorem mem_earlier {phases rest : List Phase} (split : Phase.all = phases ++ phase :: rest)
    (p : Phase) : p ∈ phases ↔ p.rank < phase.rank := by
  have rising : Phase.all.Pairwise fun p q => p.rank < q.rank := by decide
  have every : p ∈ Phase.all := by cases p <;> decide
  rw [split] at rising every
  obtain ⟨-, later, apart⟩ := List.pairwise_append.1 rising
  refine ⟨fun hp => apart p hp phase List.mem_cons_self, fun lt => ?_⟩
  refine (List.mem_append.1 every).resolve_right fun there => ?_
  rcases List.mem_cons.1 there with rfl | there
  · exact Nat.lt_irrefl _ lt
  · exact Nat.lt_asymm lt ((List.pairwise_cons.1 later).1 p there)

/-- What is left of the phases runs after all earlier ones. -/
theorem Completes.runPhases {phases rest : List Phase} (h : host.Completes g s phases es g₁ s₁)
    (adds : host.OnlyAdds) (built : Built (host.pipeline s)) (regular : host.Regular g s)
    (split : Phase.all = phases ++ rest) :
    ∃ es' g' s', rest.foldlM (Pipeline.runPhase host) g₁ s₁ = .ok g' s' ∧
      host.Completes g s Phase.all es' g' s' := by
  induction rest generalizing phases es g₁ s₁ with
  | nil =>
    rw [List.append_nil] at split
    exact ⟨es, g₁, s₁, rfl, split ▸ h⟩
  | cons phase rest ih =>
    obtain ⟨es₂, g₂, s₂, run, h₂⟩ := h.runPhase adds built regular (mem_earlier split)
    obtain ⟨es', g', s', runs, h'⟩ := ih h₂ (by rw [split, List.append_cons])
    exact ⟨es', g', s', Run.bind_ok.2 ⟨g₂, s₂, run, runs⟩, h'⟩

/-- A run keeps to the schedule. -/
structure Keeps (host : Host σ γ π) (g : γ) (s : σ) (es : List (Execution σ γ π)) (g' : γ) (s' : σ) :
    Prop where
  /-- Each pass gets the graph that the one before has handed back. -/
  linked : Linked host g s es g' s'
  /-- By phase, by priority and in the order of registration. -/
  inOrder : es.Pairwise fun d e => (host.pipeline s').Before d.scheduled e.scheduled
  once : (es.map (·.scheduled)).Nodup
  /-- What runs in a phase is what was registered when it began. -/
  exact : ∀ x, x ∈ es.map (·.scheduled) ↔ x ∈ (host.pipeline (begins x.phase s es)).passes
  /-- What an execution registers runs if and only if its phase comes later. -/
  added : ∀ e ∈ es, ∀ x ∈ (host.pipeline e.after).passes, x ∉ (host.pipeline e.before).passes →
    (x ∈ es.map (·.scheduled) ↔ e.scheduled.phase.rank < x.phase.rank)

/-- What is registered when a run starts is executed. -/
theorem Keeps.all (h : host.Keeps g s es g' s') (adds : host.OnlyAdds)
    (hx : x ∈ (host.pipeline s).passes) : x ∈ es.map (·.scheduled) :=
  (h.exact x).2 ((h.linked.grows_begins adds).1.mem hx)

/-- A run in which passes are accepted keeps to the schedule. -/
theorem Regular.run (adds : host.OnlyAdds) (built : Built (host.pipeline s))
    (regular : host.Regular g s) :
    ∃ es g' s', Pipeline.run host g s = .ok g' s' ∧ host.Keeps g s es g' s' := by
  have nothing : host.Completes g s [] [] g s := ⟨.nil, .nil, by simp⟩
  obtain ⟨es, g', s', run, linked, inOrder, exact⟩ := nothing.runPhases adds built regular rfl
  have every (phase : Phase) : phase ∈ Phase.all := by cases phase <;> decide
  have exact (x) : x ∈ es.map (·.scheduled) ↔
      x ∈ (host.pipeline (begins x.phase s es)).passes := by
    rw [exact]
    exact and_iff_right (every _)
  have built' : Built (host.pipeline s') := built.trans (linked.grows adds)
  refine ⟨es, g', s', run, linked, inOrder, ?_, exact, fun e he x hx new => ?_⟩
  · refine List.pairwise_map.2 (inOrder.imp fun {d e} before (same : d.scheduled = e.scheduled) => ?_)
    exact before.asymm built' (same ▸ before)
  · obtain ⟨es₁, es₂, rfl⟩ := List.append_of_mem he
    obtain ⟨linked₁, executes, linked₂⟩ := linked.split
    obtain ⟨-, after, before⟩ := List.pairwise_append.1 inOrder
    rw [exact]
    constructor
    · intro begun
      by_contra later
      rw [begins_append_of_later] at begun
      · exact new ((linked₁.grows_begins adds).2.mem begun)
      · refine List.forall_mem_cons.2 ⟨Nat.not_lt.1 later, fun d hd => ?_⟩
        exact (Nat.not_lt.1 later).trans ((List.pairwise_cons.1 after).1 d hd).rank_le
    · intro later
      have past : ∀ d ∈ es₁ ++ [e], d.scheduled.phase.rank < x.phase.rank := by
        intro d hd
        rcases List.mem_append.1 hd with hd | hd
        · exact Nat.lt_of_le_of_lt (before d hd e List.mem_cons_self).rank_le later
        · obtain rfl := List.mem_singleton.1 hd
          exact later
      rw [List.append_cons, (linked₁.append (.cons executes .nil)).begins_append past]
      exact (linked₂.grows_begins adds).1.mem hx

end Host

namespace Pipeline

/-- A pipeline runs by its schedule where passes return and what they return is accepted, whatever
they register meanwhile: phases in order; within a phase what was registered when it began, each pass
once, by descending priority and in the order of registration; each pass on the graph that the one
before has handed back. What a pass registers is executed in the same run if and only if its phase has
not begun by then, and it is executed in every later run. -/
theorem run_schedule {host : Host σ γ π} (adds : host.OnlyAdds) {g : γ} {s : σ}
    (built : Built (host.pipeline s)) (regular : host.Regular g s) :
    ∃ es g' s', run host g s = .ok g' s' ∧ host.Keeps g s es g' s' ∧
      Grows (host.pipeline s) (host.pipeline s') ∧
      ∀ h t, Grows (host.pipeline s') (host.pipeline t) → host.Regular h t →
        ∃ es₂ h' t', run host h t = .ok h' t' ∧ host.Keeps h t es₂ h' t' ∧
          ∀ x ∈ (host.pipeline s').passes, x ∈ es₂.map (·.scheduled) := by
  obtain ⟨es, g', s', run, keeps⟩ := regular.run adds built
  have grows := keeps.linked.grows adds
  refine ⟨es, g', s', run, keeps, grows, fun h t grows' regular' => ?_⟩
  obtain ⟨es₂, h', t', run₂, keeps₂⟩ := regular'.run adds (built.trans (grows.trans grows'))
  exact ⟨es₂, h', t', run₂, keeps₂, fun x hx => keeps₂.all adds (grows'.mem hx)⟩

end Pipeline

/-! ## At the opera -/

/-- A pass that is played, and may call for another. -/
inductive Act where
  | solo (name : String)
  | cue (name : String) (next : Act) (phase : Phase) (priority : Int)

/-- A stage: the pipeline, and the names of the acts that were played. -/
structure Stage where
  pipeline : Pipeline Act := {}
  played : List String := []

namespace Stage

/-- Plays an act. -/
def play (s : Stage) : Act → Stage
  | .solo name => { s with played := s.played ++ [name] }
  | .cue name next phase priority =>
    { pipeline := s.pipeline.add next phase priority, played := s.played ++ [name] }

/-- The world of a stage, where the graph looks as the acts have left it. -/
def host (look : List String → Graph) : Host Stage Unit Act where
  pipeline := pipeline
  graph _ s := look s.played
  perform act _ s := .ok .same (s.play act)
  passName
    | .solo name => name
    | .cue name _ _ _ => name
  note _ s := s

/-- What was played by the end of a run. -/
def playedBy : EStateM.Result Failure Stage Unit → List String
  | .ok _ s => s.played
  | .error _ s => s.played

/-- An overture that calls for a finale, and an aria that calls for a prelude. -/
def opera : Stage where
  pipeline := (({} : Pipeline Act).add (.cue "overture" (.solo "finale") .afterRemoving 0)
    .optimize 0).add (.cue "aria" (.solo "prelude") .beforeOptimization 0) .beforeRemoving 0

theorem built_opera : Built opera.pipeline :=
  (Relation.ReflTransGen.single ⟨_, _, _, rfl⟩).tail ⟨_, _, _, rfl⟩

theorem host_onlyAdds (look : List String → Graph) : (host look).OnlyAdds where
  note _ _ := rfl
  perform act _ s r s' run := by
    obtain rfl : s.play act = s' := (EStateM.Result.ok.inj run).2
    cases act with
    | solo name => exact .refl
    | cue name next phase priority => exact .single ⟨next, phase, priority, rfl⟩

/-- Where the graph always looks the same every act is accepted. -/
theorem host_regular (s : Stage) : (host fun _ => {}).Regular () s := by
  intro _ _ s' x _
  refine ⟨.same, s'.play x.pass, rfl, rfl, fun _ => ⟨rfl, ⟨[], [], []⟩, ⟨[], [], []⟩, ?_, ?_, ?_⟩⟩
  all_goals cbv

/-- The finale is called for in time. The prelude is too late, and opens the next run. -/
example : playedBy (Pipeline.run (host fun _ => {}) () opera) = ["overture", "aria", "finale"] ∧
    playedBy (((fun _ => ()) <$> Pipeline.run (host fun _ => {}) () >>=
      Pipeline.run (host fun _ => {})) opera) =
      ["overture", "aria", "finale", "prelude", "overture", "aria", "finale", "finale"] := by
  constructor <;> cbv

/-- A graph that shows who has been on stage. -/
def redecorated (played : List String) : Graph where
  aliases := played.map fun name => { id := name, target := "stage" }

end Stage

theorem Pipeline.run_schedule_opera : ∃ es s',
    run (Stage.host fun _ => {}) () Stage.opera = .ok () s' ∧
      (Stage.host fun _ => {}).Keeps () Stage.opera es () s' := by
  obtain ⟨es, _, s', h, keeps, -⟩ := run_schedule (Stage.host_onlyAdds fun _ => {})
    (s := Stage.opera) Stage.built_opera (Stage.host_regular Stage.opera)
  exact ⟨es, s', h, keeps⟩

/-- All acts return, each the graph that it got. Still the run ends with the aria, which has changed
the graph in the validation phase, and the finale that the overture has called for is not played. -/
theorem Pipeline.run_redecorated_opera :
    (Stage.host Stage.redecorated).OnlyAdds ∧ Built Stage.opera.pipeline ∧
    (∀ act g s, (Stage.host Stage.redecorated).perform act g s = .ok .same (s.play act)) ∧
    run (Stage.host Stage.redecorated) () Stage.opera =
      .error (breach (.validationChanged "aria") .beforeRemoving) {
        pipeline := (Stage.opera.pipeline.add (.solo "finale") .afterRemoving 0).add
          (.solo "prelude") .beforeOptimization 0
        played := ["overture", "aria"] } := by
  refine ⟨Stage.host_onlyAdds _, Stage.built_opera, fun _ _ _ => rfl, ?_⟩
  cbv

end Wiring
