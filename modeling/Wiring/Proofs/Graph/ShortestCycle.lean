import Wiring.Proofs.Graph.Components
import Wiring.Proofs.Outcome
import Mathlib.Data.List.Chain

/-!
# Shortest cycles

The search for a path goes level by level: what has been seen has a level, what is in the queue is on
two levels at most, and what an edge leads to is at most one level further. So when the goal comes up
its level is the length of every shortest path, and its predecessors lead back to the start.
-/

namespace Wiring.EdgeMap

open Walk (Reaches)

variable {edges : EdgeMap}

/-- Every entry after the first is what an edge of the one before leads to. -/
def Walks (edges : EdgeMap) (path : List String) : Prop :=
  path.IsChain fun a b => b ∈ edges.targets a

namespace PathSearch

variable {inside : String → Bool} {start goal id x y : String} {w w' : PathSearch}
  {done found path targets : List String} {level : String → Nat} {rounds steps : Nat}

/-! ## Visits -/

/-- What is found over edges of `id` to `targets`: all inside that has not been seen. -/
structure Finds (inside : String → Bool) (id : String) (targets : List String) (w w' : PathSearch)
    (found : List String) : Prop where
  queue : w'.queue = w.queue ++ found
  seen : w'.seen = w.seen ++ found
  previous : ∀ x, w'.previous.get? x = if x ∈ found then some id else w.previous.get? x
  nodup : found.Nodup
  new : ∀ x ∈ found, x ∉ w.seen ∧ x ∈ targets
  all : ∀ x ∈ targets, inside x = true → x ∈ w.seen ∨ x ∈ found

theorem exists_finds (inside : String → Bool) (id : String) (targets : List String)
    (w : PathSearch) : ∃ found, Finds inside id targets w (targets.foldl (see inside id) w) found := by
  induction targets generalizing w with
  | nil => exact ⟨[], by simp, by simp, by simp, .nil, by simp, by simp⟩
  | cons t targets ih =>
    rw [List.foldl_cons]
    obtain ⟨found, h⟩ := ih (see inside id w t)
    unfold see at h ⊢
    split at h
    next skip =>
      rw [if_pos skip]
      refine ⟨found, h.queue, h.seen, h.previous, h.nodup, fun x hx => ?_, fun x hx admitted => ?_⟩
      · exact ⟨(h.new x hx).1, List.mem_cons_of_mem t (h.new x hx).2⟩
      · rcases List.mem_cons.1 hx with rfl | hx
        · exact .inl (by simpa [admitted] using skip)
        · exact h.all x hx admitted
    next new =>
      rw [if_neg new]
      have new : t ∉ w.seen ∧ inside t = true := by simpa using new
      have apart : t ∉ found := fun ht => (h.new t ht).1 (by simp)
      refine ⟨t :: found, ?_, ?_, fun x => ?_, List.nodup_cons.2 ⟨apart, h.nodup⟩, fun x hx => ?_,
        fun x hx admitted => ?_⟩
      · rw [h.queue, List.append_assoc, List.singleton_append]
      · rw [h.seen, List.append_assoc, List.singleton_append]
      · rw [h.previous, Table.get?_put]
        by_cases e : x = t <;> by_cases hx : x ∈ found <;> simp [e, hx, apart]
      · rcases List.mem_cons.1 hx with rfl | hx
        · exact ⟨new.1, List.mem_cons_self⟩
        · obtain ⟨unseen, ht⟩ := h.new x hx
          exact ⟨fun hs => unseen (List.mem_append_left _ hs), List.mem_cons_of_mem t ht⟩
      · rcases List.mem_cons.1 hx with rfl | hx
        · exact .inr List.mem_cons_self
        · rcases h.all x hx admitted with seen | hx
          · rcases List.mem_append.1 seen with seen | same
            · exact .inl seen
            · exact .inr (List.mem_singleton.1 same ▸ List.mem_cons_self)
          · exact .inr (List.mem_cons_of_mem t hx)

/-! ## Levels -/

/-- A search from `start` that has visited `done`. -/
structure Levels (edges : EdgeMap) (inside : String → Bool) (start : String) (done : List String)
    (w : PathSearch) (level : String → Nat) : Prop where
  seen : w.seen = done ++ w.queue
  nodup : w.seen.Nodup
  known : ∀ x ∈ w.seen, x ∈ edges.nodes
  start_mem : start ∈ w.seen
  start_level : level start = 0
  previous : ∀ x ∈ w.seen, x ≠ start → ∃ y ∈ done, w.previous.get? x = some y ∧
    x ∈ edges.targets y ∧ level x = level y + 1
  sorted : w.seen.Pairwise fun x y => level x ≤ level y
  near : ∀ x ∈ w.queue, ∀ y ∈ w.queue, level x ≤ level y + 1
  depth : ∀ x ∈ w.seen, level x ≤ done.length
  followed : ∀ x ∈ done, ∀ y ∈ edges.targets x, inside y = true →
    y ∈ w.seen ∧ level y ≤ level x + 1

namespace Levels

theorem initial (known : start ∈ edges.nodes) :
    Levels edges inside start [] { queue := [start], seen := [start] } (fun _ => 0) := by
  refine ⟨rfl, List.nodup_singleton _, ?_, List.mem_singleton.2 rfl, rfl, ?_,
    List.pairwise_singleton _ _, by simp, by simp, by simp⟩
  · exact fun x hx => List.mem_singleton.1 hx ▸ known
  · exact fun x hx ne => absurd (List.mem_singleton.1 hx) ne

theorem done_subset (h : Levels edges inside start done w level) (hx : x ∈ done) : x ∈ w.seen :=
  h.seen ▸ List.mem_append_left _ hx

theorem queue_subset (h : Levels edges inside start done w level) (hx : x ∈ w.queue) :
    x ∈ w.seen := h.seen ▸ List.mem_append_right _ hx

/-- A visit of the first in the queue goes one level further. -/
theorem visit {queue : List String} (h : Levels edges inside start done w level)
    (first : w.queue = id :: queue)
    (finds : Finds inside id (edges.targets id) { w with queue } w' found) :
    Levels edges inside start (done ++ [id]) w'
      (fun x => if x ∈ found then level id + 1 else level x) := by
  have hid : id ∈ w.seen := h.queue_subset (first ▸ List.mem_cons_self)
  have old {x} (hx : x ∈ w.seen) : x ∉ found := fun hf => (finds.new x hf).1 hx
  have queued {x} (hx : x ∈ queue) : x ∈ w.queue := first ▸ List.mem_cons_of_mem _ hx
  have seen : w'.seen = w.seen ++ found := finds.seen
  have queue_eq : w'.queue = queue ++ found := finds.queue
  have sorted := h.sorted
  rw [h.seen, first, List.pairwise_append, List.pairwise_cons] at sorted
  have least {x} (hx : x ∈ queue) : level id ≤ level x := sorted.2.1.1 x hx
  have most {x} (hx : x ∈ w.seen) : level x ≤ level id + 1 := by
    rw [h.seen] at hx
    rcases List.mem_append.1 hx with hx | hx
    · exact Nat.le_succ_of_le (sorted.2.2 x hx id List.mem_cons_self)
    · exact h.near x hx id (first ▸ List.mem_cons_self)
  refine ⟨?_, ?_, fun x hx => ?_, ?_, ?_, fun x hx ne => ?_, ?_, fun x hx y hy => ?_,
    fun x hx => ?_, fun x hx y hy admitted => ?_⟩
  · rw [seen, queue_eq, h.seen, first]
    simp
  · rw [seen, List.nodup_append]
    exact ⟨h.nodup, finds.nodup, fun x hx y hy e => old hx (e ▸ hy)⟩
  · rw [seen] at hx
    rcases List.mem_append.1 hx with hx | hx
    · exact h.known x hx
    · exact targets_mem_nodes (finds.new x hx).2
  · exact seen ▸ List.mem_append_left _ h.start_mem
  · rw [if_neg (old h.start_mem), h.start_level]
  · rw [seen] at hx
    rcases List.mem_append.1 hx with hx | hx
    · obtain ⟨y, hy, back, edge, next⟩ := h.previous x hx ne
      refine ⟨y, List.mem_append_left _ hy, ?_, edge, ?_⟩
      · rw [finds.previous, if_neg (old hx)]
        exact back
      · rw [if_neg (old hx), if_neg (old (h.done_subset hy)), next]
    · refine ⟨id, by simp, ?_, (finds.new x hx).2, ?_⟩
      · rw [finds.previous, if_pos hx]
      · rw [if_pos hx, if_neg (old hid)]
  · rw [seen, List.pairwise_append]
    refine ⟨h.sorted.imp_of_mem fun hx hy le => ?_, ?_, fun x hx y hy => ?_⟩
    · rwa [if_neg (old hx), if_neg (old hy)]
    · refine List.pairwise_of_forall_mem_list fun x hx y hy => ?_
      rw [if_pos hx, if_pos hy]
    · rw [if_neg (old hx), if_pos hy]
      exact most hx
  · -- all in the queue is on the level of `id` or one further
    have range {x} (hx : x ∈ w'.queue) :
        level id ≤ (if x ∈ found then level id + 1 else level x) ∧
          (if x ∈ found then level id + 1 else level x) ≤ level id + 1 := by
      rw [queue_eq] at hx
      rcases List.mem_append.1 hx with hx | hx
      · rw [if_neg (old (h.queue_subset (queued hx)))]
        exact ⟨least hx, most (h.queue_subset (queued hx))⟩
      · rw [if_pos hx]
        exact ⟨Nat.le_succ _, Nat.le_refl _⟩
    have := (range hx).2
    have := (range hy).1
    omega
  · rw [List.length_append, List.length_singleton]
    rw [seen] at hx
    rcases List.mem_append.1 hx with hx | hx
    · rw [if_neg (old hx)]
      exact Nat.le_succ_of_le (h.depth x hx)
    · rw [if_pos hx]
      exact Nat.succ_le_succ (h.depth id hid)
  · rcases List.mem_append.1 hx with hx | hx
    · obtain ⟨there, next⟩ := h.followed x hx y hy admitted
      rw [if_neg (old there), if_neg (old (h.done_subset hx))]
      exact ⟨seen ▸ List.mem_append_left _ there, next⟩
    · obtain rfl := List.mem_singleton.1 hx
      rw [if_neg (old hid)]
      rcases finds.all y hy admitted with there | there
      · rw [if_neg (old there)]
        exact ⟨seen ▸ List.mem_append_left _ there, most there⟩
      · rw [if_pos there]
        exact ⟨seen ▸ List.mem_append_right _ there, Nat.le_refl _⟩

/-! ## The goal -/

/-- A search ends with the goal first in the queue, or with all visited. -/
theorem run (h : Levels edges inside start done w level) (known : goal ∈ edges.nodes)
    (undone : goal ∉ done) (room : edges.nodes.length ≤ rounds + done.length) :
    ∃ done level, Levels edges inside start done (run edges inside goal rounds w) level ∧
      goal ∉ done ∧ ∀ id ∈ (PathSearch.run edges inside goal rounds w).queue.head?, id = goal := by
  induction rounds generalizing done w level with
  | zero =>
    -- all there is would have been visited, and the goal with it
    have nodup : (goal :: done).Nodup :=
      List.nodup_cons.2 ⟨undone, (h.seen ▸ h.nodup).of_append_left⟩
    have inside : goal :: done ⊆ edges.nodes :=
      List.cons_subset.2 ⟨known, fun x hx => h.known x (h.done_subset hx)⟩
    have few := (List.subperm_of_subset nodup inside).length_le
    rw [List.length_cons] at few
    omega
  | succ rounds ih =>
    unfold PathSearch.run
    cases first : w.queue with
    | nil => exact ⟨done, level, h, undone, by simp [first]⟩
    | cons id queue =>
      dsimp only
      split
      next e => exact ⟨done, level, h, undone, by simp [first, e]⟩
      next ne =>
        obtain ⟨found, finds⟩ := exists_finds inside id (edges.targets id) { w with queue }
        refine ih (h.visit first finds) ?_ ?_
        · simpa [undone] using Ne.symm ne
        · rw [List.length_append, List.length_singleton]
          omega

section Goal

variable (h : Levels edges inside start done w level) (undone : goal ∉ done)
  (stopped : ∀ id ∈ w.queue.head?, id = goal)

include h undone stopped

/-- The goal is found if there is a path to it inside. -/
theorem goal_mem (path : Reaches edges.targets start goal)
    (admitted : ∀ x, Reaches edges.targets start x → Reaches edges.targets x goal → inside x = true) :
    goal ∈ w.seen := by
  cases queue : w.queue with
  | cons id queue' =>
    obtain rfl := stopped id (by rw [queue]; rfl)
    exact h.queue_subset (queue ▸ List.mem_cons_self)
  | nil =>
    -- nothing that has been visited leads to the goal, and all that has been seen is visited
    have all {x} (hx : x ∈ w.seen) : x ∈ done := by
      rw [h.seen, queue, List.append_nil] at hx
      exact hx
    suffices never : ∀ x, Reaches edges.targets x goal → Reaches edges.targets start x → x ∉ done from
      absurd (all h.start_mem) (never start path .refl)
    intro x rest
    induction rest using Relation.ReflTransGen.head_induction_on with
    | refl => exact fun _ => undone
    | @head x y edge rest ih =>
      intro way hx
      have way := way.tail edge
      exact ih way (all (h.followed x hx y edge (admitted y way rest)).1)

/-- No path inside is shorter than the level of the goal. -/
theorem level_le (hx : x ∈ w.seen) (walks : edges.Walks (x :: path))
    (last : (x :: path).getLast? = some goal) (admitted : ∀ y ∈ path, inside y = true) :
    level goal ≤ level x + path.length := by
  induction path generalizing x with
  | nil =>
    obtain rfl : x = goal := by simpa using last
    exact Nat.le_refl _
  | cons y path ih =>
    have seen := hx
    rw [h.seen] at hx
    rcases List.mem_append.1 hx with hx | hx
    · obtain ⟨edge, walks⟩ := List.isChain_cons_cons.1 walks
      obtain ⟨there, next⟩ := h.followed x hx y edge (admitted y List.mem_cons_self)
      have := ih there walks (by simpa using last) fun z hz => admitted z (List.mem_cons_of_mem y hz)
      rw [List.length_cons]
      omega
    · -- the goal is first in the queue
      cases queue : w.queue with
      | nil =>
        rw [queue] at hx
        cases hx
      | cons id queue' =>
        obtain rfl := stopped id (by rw [queue]; rfl)
        have sorted := h.sorted
        rw [h.seen, queue, List.pairwise_append, List.pairwise_cons] at sorted
        rw [queue] at hx
        rcases List.mem_cons.1 hx with rfl | hx
        · exact Nat.le_add_right _ _
        · exact Nat.le_trans (sorted.2.1.1 x hx) (Nat.le_add_right _ _)

end Goal

/-! ## The way back -/

/-- The predecessors of what has been seen are there, and lead back to the start level by level. -/
theorem trace (h : Levels edges inside start done w level) (hx : x ∈ w.seen)
    (enough : level x ≤ steps) : ∃ path, trace w.previous start steps x = .ok path ∧
      path.head? = some start ∧ path.getLast? = some x ∧ edges.Walks path ∧
      path.length = level x + 1 := by
  have self (steps) : ∃ path, PathSearch.trace w.previous start steps start = .ok path ∧
      path.head? = some start ∧ path.getLast? = some start ∧ edges.Walks path ∧
      path.length = level start + 1 :=
    ⟨[start], by cases steps <;> simp [PathSearch.trace], rfl, rfl, List.isChain_singleton _,
      by rw [h.start_level]; rfl⟩
  induction steps generalizing x with
  | zero =>
    obtain rfl : x = start := by
      by_contra ne
      obtain ⟨y, -, -, -, next⟩ := h.previous x hx ne
      omega
    exact self 0
  | succ steps ih =>
    by_cases same : x = start
    · exact same ▸ self (steps + 1)
    · obtain ⟨y, hy, back, edge, next⟩ := h.previous x hx same
      obtain ⟨path, traced, head, last, walks, length⟩ := ih (h.done_subset hy) (by omega)
      refine ⟨path ++ [x], ?_, ?_, by simp, ?_, by simp [length, next]⟩
      · rw [PathSearch.trace, if_neg same]
        simp [back, traced]
      · rw [List.head?_append, head]
        rfl
      · refine List.isChain_append.2 ⟨walks, List.isChain_singleton _, fun a ha b hb => ?_⟩
        obtain rfl := Option.some.inj (last.symm.trans ha)
        obtain rfl := Option.some.inj hb
        exact edge

end Levels

end PathSearch

/-! ## Cycles through an edge -/

/-- A walk through an edge that ends where it begins. -/
structure ClosedWalk (edges : EdgeMap) (e : Edge) (walk : List String) : Prop where
  walks : edges.Walks walk
  closed : walk.head? = walk.getLast?
  through : [e.source, e.target] <:+: walk

/-- A closed walk that begins with an edge and ends with its source, and is as short as any closed walk
through the edge. -/
structure ShortestThrough (edges : EdgeMap) (e : Edge) (cycle : List String) : Prop where
  begins : [e.source, e.target] <+: cycle
  ends : cycle.getLast? = some e.source
  walks : edges.Walks cycle
  shortest : ∀ walk, edges.ClosedWalk e walk → cycle.length ≤ walk.length

variable {e : Edge} {walk path : List String} {a b x : String}

/-- A closed walk through an edge goes on from the target of the edge to its source. -/
theorem ClosedWalk.exists_path (h : edges.ClosedWalk e walk) : ∃ path,
    edges.Walks (e.target :: path) ∧ (e.target :: path).getLast? = some e.source ∧
      path.length + 2 = walk.length := by
  obtain ⟨before, after, rfl⟩ := h.through
  have walks := h.walks
  have closed := h.closed
  rw [List.append_assoc] at walks closed
  obtain ⟨first, second, link⟩ := List.isChain_append.1 walks
  have tail : edges.Walks (e.target :: after) := (List.isChain_cons_cons.1 second).2
  cases before with
  | nil => exact ⟨after, tail, by simpa using closed.symm, by simp⟩
  | cons x before =>
    -- the walk ends with `x`, where it begins
    obtain ⟨z, last⟩ : ∃ z, (e.target :: after).getLast? = some z := ⟨_, List.getLast?_cons⟩
    have same : (x :: before ++ ([e.source, e.target] ++ after)).getLast? = some z := by
      rw [List.getLast?_append, List.cons_append, List.singleton_append, List.getLast?_cons_cons, last]
      rfl
    obtain rfl : x = z := Option.some.inj (closed.trans same)
    refine ⟨after ++ (before ++ [e.source]), ?_, ?_, by simp; omega⟩
    · have around : edges.Walks (x :: (before ++ [e.source])) :=
        List.isChain_append.2 ⟨first, List.isChain_singleton _, fun a ha b hb => link a ha b hb⟩
      refine List.isChain_append.2 ⟨tail, List.isChain_cons.1 around |>.2, fun a ha b hb => ?_⟩
      obtain rfl := Option.some.inj (last.symm.trans ha)
      exact (List.isChain_cons.1 around).1 b hb
    · rw [← List.cons_append, List.getLast?_append, List.getLast?_append]
      rfl

/-- What is on a walk lies between its ends. -/
theorem Walks.between (h : edges.Walks (a :: path)) (last : (a :: path).getLast? = some b)
    (hx : x ∈ a :: path) : Reaches edges.targets a x ∧ Reaches edges.targets x b := by
  induction path generalizing a x with
  | nil =>
    obtain rfl : a = b := by simpa using last
    rw [List.mem_singleton.1 hx]
    exact ⟨.refl, .refl⟩
  | cons c path ih =>
    obtain ⟨edge, walks⟩ := List.isChain_cons_cons.1 h
    have last : (c :: path).getLast? = some b := by simpa using last
    rcases List.mem_cons.1 hx with rfl | hx
    · exact ⟨.refl, .head edge (ih (x := c) walks last List.mem_cons_self).2⟩
    · obtain ⟨there, on⟩ := ih walks last hx
      exact ⟨.head edge there, on⟩

/-- For a fatal edge there is a cycle to report, and it is a shortest one. -/
theorem shortestCycle_spec (fatal : edges.Fatal e) :
    ∃ cycle, edges.shortestCycle edges.components e = .ok cycle ∧ edges.ShortestThrough e cycle := by
  have edge : e.target ∈ edges.targets e.source := List.mem_map_of_mem fatal.leaves
  unfold shortestCycle
  by_cases loop : e.source = e.target
  · refine ⟨[e.source, e.source], by rw [if_pos loop]; rfl, ⟨[], by rw [← loop]; rfl⟩, rfl, ?_, ?_⟩
    · exact List.isChain_pair.2 (by rwa [← loop] at edge)
    · exact fun walk closed => closed.through.length_le
  rw [if_neg loop]
  have source := mem_names_of_leaving fatal.leaves
  dsimp only
  generalize inside_eq : (fun x => edges.components.get? x == edges.components.get? e.source) = inside
  have admitted (x) : inside x = true ↔
      Reaches edges.targets e.source x ∧ Reaches edges.targets x e.source := by
    rw [← inside_eq, beq_iff_eq, eq_comm, components_eq_iff source]
  have start : PathSearch.Levels edges inside e.target [] _ _ := .initial (targets_mem_nodes edge)
  obtain ⟨done, level, levels, undone, stopped⟩ :=
    start.run (names_mem_nodes source) List.not_mem_nil (Nat.le_refl _)
  generalize PathSearch.run edges inside _ _ _ = w at levels stopped
  have found := levels.goal_mem undone stopped fatal.back fun x there back =>
    (admitted x).2 ⟨.head edge there, back⟩
  have deep : level e.source ≤ edges.nodes.length := by
    have inside : done ⊆ edges.nodes := fun x hx => levels.known x (levels.done_subset hx)
    have nodup : done.Nodup := (levels.seen ▸ levels.nodup).of_append_left
    exact Nat.le_trans (levels.depth _ found) (List.subperm_of_subset nodup inside).length_le
  obtain ⟨path, traced, head, last, walks, length⟩ := levels.trace found deep
  obtain ⟨rest, rfl⟩ : ∃ rest, path = e.target :: rest := by
    cases path with
    | nil => cases head
    | cons a rest => exact ⟨rest, by rw [Option.some.inj head]⟩
  refine ⟨e.source :: e.target :: rest, by rw [traced]; rfl, ⟨rest, rfl⟩, by simpa using last,
    List.isChain_cons_cons.2 ⟨edge, walks⟩, fun walk closed => ?_⟩
  obtain ⟨around, walks', last', length'⟩ := closed.exists_path
  have least := levels.level_le undone stopped levels.start_mem walks' last' fun x hx => ?_
  · rw [levels.start_level] at least
    simp only [List.length_cons] at length ⊢
    omega
  · obtain ⟨there, back⟩ := walks'.between last' (List.mem_cons_of_mem _ hx)
    exact (admitted x).2 ⟨.head edge there, back⟩

/-! ## Validation -/

/-- Edges are accepted if none is fatal; else a shortest cycle through the first that is fatal is
reported. -/
theorem validate_spec (filed : edges.Filed) :
    (edges.validate = .ok () ∧ ∀ e, ¬ edges.Fatal e) ∨
      ∃ e cycle, edges.validate = .error (.fault (.circularServices cycle) none) ∧
        edges.FirstFatal e ∧ edges.ShortestThrough e cycle := by
  unfold validate
  cases found : edges.firstFatal? edges.components with
  | none => exact .inl ⟨by simp [found, pure_eq_ok], (firstFatal?_eq_none filed).1 found⟩
  | some e =>
    have first := firstFatal?_first filed found
    obtain ⟨cycle, made, shortest⟩ := shortestCycle_spec first.fatal
    refine .inr ⟨e, cycle, ?_, first, shortest⟩
    simp only [found, made]
    rfl

theorem validate_ok (filed : edges.Filed) : edges.validate = .ok () ↔ ∀ e, ¬ edges.Fatal e := by
  rcases edges.validate_spec filed with ⟨ok, none⟩ | ⟨e, cycle, failed, first, -⟩
  · exact iff_of_true ok none
  · refine iff_of_false (fun ok => ?_) fun none => none e first.fatal
    cases ok.symm.trans failed

end Wiring.EdgeMap
