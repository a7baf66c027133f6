import Wiring.Graph.Cycle
import Wiring.Proofs.Graph.Search
import Wiring.Proofs.Sort.Texts

/-!
# Components and cycles

Two identifiers have one component number if and only if each is reached from the other. So the edge
that validation finds is the first that is not lazy and lies on a cycle.

The rounds of the search are bounded. The bound is never met: the same search without one works its
stack off until nothing is left, from one source after the other, and comes to an end. On the way it
gives a number to everything that a source leads to, once.
-/

namespace Wiring.EdgeMap

open Walk (Reaches)

variable {edges : EdgeMap} {a b : String}

/-! ## Component numbers -/

/-- Everything that is reached from a source is numbered, and that and only that has one number which
is mutually reached. -/
theorem components_spec (edges : EdgeMap) : ∃ count, Settled edges edges.components count ∧
    ∀ a ∈ Table.names edges, a ∈ edges.components.names := by
  have roots (r) : r ∈ Failure.sortTexts (Table.names edges) ↔ r ∈ Table.names edges :=
    (List.mergeSort_perm _ _).mem_iff
  obtain ⟨done, met, -⟩ :=
    Search.visitAll_spec Search.Invariant.start fun r hr => names_mem_nodes ((roots r).1 hr)
  exact ⟨_, done.settled, fun a ha => done.component (met a ((roots a).2 ha))⟩

theorem components_eq_iff (ha : a ∈ Table.names edges) :
    edges.components.get? a = edges.components.get? b ↔
      Reaches edges.targets a b ∧ Reaches edges.targets b a := by
  obtain ⟨_, settled, all⟩ := edges.components_spec
  exact settled.same a (all a ha) b

namespace Search

variable {w w' : Search} {id x t : String} {n followed : Nat} {work : List (String × Nat)}
  {stack : List String} {component : Table Nat} {numbers : Table Nat}

/-! ## Numbers that are given -/

/-- What is on a stack down to `id`. -/
def downTo (id : String) : (stack : List String) → List String
  | [] => []
  | x :: stack => if x = id then [x] else x :: downTo id stack

/-- The numbers that are given when `id` is left. -/
def givenBy (w : Search) (id : String) : Table Nat :=
  if w.lowOf id = w.indexOf id then (downTo id w.stack).map fun x => (x, w.count) else []

/-- The numbers that a round of work on `id` gives. -/
def given (edges : EdgeMap) (id : String) (followed : Nat) (w : Search) : Table Nat :=
  match follow id followed ((edges.targets id).drop followed)
      (if followed = 0 then w.meet id else w) with
  | (_, some _) => []
  | (w, none) => w.givenBy id

/-- The search works its stack off, however many rounds it takes, and gives `numbers` in this
order. -/
inductive Works (edges : EdgeMap) :
    (work : List (String × Nat)) → Search → (numbers : Table Nat) → Search → Prop
  | done {w : Search} : Works edges [] w [] w
  | round {id : String} {followed : Nat} {work : List (String × Nat)} {w w' : Search}
    {numbers : Table Nat} :
    Works edges (w.round edges id followed work).1 (w.round edges id followed work).2 numbers w' →
    Works edges ((id, followed) :: work) w (given edges id followed w ++ numbers) w'

/-- The search works a stack off from each root that has not been met by then. -/
inductive Searches (edges : EdgeMap) :
    (roots : List String) → Search → (numbers : Table Nat) → Search → Prop
  | done {w : Search} : Searches edges [] w [] w
  | met {root : String} {roots : List String} {w w' : Search} {numbers : Table Nat} :
    root ∈ w.index.names → Searches edges roots w numbers w' →
    Searches edges (root :: roots) w numbers w'
  | new {root : String} {roots : List String} {w w₁ w' : Search} {numbers numbers' : Table Nat} :
    root ∉ w.index.names → Works edges [(root, 0)] w numbers w₁ →
    Searches edges roots w₁ numbers' w' →
    Searches edges (root :: roots) w (numbers ++ numbers') w'

/-! ## Numbers are given once -/

theorem downTo_sublist : (downTo id stack).Sublist stack := by
  induction stack with
  | nil => exact .slnil
  | cons x stack ih =>
    unfold downTo
    split
    · exact List.Sublist.cons_cons x (List.nil_sublist stack)
    · exact ih.cons_cons x

/-- Unstacking puts the numbers in one by one. -/
theorem unstack_numbers : (unstack id n stack component).2 =
    component.merge ((downTo id stack).map fun x => (x, n)) := by
  induction stack generalizing component with
  | nil => rfl
  | cons x stack ih =>
    unfold unstack downTo
    split
    · rfl
    · exact ih

theorem follow_component (id : String) (followed : Nat) (targets : List String) (w : Search) :
    (Search.follow id followed targets w).1.component = w.component := by
  induction targets generalizing followed w with
  | nil => rfl
  | cons t targets ih =>
    unfold Search.follow
    split
    · rw [ih]
      split <;> rfl
    · rfl

/-- The numbers that are given when an identifier is left are new ones. -/
theorem Invariant.leave_component (h : Invariant edges w [] work) (once : w.component.names.Nodup)
    (id : String) :
    (w.leave id).component = w.component ++ w.givenBy id ∧
      (w.leave id).component.names.Nodup := by
  unfold Search.leave givenBy
  split
  next =>
    have nodup : w.stack.Nodup := h.sorted.imp fun lt same => by
      rw [same] at lt
      exact Nat.lt_irrefl _ lt
    have names : Table.names ((downTo id w.stack).map fun x => (x, w.count)) =
        downTo id w.stack := by
      simp [Table.names, Function.comp_def]
    have apart : (w.component.names ++
        Table.names ((downTo id w.stack).map fun x => (x, w.count))).Nodup := by
      rw [names]
      refine List.nodup_append.2 ⟨once, nodup.sublist downTo_sublist, fun x hx y hy same => ?_⟩
      exact h.apart y (downTo_sublist.subset hy) (same ▸ hx)
    have appended : (w.close id).component =
        w.component ++ (downTo id w.stack).map fun x => (x, w.count) :=
      unstack_numbers.trans (Table.merge_eq_append apart)
    refine ⟨appended, ?_⟩
    rw [appended, Table.names, List.map_append]
    exact apart
  next => exact ⟨(List.append_nil _).symm, once⟩

/-- What a round gives comes after the numbers that were given before. -/
theorem Ready.round_component (h : Ready edges w ((id, followed) :: work) (n + 1))
    (once : w.component.names.Nodup) :
    (w.round edges id followed work).2.component = w.component ++ given edges id followed w ∧
      (w.round edges id followed work).2.component.names.Nodup := by
  have start : Invariant edges (if followed = 0 then w.meet id else w) [] ((id, followed) :: work) := by
    cases h with
    | meet h => exact h.meet
    | resume h begun => rwa [if_neg (begun _ rfl)]
  have same : (if followed = 0 then w.meet id else w).component = w.component := by
    split <;> rfl
  unfold Search.round given
  rw [← same] at once ⊢
  generalize (if followed = 0 then w.meet id else w) = w at start once
  obtain ⟨w', target?, run, -, next⟩ := start.follow
  have kept : w'.component = w.component := by
    rw [← follow_component id followed ((edges.targets id).drop followed) w, run]
  rw [run]
  rw [← kept] at once ⊢
  cases target? with
  | some target => exact ⟨(List.append_nil _).symm, once⟩
  | none =>
    obtain ⟨_, -, next⟩ := next
    obtain ⟨appended, once⟩ := next.leave_component once id
    cases work <;> exact ⟨appended, once⟩

/-- Rounds that are enough to work the stack off come to what it comes to without a bound. -/
theorem Ready.works (h : Ready edges w work n) (once : w.component.names.Nodup) :
    ∃ numbers, Works edges work w numbers (w.run edges n work) ∧
      (w.run edges n work).component = w.component ++ numbers ∧
      (w.run edges n work).component.names.Nodup := by
  induction n generalizing w work with
  | zero =>
    cases h with
    | meet _ room => omega
    | resume h _ room =>
      obtain rfl : work = [] := List.eq_nil_of_length_eq_zero (by omega)
      exact ⟨[], .done, (List.append_nil _).symm, once⟩
  | succ n ih =>
    cases work with
    | nil => exact ⟨[], .done, (List.append_nil _).symm, once⟩
    | cons top work =>
      obtain ⟨appended, once⟩ := h.round_component once
      obtain ⟨numbers, works, all, once⟩ := ih h.round once
      refine ⟨_, .round works, ?_, once⟩
      rw [← List.append_assoc, ← appended]
      exact all

/-! ## What is met -/

section Met

variable {P : String → Prop} (closed : ∀ x, P x → ∀ t ∈ edges.targets x, P t)

theorem follow_target {targets : List String} {followed' : Nat}
    (run : Search.follow id followed targets w = (w', some (t, followed'))) : t ∈ targets := by
  induction targets generalizing followed w with
  | nil => cases run
  | cons u targets ih =>
    unfold Search.follow at run
    split at run
    · exact List.mem_cons_of_mem _ (ih run)
    · obtain ⟨rfl, -⟩ := Prod.mk.inj (Option.some.inj (Prod.mk.inj run).2)
      exact List.mem_cons_self

include closed

/-- In a round nothing is met or put up to be met but what edges lead to. -/
theorem round_met (met : ∀ x ∈ w.index.names, P x) (up : ∀ f ∈ (id, followed) :: work, P f.1) :
    (∀ x ∈ (w.round edges id followed work).2.index.names, P x) ∧
      ∀ f ∈ (w.round edges id followed work).1, P f.1 := by
  rw [List.forall_mem_cons] at up
  constructor
  · intro x hx
    rw [round_index] at hx
    split at hx
    · exact (Table.mem_names_put.1 hx).elim (met x) fun same => same ▸ up.1
    · exact met x hx
  · unfold Search.round
    generalize (if followed = 0 then w.meet id else w) = w
    cases run : Search.follow id followed ((edges.targets id).drop followed) w with
    | mk w' target? =>
      cases target? with
      | some target =>
        have target : P target.1 := closed id up.1 _ (List.mem_of_mem_drop (follow_target run))
        exact List.forall_mem_cons.2 ⟨target, List.forall_mem_cons.2 ⟨up.1, up.2⟩⟩
      | none => cases work <;> exact up.2

theorem run_met (met : ∀ x ∈ w.index.names, P x) (up : ∀ f ∈ work, P f.1) :
    ∀ x ∈ (w.run edges n work).index.names, P x := by
  induction n generalizing w work with
  | zero => exact met
  | succ n ih =>
    cases work with
    | nil => exact met
    | cons top work =>
      obtain ⟨met, up⟩ := round_met closed met up
      exact ih met up

end Met

/-! ## Searches from roots -/

/-- The search from roots comes to an end. It gives new numbers alone, and meets only what roots lead
to. -/
theorem searches_spec {P : String → Prop} {roots : List String} (h : Invariant edges w [] [])
    (once : w.component.names.Nodup) (known : ∀ r ∈ roots, r ∈ edges.nodes)
    (closed : ∀ x, P x → ∀ t ∈ edges.targets x, P t) (met : ∀ x ∈ w.index.names, P x)
    (start : ∀ r ∈ roots, P r) :
    ∃ numbers, Searches edges roots w numbers (roots.foldl (visit edges) w) ∧
      (roots.foldl (visit edges) w).component = w.component ++ numbers ∧
      (roots.foldl (visit edges) w).component.names.Nodup ∧
      ∀ x ∈ (roots.foldl (visit edges) w).index.names, P x := by
  induction roots generalizing w with
  | nil => exact ⟨[], .done, (List.append_nil _).symm, once, met⟩
  | cons root roots ih =>
    rw [List.forall_mem_cons] at known start
    obtain ⟨h', -⟩ := visit_spec h known.1
    rw [List.foldl_cons]
    by_cases there : root ∈ w.index.names
    · have same : w.visit edges root = w := if_pos (Table.has_iff.2 there)
      rw [same]
      obtain ⟨numbers, searches, rest⟩ := ih h once known.2 met start.2
      exact ⟨numbers, .met there searches, rest⟩
    · have run : w.visit edges root = w.run edges (2 * edges.nodes.length) [(root, 0)] :=
        if_neg fun has => there (Table.has_iff.1 has)
      obtain ⟨numbers, works, appended, once⟩ := (h.ready known.1 there).works once
      rw [← run] at works appended once
      have met : ∀ x ∈ (w.visit edges root).index.names, P x := by
        rw [run]
        exact run_met closed met (by simpa using start.1)
      obtain ⟨numbers', searches, appended', rest⟩ := ih h' once known.2 met start.2
      refine ⟨_, .new there works searches, ?_, rest⟩
      rw [appended', appended, List.append_assoc]

end Search

/-- The search for components comes to an end, however many rounds it takes. By then it has numbered
everything that a source leads to, source or not, each once, and of what is numbered those and only
those that lead to each other have the same number. -/
theorem components_numbers (edges : EdgeMap) :
    (∃ w, Search.Searches edges (Failure.sortTexts (Table.names edges)) {} edges.components w ∧
      w.component = edges.components) ∧
    edges.components.names.Nodup ∧
    (∀ x, x ∈ edges.components.names ↔ ∃ a ∈ Table.names edges, Reaches edges.targets a x) ∧
    ∀ x ∈ edges.components.names, ∀ y, edges.components.get? x = edges.components.get? y ↔
      Reaches edges.targets x y ∧ Reaches edges.targets y x := by
  have roots (r) : r ∈ Failure.sortTexts (Table.names edges) ↔ r ∈ Table.names edges :=
    (Failure.sortTexts_perm _).mem_iff
  obtain ⟨count, settled, all⟩ := edges.components_spec
  obtain ⟨numbers, searches, appended, once, met⟩ := Search.searches_spec
    (P := fun x => ∃ a ∈ Table.names edges, Reaches edges.targets a x) Search.Invariant.start .nil
    (fun r hr => names_mem_nodes ((roots r).1 hr))
    (fun x ⟨a, ha, path⟩ t ht => ⟨a, ha, path.tail ht⟩) (by simp [Table.names])
    fun r hr => ⟨r, (roots r).1 hr, .refl⟩
  obtain rfl : edges.components = numbers := appended
  refine ⟨⟨_, searches, rfl⟩, once, fun x => ⟨fun hx => met x ?_, fun ⟨a, ha, path⟩ => ?_⟩,
    settled.same⟩
  · have done := (Search.visitAll_spec Search.Invariant.start
      fun r hr => names_mem_nodes ((roots r).1 hr)).1
    exact (done.met x).2 (.inr hx)
  · exact settled.reaches (all a ha) path

/-! ## Fatal edges -/

/-- Edges that start where they are filed. -/
def Filed (edges : EdgeMap) : Prop := ∀ a, ∀ e ∈ edges.leaving a, e.source = a

/-- An edge that is not lazy and lies on a cycle. -/
structure Fatal (edges : EdgeMap) (e : Edge) : Prop where
  leaves : e ∈ edges.leaving e.source
  eager : e.isLazy = false
  back : Reaches edges.targets e.target e.source

/-- The first fatal edge: by its source, and then by its place among the edges that leave it. -/
structure FirstFatal (edges : EdgeMap) (e : Edge) : Prop where
  fatal : edges.Fatal e
  source_le : ∀ f, edges.Fatal f → e.source ≤ f.source
  place : ∃ before after, edges.leaving e.source = before ++ e :: after ∧
    ∀ f ∈ before, ¬ edges.Fatal f

theorem mem_names_of_leaving {e : Edge} (he : e ∈ edges.leaving a) : a ∈ Table.names edges := by
  by_contra h
  simp [leaving, Table.get?_eq_none_iff.2 h] at he

/-- The test for fatal edges. -/
def fatal? (edges : EdgeMap) (e : Edge) : Bool :=
  !e.isLazy && edges.components.get? e.source == edges.components.get? e.target

theorem fatal?_iff {e : Edge} (he : e ∈ edges.leaving e.source) :
    edges.fatal? e = true ↔ edges.Fatal e := by
  rw [fatal?, Bool.and_eq_true, beq_iff_eq, Bool.not_eq_true',
    components_eq_iff (mem_names_of_leaving he)]
  exact ⟨fun h => ⟨he, h.1, h.2.2⟩,
    fun h => ⟨h.eager, .single (List.mem_map_of_mem he), h.back⟩⟩

theorem firstFatal?_eq : edges.firstFatal? edges.components =
    ((Failure.sortTexts (Table.names edges)).flatMap edges.leaving).find? edges.fatal? := rfl

theorem firstFatal?_eq_none (filed : edges.Filed) :
    edges.firstFatal? edges.components = none ↔ ∀ e, ¬ edges.Fatal e := by
  rw [firstFatal?_eq, List.find?_eq_none]
  constructor
  · intro h e fatal
    refine h e ?_ ((fatal?_iff fatal.leaves).2 fatal)
    exact List.mem_flatMap.2 ⟨e.source,
      (Failure.sortTexts_perm _).mem_iff.2 (mem_names_of_leaving fatal.leaves), fatal.leaves⟩
  · intro h e he fatal
    obtain ⟨a, -, he⟩ := List.mem_flatMap.1 he
    obtain rfl := filed a e he
    exact h e ((fatal?_iff he).1 fatal)

/-- Where the first hit of a search through the edges of several sources lies. -/
theorem find?_leaving {p : Edge → Bool} {sources : List String} {e : Edge}
    (h : (sources.flatMap edges.leaving).find? p = some e) :
    ∃ earlier a later before after, sources = earlier ++ a :: later ∧
      edges.leaving a = before ++ e :: after ∧ p e = true ∧
      (∀ b ∈ earlier, ∀ f ∈ edges.leaving b, p f = false) ∧ ∀ f ∈ before, p f = false := by
  induction sources with
  | nil => cases h
  | cons a sources ih =>
    rw [List.flatMap_cons, List.find?_append, Option.or_eq_some_iff] at h
    rcases h with h | ⟨none, h⟩
    · obtain ⟨hit, before, after, split, early⟩ := List.find?_eq_some_iff_append.1 h
      exact ⟨[], a, sources, before, after, rfl, split, hit, by simp, by simpa using early⟩
    · obtain ⟨earlier, b, later, before, after, rfl, split, hit, early, early'⟩ := ih h
      refine ⟨a :: earlier, b, later, before, after, rfl, split, hit, ?_, early'⟩
      exact List.forall_mem_cons.2 ⟨by simpa using none, early⟩

/-- What is found is the first fatal edge. -/
theorem firstFatal?_first (filed : edges.Filed) {e : Edge}
    (h : edges.firstFatal? edges.components = some e) : edges.FirstFatal e := by
  have sorted : (Failure.sortTexts (Table.names edges)).Pairwise (· ≤ ·) :=
    Failure.pairwise_sortTexts _
  rw [firstFatal?_eq] at h
  obtain ⟨earlier, a, later, before, after, split, place, hit, early, early'⟩ := find?_leaving h
  have leaves : e ∈ edges.leaving a := place ▸ List.mem_append_right _ List.mem_cons_self
  obtain rfl := filed a e leaves
  refine ⟨(fatal?_iff leaves).1 hit, fun f fatal => ?_, before, after, place, fun f hf fatal => ?_⟩
  · have there : f.source ∈ Failure.sortTexts (Table.names edges) :=
      (Failure.sortTexts_perm _).mem_iff.2 (mem_names_of_leaving fatal.leaves)
    rw [split, List.mem_append, List.mem_cons] at there
    rw [split, List.pairwise_append, List.pairwise_cons] at sorted
    rcases there with there | there | there
    · have := early f.source there f fatal.leaves
      rw [(fatal?_iff fatal.leaves).2 fatal] at this
      cases this
    · exact there ▸ String.le_refl _
    · exact sorted.2.1.1 f.source there
  · have := early' f hf
    rw [(fatal?_iff fatal.leaves).2 fatal] at this
    cases this

end Wiring.EdgeMap
