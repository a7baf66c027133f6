import Mathlib
import Wiring.Proofs.Builder.Compilation
import Wiring.Proofs.Definition.Agreement
import Wiring.Proofs.Graph.Snapshot

/-!
# What a validation pass cannot change

A pass of the validation phase whose run is accepted has handed back the graph that it got, and in
that graph nothing has changed that a snapshot tells: values are told apart by their equality, and
embedded recipes are taken as they are now. So what is changed inside an embedded recipe goes
unnoticed, and so does a value that is replaced by an equal one of another type. Where neither can be
the graph is the same, at every depth.
-/

namespace Wiring

/-! ## Tables in order -/

namespace Table

variable {α : Type} {R : Value → Value → Prop}

/-- Sorting a table by its names moves no entry past another of the same name. -/
theorem get?_mergeSort (t : Table α) (name : String) :
    get? (t.mergeSort fun a b => decide (a.1 ≤ b.1)) name = t.get? name := by
  let p (e : String × α) : Bool := e.1 == name
  have trans (a b c : String × α) (h : decide (a.1 ≤ b.1) = true) (h' : decide (b.1 ≤ c.1) = true) :
      decide (a.1 ≤ c.1) = true := by
    rw [decide_eq_true_eq] at h h' ⊢
    exact String.le_trans h h'
  have total (a b : String × α) : (decide (a.1 ≤ b.1) || decide (b.1 ≤ a.1)) = true := by
    simpa using String.le_total a.1 b.1
  have sorted : (t.filter p).Pairwise fun a b => decide (a.1 ≤ b.1) = true := by
    refine List.pairwise_of_forall_mem_list fun a ha b hb => ?_
    have ha : a.1 = name := by simpa [p] using (List.mem_filter.1 ha).2
    have hb : b.1 = name := by simpa [p] using (List.mem_filter.1 hb).2
    rw [ha, hb]
    exact decide_eq_true (String.le_refl name)
  have sub : (t.filter p).Sublist (t.mergeSort fun a b => decide (a.1 ≤ b.1)) :=
    List.sublist_mergeSort trans total sorted List.filter_sublist
  have same : (t.mergeSort fun a b => decide (a.1 ≤ b.1)).filter p = t.filter p := by
    refine ((List.Sublist.eq_of_length ?_ ?_)).symm
    · simpa only [List.filter_filter, Bool.and_self] using sub.filter p
    · exact ((List.mergeSort_perm t _).filter p).length_eq.symm
  have first (u : Table α) : u.get? name = ((u.filter p).head?).map (·.2) := by
    rw [get?, List.head?_filter]
  rw [first, first, same]

/-- Tables with like entries have like values. -/
theorem get?_agree {as bs : Table Value} (h : AgreeEntries R as bs) (name : String) :
    Option.Rel R (as.get? name) (bs.get? name) := by
  have found := forall₂_find? (p := fun e => e.1 == name) (q := fun e => e.1 == name) h
    fun a b agrees => by rw [agrees.1]
  unfold get?
  cases ha : as.find? fun e => e.1 == name <;> cases hb : bs.find? fun e => e.1 == name <;>
    rw [ha, hb] at found
  · exact .none
  · cases found
  · cases found
  · cases found with
    | some agrees => exact .some agrees.2

end Table

/-! ## Graphs -/

/-- Nothing has changed in a graph, up to a relation of values. -/
structure Graph.Unchanged (R : Value → Value → Prop) (now before : Graph) : Prop where
  definitions : List.Forall₂ (Definition.Agrees R) now.definitions before.definitions
  aliases : now.aliases = before.aliases
  parameters : ∀ name,
    Option.Rel R (now.parameters.values.get? name) (before.parameters.values.get? name)

/-- The values in a graph, at every depth. -/
def Graph.values (g : Graph) : List Value :=
  g.definitions.flatMap Definition.values ++ g.parameters.values.map (·.2)

theorem option_narrow {α β : Type} {R S : α → β → Prop} {x : Option α} {y : Option β}
    (h : Option.Rel R x y) (imp : ∀ b, y = some b → ∀ a, R a b → S a b) : Option.Rel S x y := by
  cases h with
  | some h => exact .some (imp _ rfl _ h)
  | none => exact .none

namespace Graph

variable {now before g : Graph} {R S : Value → Value → Prop}

/-- Graphs are as alike as the values in them are. -/
theorem Unchanged.narrow (h : Unchanged R now before)
    (imp : ∀ w ∈ before.values, ∀ v, R v w → S v w) : Unchanged S now before where
  definitions := forall₂_narrow h.definitions fun d hd _ agrees => agrees.narrow fun w hw =>
    imp w (List.mem_append_left _ (List.mem_flatMap.2 ⟨d, hd, hw⟩))
  aliases := h.aliases
  parameters name := option_narrow (h.parameters name) fun w hw v agrees => imp w
    (List.mem_append_right _ (List.mem_map_of_mem (Table.mem_of_get? hw))) v agrees

theorem snapshot_ok {snapshot : Snapshot} (h : g.snapshot = .ok snapshot) : snapshot =
    ⟨g.definitions, g.aliases, g.parameters.values.mergeSort fun a b => decide (a.1 ≤ b.1)⟩ := by
  obtain ⟨_, -, h⟩ := bind_eq_ok.1 h
  exact (Except.ok.inj h).symm

/-- The graph with its embedded recipes as they lie in a pool. -/
def refreshed (g : Graph) (pool : Pool) : Graph :=
  { g with definitions := g.definitions.map pool.expandDefinition }

/-- What is known of a graph after validation, if it was `before` and is `now`. -/
structure Validated (now before : Graph) : Prop where
  /-- Nothing has changed up to equality, embedded recipes apart. -/
  shown : Unchanged (fun v w => v.same w = true) now (before.refreshed now.recipes)
  /-- Nothing at all, if embedded recipes have been left as they are. -/
  kept : (∀ d ∈ before.definitions, Pool.Holds now.recipes d) →
    Unchanged (fun v w => v.same w = true) now before
  /-- And if no value has an equal, all values are the same. -/
  exact : (∀ d ∈ before.definitions, Pool.Holds now.recipes d) → (∀ w ∈ before.values, w.Sole) →
    Unchanged Eq now before

/-- Where snapshots are the same little can have changed. -/
theorem validated_of_same {a b : Snapshot} (ha : now.snapshot = .ok a) (hb : before.snapshot = .ok b)
    (same : a.same (b.refresh now.recipes) = true) : Validated now before := by
  obtain rfl := snapshot_ok ha
  obtain rfl := snapshot_ok hb
  simp only [Snapshot.same, Snapshot.refresh, Bool.and_eq_true, beq_iff_eq] at same
  obtain ⟨⟨definitions, aliases⟩, parameters⟩ := same
  have shown : Unchanged (fun v w => v.same w = true) now (before.refreshed now.recipes) := {
    definitions := (forall₂_of_pairwise definitions).imp fun _ _ => Definition.agrees_of_same
    aliases
    parameters := fun name => by
      have agrees := Table.get?_agree (agreeEntries_of_same parameters) name
      rwa [Table.get?_mergeSort, Table.get?_mergeSort] at agrees }
  have kept (holds : ∀ d ∈ before.definitions, Pool.Holds now.recipes d) :
      Unchanged (fun v w => v.same w = true) now before := by
    have left : before.definitions.map now.recipes.expandDefinition = before.definitions :=
      (List.map_congr_left fun d hd => Pool.expandDefinition_self (holds d hd)).trans (List.map_id _)
    rwa [refreshed, left] at shown
  exact ⟨shown, kept, fun holds sole => (kept holds).narrow fun w hw v agrees => sole w hw v agrees⟩

end Graph

/-! ## Passes -/

namespace Pipeline

variable {σ γ π : Type} {host : Host σ γ π} {s : Scheduled π} {g g' : γ} {w w' : σ}

/-- The world in which a pass begins. -/
def noted (host : Host σ γ π) (s : Scheduled π) (w : σ) : σ :=
  host.note (.pass (host.passName s.pass) s.phase s.priority) w

theorem snapshotBefore_validating {before : Option Snapshot}
    (h : snapshotBefore host .beforeRemoving g w = .ok before w') :
    w' = w ∧ ∃ snapshot, (host.graph g w).snapshot = .ok snapshot ∧ before = some snapshot := by
  unfold snapshotBefore at h
  rw [if_pos rfl] at h
  simp only [Run.get_bind, Run.bind_ok, Workshop.check_ok, Run.pure_ok] at h
  obtain ⟨snapshot, _, ⟨taken, rfl⟩, rfl, rfl⟩ := h
  exact ⟨rfl, snapshot, taken, rfl⟩

/-- If a pass of the validation phase is accepted, it has handed back the graph that it got, and that
graph is the same but for what equality does not tell and what has changed inside embedded
recipes. -/
theorem validation_unchanged (validating : s.phase = .beforeRemoving)
    (h : runPass host s g w = .ok g' w') :
    g' = g ∧ Graph.Validated (host.graph g w') (host.graph g (noted host s w)) := by
  unfold runPass at h
  rw [validating] at h
  simp only [Run.bind_ok, Run.modify_ok] at h
  obtain ⟨_, _, rfl, _, w₁, taken, returned, w₂, performed, h⟩ := h
  obtain ⟨rfl, before, hb, rfl⟩ := snapshotBefore_validating taken
  rw [← validating] at hb
  cases returned with
  | other typeName => simp at h
  | graph other => simp at h
  | same =>
    simp only [Run.get_bind, Run.bind_ok, Workshop.check_ok] at h
    obtain ⟨now, _, ⟨hn, rfl⟩, h⟩ := h
    split at h
    · simp at h
    next same =>
      obtain ⟨rfl, rfl⟩ := Run.pure_ok.1 h
      exact ⟨rfl, Graph.validated_of_same hn hb (by simpa using same)⟩

end Pipeline

/-! ## A greeter

A class that is made with texts. Its parameters are resolved once more when it is validated. -/

/-- Whether a pass of the library is accepted as a validation of a graph. -/
def Graph.validates (g : Graph) (b : Builtin) : Bool :=
  match Pipeline.runPass Workshop.yard.host ⟨b, .beforeRemoving, 0, 0⟩ .working
    { Workshop.start {} [] with working := g } with
  | .ok _ _ => true
  | .error _ _ => false

/-- An application with a greeter. -/
def Graph.greeter : Graph where
  definitions := [
    { id := "greeter", factory := some (.simple "Greeter")
      arguments := [.literal (.str "hello"), .literal (.list [.null, .tuple [.str "%"]])] }]

theorem Pipeline.validation_unchanged_greeter : ∃ w bench w', w.working = Graph.greeter ∧
    runPass Workshop.yard.host ⟨.resolveParameters, .beforeRemoving, 0, 0⟩ .working w =
      .ok bench w' ∧
    bench = .working ∧ Graph.Unchanged Eq w'.working Graph.greeter := by
  have accepted : Graph.greeter.validates .resolveParameters = true := by cbv
  have none : ∀ d ∈ Graph.greeter.definitions, Definition.embedded d = [] := by decide
  have sole : ∀ v ∈ Graph.greeter.values, v.Sole := by
    have inner : (Value.tuple [.str "%"]).Sole := Value.sole_tuple (by simp [Value.sole_str])
    have outer : (Value.list [.null, .tuple [.str "%"]]).Sole :=
      Value.sole_list (by simp [inner, Value.sole_null])
    have all : Graph.greeter.values = [.str "hello", .list [.null, .tuple [.str "%"]]] := by rfl
    simp [all, Value.sole_str, outer]
  unfold Graph.validates at accepted
  split at accepted
  next bench w' h =>
    obtain ⟨same, validated⟩ := validation_unchanged rfl h
    refine ⟨_, bench, w', rfl, h, same, validated.exact (fun d hd e he => ?_) sole⟩
    rw [none d hd] at he
    cases he
  next => cases accepted

end Wiring
