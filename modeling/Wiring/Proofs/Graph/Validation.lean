import Mathlib
import Wiring.Proofs.Graph.Failing

/-!
# What validation reports

Where no alias leads back to itself, every reference leads somewhere. Validation then fails if and only
if an arc that is not lazy lies on a cycle, and it reports a shortest cycle through the first of them.
-/

namespace Wiring.Graph

variable {g : Graph} {id : String}

namespace LoopFree

theorem exists_edge (free : g.LoopFree) (source : String) (r : Reference) :
    ∃ edge?, g.edgeOf source r = .ok edge? := by
  obtain ⟨target, ht⟩ := free.resolves r.id
  exact ⟨_, bind_eq_ok.2 ⟨target, ht, rfl⟩⟩

/-- There are edges if and only if all is a reference of which a reference is needed. -/
theorem exists_edges (free : g.LoopFree) :
    (∃ edges, g.edges = .ok edges) ↔ ∀ d ∈ g.definitions, Definition.Referring d := by
  simp only [edges_eq_ok]
  constructor
  · rintro ⟨edges, h⟩ d hd
    obtain ⟨_, -, referring, -⟩ := forall₂_mem_left h hd
    exact referring
  · intro referring
    refine forall₂_exists fun d hd => ?_
    obtain ⟨found, hf⟩ :=
      (mapM_succeeds (f := g.edgeOf d.id)).2 fun r _ => free.exists_edge d.id r
    exact ⟨_, referring d hd, found, hf, rfl⟩

end LoopFree

/-! ## Failures that tell of no cycle -/

/-- The failure does not tell of services that depend on each other in a circle. -/
def Uncircular (e : Failure) : Prop := ∀ cycle phase, e ≠ .fault (.circularServices cycle) phase

theorem followAliases_uncircular {depth : Nat} {chain : List String} :
    FailsBy Uncircular (g.followAliases depth chain id) := by
  have loop (chain : List String) : Uncircular (.aliasLoop chain) := fun cycle phase same => by
    unfold Failure.aliasLoop at same
    split at same <;> cases same
  induction depth generalizing chain id with
  | zero =>
    cases found : g.findAlias? id with
    | none =>
      rw [followAliases_none found]
      exact .ok id
    | some a =>
      rw [followAliases_zero found]
      split
      · exact .error (loop _)
      · exact .error fun cycle phase same => nomatch same
  | succ depth ih =>
    cases found : g.findAlias? id with
    | none =>
      rw [followAliases_none found]
      exact .ok id
    | some a =>
      rw [followAliases_succ found]
      split
      · exact .error (loop _)
      · exact ih

theorem resolveAliasStrict_uncircular : FailsBy Uncircular (g.resolveAliasStrict id) := by
  refine .bind followAliases_uncircular fun target _ => ?_
  split
  · exact .ok target
  · exact .error fun cycle phase same => nomatch same

/-- A failure to list the edges is none of a cycle. -/
theorem edges_uncircular : FailsBy Uncircular g.edges := by
  have edge (source : String) (r : Reference) : FailsBy Uncircular (g.edgeOf source r) :=
    .bind followAliases_uncircular fun _ _ => .ok _
  refine .mapM fun d _ => .bind ?_ fun _ _ => .ok _
  unfold Definition.eachReference
  split
  · exact .mapM fun r _ => edge d.id r
  · refine .mapM fun a _ => .bind ?_ fun r _ => edge d.id r
    cases a with
    | reference r => exact .ok r
    | plain v =>
      refine .error fun cycle phase same => ?_
      unfold Failure.lacking at same
      split at same
      · split at same <;> cases same
      · cases same
    | _ => exact .error fun cycle phase same => by cases same

/-! ## Reports -/

/-- Validation of a graph without loops of aliases fails for a cycle if and only if some arc that is not
lazy lies on a cycle. What is reported is a shortest cycle through the first such arc, and nothing
else goes wrong once the edges are listed. -/
theorem validate_reports (free : g.LoopFree) :
    ((∃ edges, g.edges = .ok edges) ↔ ∀ d ∈ g.definitions, Definition.Referring d) ∧
    (∀ e, g.edges = .error e → g.validate = .error e ∧
      ∀ cycle phase, e ≠ .fault (.circularServices cycle) phase) ∧
    ∀ edges, g.edges = .ok edges →
      (∀ a d, g.find? a = some d → ∃ found,
        (Definition.references d).mapM (g.edgeOf a) = .ok found ∧
        edges.leaving a = found.filterMap fun edge? => edge?) ∧
      ((∃ cycle, g.validate = .error (.fault (.circularServices cycle) none)) ↔
        ∃ a b, g.Arc false a b ∧ Relation.ReflTransGen g.Depends b a) ∧
      (g.validate = .ok () ∨ ∃ e cycle,
        g.validate = .error (.fault (.circularServices cycle) none) ∧
        edges.FirstFatal e ∧ edges.ShortestThrough e cycle) := by
  refine ⟨free.exists_edges, fun e failed => ⟨?_, edges_uncircular e failed⟩, fun edges listed => ?_⟩
  · rw [validate, failed]
    rfl
  have same : g.validate = edges.validate := by
    rw [validate, listed]
    rfl
  rw [same]
  refine ⟨fun a d => leaving_eq listed, ?_, ?_⟩
  · rcases edges.validate_spec (filed listed) with ⟨ok, none⟩ | ⟨e, cycle, failed, first, -⟩
    · constructor
      · rintro ⟨cycle, failed⟩
        cases ok.symm.trans failed
      · rintro ⟨a, b, arc, back⟩
        exact absurd ((fatal_iff listed).2 ⟨rfl, arc, back⟩) (none ⟨a, b, false⟩)
    · obtain ⟨-, arc, back⟩ := (fatal_iff listed).1 first.fatal
      exact iff_of_true ⟨cycle, failed⟩ ⟨e.source, e.target, arc, back⟩
  · exact (edges.validate_spec (filed listed)).imp And.left id

/-- A triangle with a shortcut: `a` leads over an alias to `b`, and `b` to `c` and lazily back to `a`. -/
def triangle : Graph where
  definitions := [
    { id := "a", arguments := [.reference { id := "next" }] },
    { id := "b", arguments := [.reference { id := "c" }, .reference { id := "a", lazy := true }] },
    { id := "c", arguments := [.reference { id := "a" }] }]
  aliases := [{ id := "next", target := "b" }]

theorem validate_reports_triangle : triangle.LoopFree ∧
    ∃ edges e cycle, triangle.edges = .ok edges ∧
      triangle.validate = .error (.fault (.circularServices cycle) none) ∧
      edges.FirstFatal e ∧ edges.ShortestThrough e cycle := by
  have only {a b} (h : triangle.Aliases a b) : a = "next" ∧ b = "b" := by
    obtain ⟨x, found, rfl⟩ := h
    obtain ⟨hx, rfl⟩ := mem_of_findAlias? found
    obtain rfl := List.mem_singleton.1 hx
    exact ⟨rfl, rfl⟩
  have free : triangle.LoopFree := fun id loop => by
    obtain ⟨_, out, -⟩ := Relation.TransGen.head'_iff.1 loop
    obtain ⟨_, -, back⟩ := Relation.TransGen.tail'_iff.1 loop
    exact absurd ((only out).1.symm.trans (only back).2) (by decide)
  have listed : triangle.edges.isOk = true := by cbv
  have refused : triangle.validate.isOk = false := by cbv
  obtain ⟨-, -, reports⟩ := validate_reports free
  obtain ⟨edges, h⟩ := exists_ok_of_isOk listed
  rcases (reports edges h).2.2 with ok | ⟨e, cycle, failed, first, shortest⟩
  · simp [ok, Except.isOk, Except.toBool] at refused
  · exact ⟨free, edges, e, cycle, h, failed, first, shortest⟩

/-- The shortcut is reported. -/
example : (triangle.validate.mapError fun
    | .fault (.circularServices cycle) _ => cycle
    | _ => []) = .error ["a", "b", "a"] := by cbv

end Wiring.Graph
