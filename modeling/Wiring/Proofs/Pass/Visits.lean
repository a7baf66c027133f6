import Mathlib
import Wiring.Proofs.Failing
import Wiring.Proofs.Pass.Preparation

/-!
# The walks of autowiring and of removal

Autowiring visits definitions while it rewrites the references that it follows. Removal walks over a
graph whose references no longer go by aliases, and whose collections are lists of references. Both
walks come to the same definitions, as each pass between them keeps the ways from the roots.
-/

namespace Wiring

open Graph TagIndex Pass

open Builtin

variable {g s a b : Graph} {rules : List TagRule} {index : TagIndex}
  {visited reached : List String} {d : Definition} {id : String}

/-- Definitions that are not visited are left as they are. -/
theorem Pass.WiredWhere.find?_eq {index : CapabilityIndex}
    (h : WiredWhere (· ∈ visited) index s a) (new : id ∉ visited) : a.find? id = s.find? id := by
  cases hd : s.find? id with
  | none => exact find?_eq_none_iff.2 (h.ids_eq ▸ find?_eq_none_iff.1 hd)
  | some d =>
    obtain ⟨d', hd', -, same⟩ := h.find?_new hd
    rw [hd', same ((mem_of_find? hd).2 ▸ new)]

/-- The failure does not report a slot that is not filled. -/
def Failure.NoOpenSlot (e : Failure) : Prop := ∀ id, e ≠ .breach (.openSlot id)

theorem Pass.checkDefinition_slots
    (filled : d.id ∈ reached → ∀ a ∈ d.allArguments, a.isSlot = false) :
    FailsBy Failure.NoOpenSlot (checkDefinition reached d) := by
  unfold checkDefinition
  cases d.parent with
  | some parent => exact .error nofun
  | none =>
    dsimp only
    split
    · exact .ok ()
    split
    · exact .error nofun
    split
    · exact .error nofun
    split
    next there =>
      have none : d.allArguments.any Argument.isSlot = false := by
        simpa using filled (by simpa using there)
      unfold checkArguments
      rw [none, if_neg Bool.false_ne_true]
      split
      · exact .ok ()
      split
      · exact .ok ()
      split
      · exact .ok ()
      · exact .error nofun
    · exact .ok ()

namespace Baked

theorem reachableIds_succeeds (h : Baked s b) : ∃ reached, b.reachableIds = .ok reached :=
  Graph.reachableIds_succeeds h.toTidy h.flat.plain
    (fun a ha => ⟨_, resolveAlias_of_direct (findAlias?_of_mem h.uniqueAliases ha) (h.direct a ha)⟩)
    fun d hd r hr => ⟨_, resolveAlias_of_free (h.free d hd r hr)⟩

/-- The check of definitions finds a slot in none that is reached. -/
theorem checkDefinitions_fails (h : Baked s b) : FailsBy Failure.NoOpenSlot (checkDefinitions b) := by
  obtain ⟨index, hi⟩ := h.indexed
  refine .bind (.of_ok h.reachableIds_succeeds) fun reached hr => .forM fun d hd =>
    checkDefinition_slots fun there => ?_
  obtain ⟨-, -, -, slots⟩ :=
    h.filled index hi d hd ((mem_reachableIds h.toTidy h.flat.plain hr).1 there)
  exact slots

end Baked

/-- The definitions that autowiring visits are those that it leaves reachable, in the order of the
walk; all others it leaves as they are. The passes up to removal keep what is reachable, no check
finds a slot that is not filled, and removal keeps what has been visited and nothing else. -/
theorem autowireWalk_kept (registered : g.Registered) (sound : Sound rules)
    (start : Runs beforeAutowiring { rules } g index s)
    (walk : Build.Gives autowireWalk s visited a) :
    Build.Gives Pass.autowire s () a ∧ a.reachableIds = .ok visited ∧
    a.ids = s.ids ∧ (∀ id ∉ visited, a.find? id = s.find? id) ∧
    ∀ index₁ b, Runs (ofPhase .optimize) index a index₁ b →
      (∃ reached, b.reachableIds = .ok reached ∧ ∀ id, id ∈ reached ↔ id ∈ visited) ∧
      (∀ id, checkDefinitions b ≠ .error (.breach (.openSlot id))) ∧
      ∀ index₂ p, Runs (ofPhase .beforeRemoving ++ ofPhase .remove) index₁ b index₂ p →
        p.definitions = b.definitions.filter (fun d => decide (d.id ∈ visited)) ∧
        ∀ id, id ∈ p.ids ↔ id ∈ visited := by
  have begun := begun_of_runs registered sound start
  have autowires : Build.Gives Pass.autowire s () a := by
    rw [autowire_eq]
    exact Build.gives_discard.2 ⟨visited, walk⟩
  obtain ⟨_, -, upTo, again⟩ := autowireWalk_gives begun.toTidy begun.flat walk
  have valued := begun.toValued.autowire autowires
  have visits (id : String) : a.Reached id ↔ id ∈ visited :=
    (mem_reachableIds valued.toTidy valued.flat.plain again).symm
  refine ⟨autowires, again, upTo.ids_eq, fun id new => upTo.find?_eq new,
    fun index₁ b optimized => ?_⟩
  obtain ⟨baked, ways⟩ := baked_of_runs begun autowires optimized
  refine ⟨?_, fun id fails => baked.checkDefinitions_fails _ fails id rfl, fun index₂ p kept => ?_⟩
  · obtain ⟨reached, hr⟩ := baked.reachableIds_succeeds
    refine ⟨reached, hr, fun id => ?_⟩
    rw [mem_reachableIds baked.toTidy baked.flat.plain hr, ways.reached_iff, visits]
  · have tidy := published_tidy baked.toTidy
    have ways := ways.trans (published_sameWays baked.toTidy baked.direct baked.free)
    obtain ⟨-, removes⟩ := checked_of_runs baked.flat.plain kept
    have pruned := removeUnused_spec tidy baked.flat.plain removes
    obtain ⟨reached, hr, rfl⟩ := removeUnused_eq tidy.alone removes
    have same (id : String) : id ∈ reached ↔ id ∈ visited := by
      rw [mem_reachableIds tidy baked.flat.plain hr, ways.reached_iff, visits]
    refine ⟨?_, fun id => ?_⟩
    · simp only [same]
      rfl
    · rw [pruned.mem_ids tidy, ways.reached_iff, visits]

/-! ## An office

The desk asks for the mail, which is another name of the post, and for all that has stamps. Nobody
asks for the attic, for which there is no key. -/

/-- A factory that takes any number of parts. -/
def Factory.assembly : Factory where
  type := ⟨"assemble", .function⟩
  lineage := []
  maker := "assemble"
  receiver := none
  parameters := [⟨"parts", .rest, false⟩]
  hints := .ok []

namespace Graph

/-- An office with what is asked for or given at the desk. -/
def office (desk : List Argument) : Graph where
  definitions := [
    { id := "desk", factory := some .assembly, arguments := desk },
    { id := "post", factory := some .assembly, isPublic := false
      tags := [.tag { name := "stamps" }] },
    { id := "attic", factory := some .assembly, isPublic := false
      arguments := [.autowire { name := some "key" }] }]
  aliases := [{ id := "mail", target := "post", isPublic := false }]
  parameters := { resolved := some [] }

/-- The office as it is registered. -/
def office.registry : Graph :=
  { office [.autowire { name := some "mail" }, .tagged "stamps"] with parameters := {} }

/-- What is at the desk in the end. -/
def office.delivered : List Argument :=
  [.reference { id := "post" }, .collection "stamps" [{ id := "post" }]]

theorem office.registered : registry.Registered where
  unique := by decide
  uniqueAliases := by decide
  apart := by decide
  labels := by simp [registry, office, Label.IsTag, Table.names]
  alone := rfl
  declared := by simp [Holds, registry, office, Recipe.allArguments, Argument.isDeclared]

theorem office.optimized (index : TagIndex) : Runs (ofPhase .optimize) index
    (office [.reference { id := "mail" }, .tagged "stamps"]) index (office delivered) := by
  have gathered :
      TagIndex.gather (office [.reference { id := "mail" }, .tagged "stamps"]).definitions =
        .ok [("stamps", [⟨"post", [], .whole 0⟩])] := rfl
  refine .job (by decide) ⟨[], [], rfl⟩ (.job (by decide) (Build.Does.gives (.bind
    (rebuild_does rfl ?_ gathered) (.changeOrFail ?_))) .nil)
  · rintro _ (_ | ⟨_, _ | ⟨_, _ | ⟨_, ⟨⟩⟩⟩⟩) - <;> exact ⟨_, rfl⟩
  · have one (t : Tagged) : Tagged.sort [t] = [t] := List.perm_singleton.1 (Rank.sort_perm _ _)
    simp only [List.map_cons, List.map_nil, one]
    rfl

theorem office.removed (index : TagIndex) : ∃ p,
    Runs (ofPhase .beforeRemoving ++ ofPhase .remove) index (office delivered) index p := by
  have acyclic : checkCycles (office delivered) = .ok () := by cbv
  have accepted : Build.Does Builtin.checkCycles.job (office delivered) () (office delivered) :=
    .bind .graph (.check acyclic)
  exact ⟨_, .job (by decide) ⟨[], [], rfl⟩ (.job (by decide) ⟨[], [], rfl⟩
    (.job (by decide) accepted.gives (.job (by decide) ⟨[], [], rfl⟩
      (.job (by decide) ⟨[], _, rfl⟩ .nil))))⟩

end Graph

/-- At the office the desk and the post are visited, and the attic is not. -/
theorem autowireWalk_kept_office : ∃ index s a b p,
    Runs beforeAutowiring {} office.registry index s ∧
    Build.Gives autowireWalk s ["desk", "post"] a ∧ Runs (ofPhase .optimize) index a index b ∧
    Runs (ofPhase .beforeRemoving ++ ofPhase .remove) index b index p ∧
    a.reachableIds = .ok ["desk", "post"] ∧ a.find? "attic" = s.find? "attic" ∧
    (∀ id, id ∈ p.ids ↔ id ∈ ["desk", "post"]) := by
  have sound : Sound [] := fun _ h => nomatch h
  have start : Runs beforeAutowiring {} office.registry _
      (office [.autowire { name := some "mail" }, .tagged "stamps"]) :=
    .job (by decide) ⟨[], [], rfl⟩ (.job (by decide) ⟨[], [], rfl⟩ (.cons ⟨[], [], rfl⟩ .nil))
  have walk : Build.Gives autowireWalk (office [.autowire { name := some "mail" }, .tagged "stamps"])
      ["desk", "post"] (office [.reference { id := "mail" }, .tagged "stamps"]) :=
    ⟨[], [], by cbv⟩
  obtain ⟨-, again, -, unchanged, later⟩ :=
    autowireWalk_kept office.registered sound start walk
  obtain ⟨p, removed⟩ := office.removed _
  have kept := (later _ _ (office.optimized _)).2.2 _ _ removed
  exact ⟨_, _, _, _, p, start, walk, office.optimized _, removed, again,
    unchanged "attic" (by decide), kept.2⟩

end Wiring
