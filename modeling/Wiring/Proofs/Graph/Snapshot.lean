import Wiring.Proofs.Builder.Workshop
import Wiring.Proofs.Definition.InPlace
import Wiring.Proofs.Definition.Marks
import Wiring.Proofs.Definition.Same
import Wiring.Proofs.Graph.Embedding
import Wiring.Proofs.Graph.Mapping

/-!
# Snapshots of graphs

Where every embedded recipe has a mark of its own, a recipe lies in the pool as it is embedded. A
graph like that equals its own snapshot, and can be validated.
-/

namespace Wiring

open Definition Argument

namespace Pool

variable {pool : Pool} {d : Definition} {depth m : Nat}

/-- The recipes embedded in the definition lie in the pool as they are embedded. -/
def Holds (pool : Pool) (d : Definition) : Prop := ∀ e ∈ embedded d, pool.lookup e.1 = some e.2

/-- The recipes of what is embedded lie in the rest of the pool. -/
theorem Holds.inner {r : Definition} (h : Holds pool d) (ha : .inlined m r ∈ d.allArguments) :
    Holds (pool.filter fun e => e.1 != m) r := by
  intro e he
  have found := h e (mem_embedded.2 ⟨m, r, ha, .inr he⟩)
  -- no recipe is embedded in itself
  have ne : e.1 ≠ m := fun same => by
    rw [same, h (m, r) (mem_embedded.2 ⟨m, r, ha, .inl rfl⟩)] at found
    exact (Option.some.inj found ▸ embeddedCount_lt he).false
  rwa [lookup_filter ne]

/-- Where no argument is changed, neither are the lists of them. -/
theorem map_self {r : Definition} {f : Argument → Argument} (h : ∀ a ∈ r.allArguments, f a = a) :
    r.arguments.map f = r.arguments ∧ (r.keywords.map fun k => (k.1, f k.2)) = r.keywords := by
  constructor
  · exact (List.map_congr_left fun a ha => h a (List.mem_append_left _ ha)).trans (List.map_id _)
  · refine (List.map_congr_left fun k hk => ?_).trans (List.map_id _)
    rw [h k.2 (List.mem_append_right _ (List.mem_map_of_mem hk))]
    rfl

/-- Recipes that lie in the pool as they are embedded are left as they are. -/
theorem expand_self (h : Holds pool d) : ∀ a ∈ d.allArguments, expand depth pool a = a := by
  induction d using Definition.induct generalizing depth pool with
  | step d ih =>
    intro a ha
    cases a with
    | inlined m r =>
      cases depth with
      | zero => rfl
      | succ depth =>
        have inner : ∀ a ∈ r.allArguments,
            expand depth (pool.filter fun e => e.1 != m) a = a := ih m r ha (h.inner ha)
        have found := h (m, r) (mem_embedded.2 ⟨m, r, ha, .inl rfl⟩)
        obtain ⟨positional, named⟩ := map_self inner
        rw [expand]
        dsimp only
        rw [found, Option.getD_some, positional, named]
    | _ => cases depth <;> rfl

theorem expandDefinition_self (h : Holds pool d) : pool.expandDefinition d = d := by
  obtain ⟨positional, named⟩ := map_self (f := expand pool.depth pool) (expand_self h)
  rw [expandDefinition, positional, named]

end Pool

namespace Graph

variable {p g : Graph} {d : Definition}

/-- Definitions are known by marks that are not in use, where none of them is embedded. -/
theorem marked_fresh (alone : g.twins = []) {e : Nat × Definition} (he : e ∈ g.marked) :
    g.nextMark ≤ e.1 := by
  obtain ⟨⟨d, i⟩, -, rfl⟩ := List.mem_map.1 he
  simp [markAt, alone, Table.get?]

/-- The embedded recipes of a graph lie in its pool. -/
theorem Embedding.holds (h : Embedding p g) (hd : d ∈ g.definitions) :
    Pool.Holds g.recipes d := by
  intro e he
  have there : e ∈ g.embedded := List.mem_flatMap.2 ⟨d, hd, he⟩
  have skipped : g.marked.lookup e.1 = none := List.lookup_eq_none_iff.2 fun x hx => by
    have := marked_fresh h.alone hx
    have := h.stamped.fresh e there
    simp
    omega
  have found : g.embedded.lookup e.1 = some e.2 := h.stamped.coherent.lookup there
  rw [recipes, pool, List.lookup_append, List.lookup_append, skipped, found]
  rfl

/-- A graph whose embedded recipes lie in its pool can be validated. -/
theorem stable_of_holds (plain : g.Plain)
    (tagged : ∀ d ∈ g.definitions, ∀ q ∈ Definition.parts d, ∀ l ∈ q.tags, l.IsTag)
    (holds : ∀ d ∈ g.definitions, Pool.Holds g.recipes d) : g.Stable := by
  have taken : g.snapshot = .ok ⟨g.definitions, g.aliases,
      g.parameters.values.mergeSort fun a b => decide (a.1 ≤ b.1)⟩ := by
    refine bind_eq_ok.2 ⟨(), forM_eq_ok.2 fun d hd => forM_eq_ok.2 fun l hl => ?_, rfl⟩
    obtain ⟨t, rfl, -⟩ := tagged d hd d (self_mem_parts d) l hl
    rfl
  refine ⟨_, taken, ?_⟩
  have refreshed : g.definitions.map g.recipes.expandDefinition = g.definitions :=
    (List.map_congr_left fun d hd => Pool.expandDefinition_self (holds d hd)).trans (List.map_id _)
  simp only [Snapshot.same, Snapshot.refresh, refreshed, sameEntries_self, beq_self_eq_true,
    Bool.and_true]
  exact pairwise_self fun d hd => sameState_self (plain d hd) (tagged d hd)

/-- A sealed graph in which nothing is embedded twice can be validated. -/
theorem Embedding.stable (h : Embedding p g) (hg : g.Sealed) : g.Stable :=
  stable_of_holds hg.plain hg.tagged fun _ hd => h.holds hd

/-- A graph in which nothing is embedded can be validated. -/
theorem Flat.stable (flat : g.Flat) (labels : ∀ d ∈ g.definitions, ∀ l ∈ d.tags, l.IsTag) :
    g.Stable := by
  refine stable_of_holds flat.plain (fun d hd q hq => ?_) fun d hd => ?_
  · rw [(flat d hd).parts_eq, List.mem_singleton] at hq
    exact hq ▸ labels d hd
  · have none : Definition.embedded d = [] := (flat d hd).embedded_eq
    simp [Pool.Holds, none]

end Graph

end Wiring
