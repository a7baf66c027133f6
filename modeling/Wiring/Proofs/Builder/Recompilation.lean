import Wiring.Proofs.Builder.Compilation
import Wiring.Proofs.Container.Closed
import Wiring.Proofs.Container.Visibility
import Wiring.Proofs.Graph.Marks
import Wiring.Proofs.Graph.Snapshot

/-!
# Compiling once more

What a compilation leaves is left by a second one as it is: the definitions, aliases and parameters
are the same, and so are the identifiers that can be fetched and the construction orders.
-/

namespace Wiring

open Graph Definition Container

variable {g f s : Graph} {c c' : Container} {lockMode lockMode' : LockMode} {id : String}
  {privateIds privateIds' : List String}

namespace Container

/-! ## Containers of graphs that differ in marks alone -/

section Marks

variable (h : Frozen f lockMode privateIds c) (h' : Frozen s lockMode' privateIds' c')
  (alike : Graph.Alike f s)

include h h' alike

theorem Frozen.plans_eq : c'.plans = c.plans := by
  have first := mapM_eq_ok.2 ((alike.plans h.plans).imp fun _ _ hp => plan_eq_ok.2 hp)
  have second := mapM_eq_ok.2 (h'.plans.imp fun _ _ hp => plan_eq_ok.2 hp)
  exact Except.ok.inj (second.symm.trans first)

theorem Frozen.aliases_eq : c'.aliases = c.aliases := by
  have step {g : Graph} {x : Alias} {e : String × String}
      (h : x.id = e.1 ∧ g.resolveAliasStrict x.id = .ok e.2) :
      (g.resolveAliasStrict x.id).map (fun t => (x.id, t)) = .ok e := by
    rw [h.2, h.1]
    rfl
  have first := mapM_eq_ok.2 (h.aliases.imp fun _ _ => step)
  have second := mapM_eq_ok.2 (h'.aliases.imp fun _ _ => step)
  have targets : s.resolveAliasStrict = f.resolveAliasStrict := funext alike.resolveAliasStrict_eq
  rw [alike.aliases_eq, targets] at second
  exact Except.ok.inj (second.symm.trans first)

theorem Frozen.orderOf_eq_of_alike (id : String) : c'.orderOf id = c.orderOf id := by
  have plans := h.plans_eq h' alike
  have heights : c'.heights = c.heights := by
    have := h'.heights
    rw [plans, h.heights] at this
    exact (Except.ok.inj this).symm
  unfold orderOf
  rw [h.orders, h'.orders, plans, heights]

end Marks

/-! ## What can be fetched -/

/-- A service that is left is refused if and only if it is private. -/
theorem Frozen.mem_privateIds (h : Frozen f lockMode (Yard.privateIds g) c) (tidy : g.Tidy)
    (visible : g.Visible f) (unique : f.ids.Nodup) {p : ServicePlan} (hp : p ∈ c.plans) :
    p.id ∈ c.privateIds ↔ p.isPublic = false := by
  obtain ⟨d, hd, planned⟩ := forall₂_mem_right h.plans hp
  obtain ⟨e, he, ids, same⟩ := visible d hd
  rw [h.privateIds_eq, Yard.privateIds, List.mem_append, List.mem_append]
  constructor
  · rintro ((hidden | aliased) | own)
    · obtain ⟨e', he', hid⟩ := List.mem_map.1 hidden
      obtain ⟨he', isPublic⟩ := List.mem_filter.1 he'
      obtain rfl := eq_of_id_eq tidy.unique he' he (hid.trans (planned.id_eq.trans ids))
      rw [planned.isPublic_eq, same]
      simpa using isPublic
    · obtain ⟨a, ha, hid⟩ := List.mem_map.1 aliased
      refine absurd ?_ (tidy.apart a.id (List.mem_map_of_mem (List.mem_filter.1 ha).1))
      exact mem_ids.2 ⟨e, he, ids.symm.trans (planned.id_eq.symm.trans hid.symm)⟩
    · obtain ⟨p', hp', hid⟩ := List.mem_map.1 own
      obtain ⟨hp', isPublic⟩ := List.mem_filter.1 hp'
      have one : (c.plans.map (·.id)).Nodup := (PlansOf.ids_eq h.plans).symm ▸ unique
      obtain rfl := List.inj_on_of_nodup_map one hp' hp hid
      simpa using isPublic
  · exact fun hidden => .inr (List.mem_map_of_mem (List.mem_filter.2 ⟨hp, by simp [hidden]⟩))

/-- What an identifier stands for can be told if it is one of those that can be fetched. -/
theorem exists_publicTarget (hid : id ∈ c.serviceIds) : ∃ target, c.publicTarget id = .ok target ∧
    (c.aliases.get? id = some target ∨ c.aliases.get? id = none ∧ target = id) := by
  unfold publicTarget
  cases ha : c.aliases.get? id with
  | some target => exact ⟨target, rfl, .inl rfl⟩
  | none =>
    have absent := Table.get?_eq_none_iff.1 ha
    obtain ⟨there, isPublic⟩ := (mem_serviceIds.1 hid).resolve_right absent
    obtain ⟨p, hp, same⟩ := List.mem_map.1 there
    have found : c.plan? id ≠ none := fun none => by
      have := List.find?_eq_none.1 none p hp
      simp [same] at this
    refine ⟨id, ?_, .inr ⟨rfl, rfl⟩⟩
    dsimp only
    rw [if_neg (by simpa using isPublic), if_neg (by simpa using found)]

end Container

/-- What is left in the end is as visible as it was. -/
theorem Compiled.visible_final {p : Graph} (h : Compiled g p f) : g.Visible f := by
  refine h.visible.trans fun d hd => ?_
  obtain ⟨e, he, hR⟩ := h.embedding.grafts d (mem_parts_of_definition hd)
  exact ⟨e, he, hR.id_eq, hR.isPublic_eq⟩

namespace Graph

/-- The definitions of a container can be compiled once more, and the second container has the same
definitions, aliases and parameters, the same plans, the same identifiers that can be fetched and
the same construction orders. -/
theorem compile_definitions {rules : List TagRule} (registered : g.Registered)
    (sound : TagIndex.Sound rules) (h : g.compile rules lockMode = .ok c) (lockMode' : LockMode) :
    ∃ s c', c.definitions = .ok s ∧ s.compile [] lockMode' = .ok c' ∧ c'.graph = c.graph ∧
      c'.plans = c.plans ∧ c'.aliases = c.aliases ∧ c'.serviceIds = c.serviceIds ∧
      ∀ id ∈ c.serviceIds, ∃ order, c.resolutionOrder id = .ok order ∧
        c'.resolutionOrder id = .ok order := by
  obtain ⟨source, f, index, copied, runs, frozen⟩ := compile_ok h
  obtain rfl := Except.ok.inj (registered.copy_eq.symm.trans copied)
  obtain ⟨p, compiled⟩ := compiled_of_runs registered.freshened sound runs
  have hf := compiled.embedding.toSealed compiled.isSealed compiled.flat
  have frozen := freeze_eq_ok.1 frozen
  -- the graph that is compiled once more
  let s := f.freshened
  have alike : Graph.Alike f s := alike_of_freshened f
  have embedding : Embedding p s := compiled.embedding.freshened compiled.flat
  have hs := embedding.toSealed compiled.isSealed compiled.flat
  have spent : s.Spent := embedding.spent compiled.isSealed compiled.flat compiled.spent
  have copy : s.copy = .ok s := by
    rw [hs.copy_eq]
    exact congrArg Except.ok (freshened_freshened f)
  have graph : c.graph = s := Except.ok.inj (frozen.graph.symm.trans hf.copy_eq)
  obtain ⟨c', frozen'⟩ := exists_frozen hs lockMode' (Yard.privateIds s)
  obtain ⟨index', goes⟩ : ∃ index',
      Goes (Builtin.schedule.map fun e => (e.1, e.2.1)) { rules := [] } s index' s :=
    Goes.idle (embedding.stable hs) (P := fun index => index.rules = [])
      (fun b index noRules => Builtin.run_does hs spent embedding.isShared_eq_false
        (alike.candidates_eq_nil compiled.candidates) b noRules) _ rfl
  have recompiled : s.compile [] lockMode' = .ok c' :=
    compile_does copy goes (freeze_eq_ok.2 frozen')
  -- what the two containers have in common
  have plans := frozen.plans_eq frozen' alike
  have aliases := frozen.aliases_eq frozen' alike
  have refused {q : ServicePlan} (hq : q ∈ c.plans) : q.id ∈ c'.privateIds ↔ q.id ∈ c.privateIds := by
    rw [frozen.mem_privateIds registered.freshened.toTidy compiled.visible_final hf.unique hq,
      frozen'.mem_privateIds hs.toTidy (fun d hd => ⟨d, hd, rfl, rfl⟩) hs.unique (plans ▸ hq)]
  have fetched : c'.serviceIds = c.serviceIds := by
    unfold serviceIds
    rw [plans, aliases]
    congr 2
    refine List.filter_congr fun id hid => ?_
    obtain ⟨q, hq, rfl⟩ := List.mem_map.1 hid
    simp [refused hq]
  refine ⟨s, c', by rw [Container.definitions, graph, copy], recompiled,
    graph ▸ Except.ok.inj (frozen'.graph.symm.trans copy), plans, aliases, fetched, fun id hid => ?_⟩
  obtain ⟨target, ht, hor⟩ := exists_publicTarget hid
  obtain ⟨target', ht', hor'⟩ := exists_publicTarget (fetched ▸ hid : id ∈ c'.serviceIds)
  obtain rfl : target' = target := by
    rw [aliases] at hor'
    rcases hor with found | ⟨none, rfl⟩
    · rcases hor' with found' | ⟨none', -⟩
      · exact Option.some.inj (found'.symm.trans found)
      · exact nomatch none'.symm.trans found
    · rcases hor' with found' | ⟨-, same⟩
      · exact nomatch none.symm.trans found'
      · exact same
  refine ⟨c.orderOf target', bind_eq_ok.2 ⟨target', ht, rfl⟩, bind_eq_ok.2 ⟨target', ht', ?_⟩⟩
  rw [frozen.orderOf_eq_of_alike frozen' alike]
  rfl

theorem compile_definitions_sample : ∃ c, sample.compile [] .thread = .ok c ∧
    ∃ s c', c.definitions = .ok s ∧ s.compile [] .unguarded = .ok c' ∧ c'.graph = c.graph ∧
      c'.plans = c.plans ∧ c'.aliases = c.aliases ∧ c'.serviceIds = c.serviceIds ∧
      ∀ id ∈ c.serviceIds, ∃ order, c.resolutionOrder id = .ok order ∧
        c'.resolutionOrder id = .ok order := by
  obtain ⟨c, h⟩ := sample_compiles
  exact ⟨c, h, compile_definitions sample_registered TagIndex.sound_nil h .unguarded⟩

end Graph

end Wiring
