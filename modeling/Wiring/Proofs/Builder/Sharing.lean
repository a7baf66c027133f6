import Wiring.Proofs.Builder.Visibility
import Wiring.Proofs.Container.Tally

/-!
# One product of a shared service

The factory of a shared service that has a plan of its own returns once at most. That of a service
that is embedded in another returns once more for each request that fails: its product is lost with
the service that it was built for.
-/

namespace Wiring

open Graph Container Definition

variable {g p f : Graph} {c : Container} {lockMode : LockMode} {privateIds : List String}
  {d q : Definition} {plan : ServicePlan}

/-! ## What plans are made of -/

theorem Binding.made_bound (g : Graph) (r : Reference) : (g.bound r).made = [] := by
  unfold bound
  split
  · rfl
  · split <;> rfl

/-- A plan is made of the services that its definition is made of. -/
theorem Graph.Planned.made_eq (hf : f.Sealed) (hd : d ∈ f.definitions)
    (hq : q ∈ Definition.parts d) (h : Planned f q plan) :
    plan.made = (Definition.parts q).map (·.id) := by
  induction q using Definition.induct generalizing plan with
  | step q ih =>
    rw [ServicePlan.made_eq, Definition.parts, List.map_cons, h.id_eq, Definition.embedded_eq,
      List.map_map, List.map_flatMap]
    refine congrArg _ (forall₂_flatMap_eq (forall₂_imp_mem h.allBindings fun a ha b hab => ?_)).symm
    have hs := hf.settled d hd q hq a ha
    have held {r : Reference} (hr : r ∈ a.direct) : r ∈ Definition.references d :=
      Definition.mem_references.2 ⟨q, hq, a, ha, hr⟩
    cases a with
    | literal v =>
      obtain rfl : Binding.value v = b := by simpa [bind] using hab
      rfl
    | reference r =>
      rw [bind, bindReference_eq hf hd (held (List.mem_singleton.2 rfl))] at hab
      obtain rfl := Except.ok.inj hab
      rw [Binding.made_bound]
      rfl
    | collection tag members =>
      obtain ⟨items, hi, rfl⟩ := bind_collection.1 hab
      rw [Binding.made_collection, eq_comm]
      refine List.flatMap_eq_nil_iff.2 fun i hi' => ?_
      obtain ⟨r, hr, hri⟩ := forall₂_mem_right hi hi'
      rw [bindReference_eq hf hd (held hr)] at hri
      rw [← Except.ok.inj hri, Binding.made_bound]
    | inlined m recipe =>
      obtain ⟨inner, h, rfl⟩ := bind_inlined.1 hab
      have inner := ih m recipe ha (parts_trans hq (parts_of_inlined ha)) h
      rw [ServicePlan.made] at inner
      rw [inner, Argument.embedded_inlined]
      simp [Definition.parts]
    | _ => cases hs

namespace Container

/-- The plans of a graph with services embedded in it have nothing in common. -/
theorem Frozen.sole (embedding : Embedding p f) (unique : p.ids.Nodup) (hf : f.Sealed)
    (frozen : Frozen f lockMode privateIds c) (hd : d ∈ f.definitions) (planned : Planned f d plan)
    (hp : c.plan? d.id = some plan) : Sole c plan where
  planned := id_of_plan? hp ▸ hp
  nodup := by
    rw [planned.made_eq hf hd (Definition.self_mem_parts d)]
    have nodup := embedding.parts_nodup unique
    rw [Graph.parts, List.map_flatMap] at nodup
    exact (List.nodup_flatMap.1 nodup).1 d hd
  alone x hx id other hother hx' := by
    obtain ⟨d', hd', planned'⟩ := PlansOf.exists_definition frozen.plans hother
    obtain ⟨hmem', rfl⟩ := mem_of_find? hd'
    rw [planned.made_eq hf hd (Definition.self_mem_parts d)] at hx
    rw [planned'.made_eq hf hmem' (Definition.self_mem_parts d')] at hx'
    obtain ⟨q, hq, same⟩ := List.mem_map.1 hx
    obtain ⟨q', hq', same'⟩ := List.mem_map.1 hx'
    rw [planned.id_eq, embedding.host_eq unique hmem' hd hq' hq (same'.trans same.symm)]

end Container

/-- An application whose factories do nothing. -/
def Application.idle : Application Unit where
  call _ _ _ state := .finish (.ok .null) state
  note _ state := state

namespace Graph

/-- A service that was registered as shared is a part of one plan, which is shared too, unless it is
left out. -/
theorem exists_host (compiled : Compiled g p f) (exposes : Exposes g p)
    (frozen : Frozen f lockMode privateIds c) (unique : g.ids.Nodup) (hd : d ∈ g.definitions)
    (shared : d.isShared = true) (there : d.id ∈ p.ids) :
    ∃ plan, Sole c plan ∧ plan.isShared = true ∧ d.id ∈ plan.made ∧
      (d.id ∈ f.ids → plan.id = d.id) := by
  have hf := compiled.embedding.toSealed compiled.isSealed compiled.flat
  have embedding := compiled.embedding
  have hp := compiled.isSealed.unique
  obtain ⟨q, hq, same⟩ := embedding.mem_parts_ids.2 there
  obtain ⟨host, hhost, part⟩ := mem_parts.1 hq
  obtain ⟨e, he, hR⟩ := embedding.grafts q hq
  -- the part shows what was registered
  have sharing : q.isShared = true := by
    obtain ⟨d', hd', face⟩ := List.mem_map.1 (exposes.faces (face_mem he))
    have ids : d'.id = d.id := (congrArg Face.id face).trans (hR.id_eq.symm.trans same)
    obtain rfl := eq_of_id_eq unique hd' hd ids
    exact (hR.isShared_eq.trans (congrArg Face.isShared face).symm).trans shared
  obtain ⟨plan, found, planned⟩ := PlansOf.exists_plan frozen.plans (find?_of_mem hf.unique hhost)
  refine ⟨plan, frozen.sole embedding hp hf hhost planned found, ?_, ?_, fun kept => ?_⟩
  · rw [planned.isShared_eq]
    exact embedding.shared host hhost q part sharing
  · rw [planned.made_eq hf hhost (self_mem_parts host)]
    exact List.mem_map.2 ⟨q, part, same⟩
  · obtain ⟨d', hd', ids⟩ := mem_ids.1 kept
    rw [planned.id_eq, embedding.host_eq hp hhost hd' part (self_mem_parts d') (same.trans ids.symm)]
    exact ids

/-- However a container is used, the factory of a shared service that has a plan of its own returns
a product once at most. That of a shared service that is embedded in another returns a product once
more at most for each request that fails, so once at most where none does. -/
theorem compile_sharing {rules : List TagRule} {σ : Type} (registered : g.Registered)
    (sound : TagIndex.Sound rules) (h : g.compile rules lockMode = .ok c) (app : Application σ)
    (self : Nat) {s : σ} {m : Machine (σ × Tally)}
    (served : c.Serves app.tallied self Counted { state := (s, {}) } m) (hd : d ∈ g.definitions)
    (shared : d.isShared = true) :
    (d.id ∈ c.graph.ids → m.state.2.count d.id ≤ 1) ∧
      m.state.2.count d.id ≤ 1 + m.state.2.failed := by
  obtain ⟨p, f, compiled, exposes, frozen⟩ := compiled_of_compile registered sound h
  have hf := compiled.embedding.toSealed compiled.isSealed compiled.flat
  by_cases there : d.id ∈ p.ids
  · have known : d ∈ g.freshened.definitions := registered.flat.freshened_definitions.symm ▸ hd
    obtain ⟨plan, sole, sharing, part, own⟩ :=
      exists_host compiled exposes frozen registered.freshened.unique known shared there
    have bound := served.count_le frozen sole sharing part
    have stocked : stock m plan.id ≤ 1 := Bool.toNat_le _
    refine ⟨fun kept => ?_, ?_⟩
    · have ids : c.graph.ids = f.ids := by
        rw [← Except.ok.inj (hf.copy_eq.symm.trans frozen.graph), freshened_ids]
      rw [shareOf, if_pos (own (ids ▸ kept)).symm, Tally.debt, Nat.zero_mul] at bound
      omega
    · have share : shareOf plan d.id ≤ 1 := by
        unfold shareOf
        split <;> omega
      have debt : m.state.2.debt (shareOf plan d.id) ≤ 1 * m.state.2.failed :=
        Nat.mul_le_mul_right _ share
      omega
  · have none := served.count_eq_zero (e := d.id) fun id plan hp part => by
      obtain ⟨d', hd', planned⟩ := PlansOf.exists_definition frozen.plans hp
      have hmem := (mem_of_find? hd').1
      rw [planned.made_eq hf hmem (self_mem_parts d')] at part
      obtain ⟨q, hq, same⟩ := List.mem_map.1 part
      exact there (compiled.embedding.mem_parts_ids.1 ⟨q, mem_parts.2 ⟨d', hmem, hq⟩, same⟩)
    omega

theorem compile_sharing_sample : ∃ c m, sample.compile [] .thread = .ok c ∧
    c.Serves Application.idle.tallied 0 Counted { state := ((), {}) } m ∧
    ("app" ∈ c.graph.ids → m.state.2.count "app" ≤ 1) ∧
      m.state.2.count "app" ≤ 1 + m.state.2.failed := by
  obtain ⟨c, h⟩ := sample_compiles
  obtain ⟨q, m, ends⟩ := exists_ends (c.get Application.idle.tallied 0 "app")
    { state := ((), {}) }
  have counted : Counted q m.state (m.state.1, m.state.2.answered q) := rfl
  have served := Serves.get .start ends counted
  exact ⟨c, _, h, served, compile_sharing sample_registered TagIndex.sound_nil h _ 0 served
    List.mem_cons_self rfl⟩

end Graph

end Wiring
