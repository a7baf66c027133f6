import Wiring.Pass.Checks
import Wiring.Proofs.Graph.Cycles
import Wiring.Proofs.Graph.Leads

/-!
# What the checks accept

Each check succeeds under a condition on the graph, and under no other.
-/

namespace Wiring.Pass

open Graph

variable {g : Graph} {d : Definition} {reached : List String}

/-! ## Definitions -/

/-- No slot is left, and what an autowired definition is given fits its factory. -/
structure Fitting (d : Definition) : Prop where
  slots : ∀ a ∈ d.allArguments, a.isSlot = false
  bound : d.autowired = true → ∀ parameters,
    d.factory.bind Factory.callParameters? = some parameters →
      ∃ bound, Signature.bind parameters d.arguments d.keywords = .ok bound

theorem checkArguments_ok : checkArguments d = .ok () ↔ Fitting d := by
  unfold checkArguments
  by_cases slot : d.allArguments.any Argument.isSlot = true
  · rw [if_pos slot]
    refine ⟨fun h => (nomatch h), fun h => ?_⟩
    obtain ⟨a, ha, hs⟩ := List.any_eq_true.1 slot
    simp [h.slots a ha] at hs
  · rw [if_neg slot]
    have slots : ∀ a ∈ d.allArguments, a.isSlot = false := by
      simpa only [List.any_eq_true, not_exists, not_and, Bool.not_eq_true] using slot
    cases auto : d.autowired with
    | false => exact ⟨fun _ => ⟨slots, by simp [auto]⟩, fun _ => rfl⟩
    | true =>
      rw [if_neg (by simp)]
      cases hp : d.factory.bind Factory.callParameters? with
      | none => exact ⟨fun _ => ⟨slots, by simp [hp]⟩, fun _ => rfl⟩
      | some parameters =>
        dsimp only
        constructor
        · intro h
          refine ⟨slots, fun _ parameters' hp' => ?_⟩
          obtain rfl := Option.some.inj (hp.symm.trans hp')
          split at h
          next bound hb => exact ⟨bound, hb⟩
          next => cases h
        · intro h
          obtain ⟨bound, hb⟩ := h.bound auto parameters hp
          rw [hb]

/-- A definition extends nothing and, unless it is a template, can be constructed. -/
structure Constructible (reached : List String) (d : Definition) : Prop where
  parentless : d.parent = none
  made : d.isAbstract = false → ∃ f, d.factory = some f
  named : d.isAbstract = false → ∀ k ∈ d.keywords, Text.isArgumentName k.1 = true
  fitting : d.isAbstract = false → d.id ∈ reached → Fitting d

theorem checkDefinition_ok : checkDefinition reached d = .ok () ↔ Constructible reached d := by
  unfold checkDefinition
  cases hp : d.parent with
  | some parent => exact ⟨fun h => (nomatch h), fun h => nomatch hp.symm.trans h.parentless⟩
  | none =>
    cases ha : d.isAbstract with
    | true => exact ⟨fun _ => ⟨hp, by simp [ha], by simp [ha], by simp [ha]⟩, fun _ => rfl⟩
    | false =>
      cases hf : d.factory with
      | none =>
        refine ⟨fun h => (nomatch h), fun h => ?_⟩
        obtain ⟨f, hf'⟩ := h.made ha
        simp [hf] at hf'
      | some f =>
        cases hk : d.keywords.find? fun k => !Text.isArgumentName k.1 with
        | some k =>
          refine ⟨fun h => (nomatch h), fun h => ?_⟩
          have named := h.named ha k (List.mem_of_find?_eq_some hk)
          have unnamed := List.find?_some hk
          simp [named] at unnamed
        | none =>
          have named : ∀ k ∈ d.keywords, Text.isArgumentName k.1 = true := by
            simpa using hk
          simp only [Bool.false_eq_true, if_false, Option.isNone_some]
          by_cases hr : d.id ∈ reached
          · rw [if_pos (by simpa using hr), checkArguments_ok]
            exact ⟨fun h => ⟨hp, fun _ => ⟨f, hf⟩, fun _ => named, fun _ _ => h⟩,
              fun h => h.fitting ha hr⟩
          · rw [if_neg (by simpa using hr)]
            exact ⟨fun _ => ⟨hp, fun _ => ⟨f, hf⟩, fun _ => named, fun _ h => absurd h hr⟩,
              fun _ => rfl⟩

theorem checkDefinitions_ok : checkDefinitions g = .ok () ↔
    ∃ reached, g.reachableIds = .ok reached ∧
      ∀ d ∈ g.definitions, Constructible reached d := by
  simp only [checkDefinitions, bind_eq_ok, forM_eq_ok, checkDefinition_ok]

/-! ## References -/

theorem checkAlias_ok {a : Alias} : checkAlias g a = .ok () ↔
    ∃ target d, g.Leads a.id target ∧ g.find? target = some d ∧
      (a.isPublic = true → d.isAbstract = false) := by
  unfold checkAlias resolveAliasStrict
  simp only [bind_eq_ok, resolveAlias_ok, get_ok]
  constructor
  · rintro ⟨target, ⟨_, leads, h⟩, d, hd, h'⟩
    split at h
    · obtain rfl := pure_eq_ok.1 h
      refine ⟨_, d, leads, hd, fun isPublic => ?_⟩
      cases ha : d.isAbstract with
      | false => rfl
      | true => simp [isPublic, ha] at h'
    · cases h
  · rintro ⟨target, d, leads, hd, concrete⟩
    have there : g.has target = true := has_iff.2 (mem_ids.2 ⟨d, mem_of_find? hd⟩)
    refine ⟨target, ⟨target, leads, by rw [if_pos there]; rfl⟩, d, hd, ?_⟩
    rw [if_neg]
    · rfl
    · simpa using concrete

theorem checkReference_ok {service : String} {r : Reference} :
    checkReference g service r = .ok () ↔ ∃ target, g.Leads r.id target ∧
      (g.find? target = none → r.optional = true) ∧
        ∀ d, g.find? target = some d → d.isAbstract = false := by
  unfold checkReference
  simp only [bind_eq_ok, resolveAlias_ok]
  refine exists_congr fun target => and_congr_right fun _ => ?_
  cases hf : g.find? target with
  | none => cases r.optional <;> simp
  | some d => cases hd : d.isAbstract <;> simp [hd]

theorem checkReferences_ok (plain : g.Plain) : checkReferences g = .ok () ↔
    (∀ a ∈ g.aliases, checkAlias g a = .ok ()) ∧
      ∀ d ∈ g.definitions, d.isAbstract = false → ∀ r ∈ Definition.references d,
        checkReference g d.id r = .ok () := by
  unfold checkReferences
  simp only [bind_eq_ok, forM_eq_ok, List.mem_filter, Bool.not_eq_true', discard_eq_ok, and_imp,
    exists_and_left, exists_const]
  refine and_congr_right fun _ => forall₂_congr fun d hd => ?_
  rw [Definition.eachReference_of_plain (plain d hd), mapM_succeeds]
  refine forall_congr' fun _ => forall₂_congr fun r _ => ⟨?_, fun h => ⟨(), h⟩⟩
  rintro ⟨_, h⟩
  exact h

end Wiring.Pass
