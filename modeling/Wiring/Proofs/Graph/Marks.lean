import Wiring.Pass.Inlining
import Wiring.Proofs.Container.Plans
import Wiring.Proofs.Graph.Copying

/-!
# Graphs that differ in marks alone

Marks count for nothing in what is made of a graph: the same services are candidates, and the plans
are the same.
-/

namespace Wiring.Graph

open Definition Argument Pass

/-! ## Plans -/

section Bound

variable {g g' : Graph} {d d' : Definition} {p : ServicePlan}
  (bound : g'.bindReference = g.bindReference)

include bound

theorem bind_of_bound {consumer : String} {a : Argument} (ne : ∀ m r, a ≠ .inlined m r) :
    g'.bind consumer a = g.bind consumer a := by
  cases a with
  | inlined m r => exact absurd rfl (ne m r)
  | _ => simp only [bind, bound]

/-- Where references are bound alike, definitions that differ in marks alone have the same plan. -/
theorem planned_of_bound (same : Definition.Alike d d') (planned : Planned g d p) :
    Planned g' d' p := by
  induction d using Definition.induct generalizing d' p with
  | step d ih =>
    have bound : ∀ a ∈ d.allArguments, ∀ b, g.bind d.id a = .ok b →
        ∀ a', Argument.unmarked a' = Argument.unmarked a → g'.bind d'.id a' = .ok b := by
      intro a ha b hb a' haa'
      by_cases nested : ∃ m r, a = .inlined m r
      · obtain ⟨m, r, rfl⟩ := nested
        obtain ⟨m', r', rfl, alike⟩ := alike_inlined haa'
        obtain ⟨plan, planned, rfl⟩ := bind_inlined.1 hb
        exact bind_inlined.2 ⟨plan, ih m r ha alike planned, rfl⟩
      · have outer : ∀ m r, a ≠ .inlined m r := fun m r e => nested ⟨m, r, e⟩
        rw [eq_of_alike haa' outer, same.id_eq, bind_of_bound bound outer, hb]
    have revised := same.revised
    refine ⟨?_, revised.factory_eq.trans planned.factory, ?_, ?_⟩
    · rw [planned.frame, revised.frame]
      rfl
    · have arguments := forall₂_imp_mem planned.arguments fun a ha =>
        bound a (List.mem_append_left _ ha)
      exact (forall₂_comp revised.arguments.flip arguments).imp fun a' b ⟨a, haa', hb⟩ =>
        hb a' haa'
    · have keywords := forall₂_imp_mem planned.keywords fun k hk b ⟨name, hb⟩ =>
        And.intro name (bound k.2 (List.mem_append_right _ (List.mem_map_of_mem hk)) b.2 hb)
      exact (forall₂_comp revised.keywords.flip keywords).imp fun k' b ⟨k, hkk', name, hb⟩ =>
        ⟨hkk'.1.symm.trans name, hb k'.2 hkk'.2⟩

end Bound

/-! ## Alike graphs -/

/-- The graphs differ in marks alone, parameters apart. -/
structure Alike (g g' : Graph) : Prop where
  definitions : List.Forall₂ Definition.Alike g.definitions g'.definitions
  aliases_eq : g'.aliases = g.aliases

theorem alike_of_freshened (g : Graph) : Alike g g.freshened := ⟨alike_freshened g, rfl⟩

namespace Alike

variable {g g' : Graph} {d d' : Definition} {p : ServicePlan}

theorem find?_rel (h : Alike g g') (id : String) :
    Option.Rel Definition.Alike (g.find? id) (g'.find? id) :=
  forall₂_find? h.definitions fun d d' hd => by rw [hd.id_eq]

theorem has_eq (h : Alike g g') (id : String) : g'.has id = g.has id := by
  have ids : g'.ids = g.ids := (forall₂_map_eq.1 (h.definitions.imp fun _ _ h => h.id_eq.symm)).symm
  rw [Bool.eq_iff_iff, has_iff, has_iff, ids]

theorem resolveAliasStrict_eq (h : Alike g g') (id : String) :
    g'.resolveAliasStrict id = g.resolveAliasStrict id := by
  unfold resolveAliasStrict
  rw [resolveAlias_congr h.aliases_eq]
  simp only [h.has_eq]

theorem bindReference_eq (h : Alike g g') : g'.bindReference = g.bindReference := by
  funext consumer r
  unfold bindReference
  rw [resolveAlias_congr h.aliases_eq]
  congr 1
  funext target
  have rel := h.find?_rel target
  cases hd : g.find? target with
  | none =>
    rw [hd] at rel
    cases hd' : g'.find? target with
    | none => rfl
    | some d' => rw [hd'] at rel; cases rel
  | some d =>
    rw [hd] at rel
    cases hd' : g'.find? target with
    | none => rw [hd'] at rel; cases rel
    | some d' =>
      rw [hd'] at rel
      cases rel with
      | some same => simp only [same.isLazy_eq]

/-- The plans of the two graphs are the same. -/
theorem plans {plans : List ServicePlan} (h : Alike g g')
    (planned : List.Forall₂ (Planned g) g.definitions plans) :
    List.Forall₂ (Planned g') g'.definitions plans :=
  (forall₂_comp h.definitions.flip planned).imp fun _ _ ⟨_, same, planned⟩ =>
    planned_of_bound h.bindReference_eq same planned

/-! ## Candidates -/

theorem collected_eq (h : Alike g g') : collected g' = collected g := by
  refine (forall₂_flatMap_eq (h.definitions.imp fun d d' hd => ?_)).symm
  refine forall₂_flatMap_eq (hd.revised.allArguments.imp fun a a' haa' => ?_)
  by_cases nested : ∃ m r, a = .inlined m r
  · obtain ⟨m, r, rfl⟩ := nested
    obtain ⟨m', r', rfl, -⟩ := alike_inlined haa'
    rfl
  · rw [eq_of_alike haa' fun m r e => nested ⟨m, r, e⟩]

/-- The uses in the two graphs differ in the marks of the consumers alone. -/
theorem uses_rel (h : Alike g g') : List.Forall₂
    (fun u u' => u'.target = u.target ∧ u'.isLazy = u.isLazy ∧
      Definition.Alike u.consumer u'.consumer) (uses g) (uses g') := by
  unfold uses
  refine List.rel_flatMap h.definitions fun d d' hd => ?_
  rw [hd.references_eq, List.forall₂_map_left_iff, List.forall₂_map_right_iff]
  exact List.forall₂_same.2 fun r _ => ⟨rfl, rfl, hd⟩

theorem pinned_eq (h : Alike g g') : pinned g' = pinned g := by
  have lazily : ((uses g).filter (·.isLazy)).map (·.target) =
      ((uses g').filter (·.isLazy)).map (·.target) :=
    forall₂_map_eq.1 ((forall₂_filter h.uses_rel fun _ _ hu => hu.2.1.symm).imp
      fun _ _ hu => hu.1.symm)
  unfold pinned
  rw [h.aliases_eq, h.collected_eq, lazily]

theorem isCandidate_eq (h : Alike g g') (hd : Definition.Alike d d') :
    isCandidate g' d' = isCandidate g d := by
  unfold isCandidate
  rw [hd.isPublic_eq, hd.isLazy_eq, hd.isAbstract_eq, hd.id_eq, h.pinned_eq]
  let eager (u : Use) : Bool := u.target == d.id && !u.isLazy
  have filtered := forall₂_filter (p := eager) (q := eager) h.uses_rel fun u u' hu => by
    simp only [eager, hu.1, hu.2.1]
  generalize (uses g).filter _ = us, (uses g').filter _ = us' at filtered
  congr 1
  rcases filtered with _ | ⟨hu, _ | ⟨_, _⟩⟩
  · rfl
  · simp only [hu.2.2.id_eq, hu.2.2.isShared_eq, hd.isShared_eq]
  · rfl

/-- Where nothing is left to embed in the one graph, nothing is in the other. -/
theorem candidates_eq_nil (h : Alike g g') (none : candidates g = []) : candidates g' = [] := by
  have same := forall₂_filter h.definitions fun d d' hd => (h.isCandidate_eq hd).symm
  unfold candidates at none ⊢
  rw [List.map_eq_nil_iff, List.zipIdx_eq_nil_iff] at none ⊢
  rw [none] at same
  exact List.forall₂_nil_left_iff.1 same

end Alike

end Wiring.Graph
