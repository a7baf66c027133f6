import Wiring.Proofs.Graph.Marks
import Wiring.Proofs.Graph.Shuffled
import Wiring.Proofs.Pass.Inlining

/-!
# Graphs that differ in order and marks

The order of definitions and the marks of what is embedded in them count for nothing in what is found
under an identifier and in what can be embedded.
-/

namespace Wiring

/-- An entry is found under the same test when the lists differ in order and in what does not count. -/
theorem optionRel_filter {α β : Type} {R : α → β → Prop} {p : α → Bool} {q : β → Bool}
    {x : Option α} {y : Option β} (h : Option.Rel R x y) (same : ∀ a b, R a b → p a = q b) :
    Option.Rel R (x.filter p) (y.filter q) := by
  cases h with
  | none => exact .none
  | @some a b hab =>
    rw [Option.filter_some, Option.filter_some, same a b hab]
    split
    · exact .some hab
    · exact .none

namespace Graph

open Definition Argument Pass

variable {g g' h : Graph} {id : String} {d d' : Definition}

namespace Shuffled

theorem uses (h : Shuffled g g') : (Pass.uses g).Perm (Pass.uses g') := h.definitions.flatMap_right _

theorem pinned (h : Shuffled g g') : (Pass.pinned g).Perm (Pass.pinned g') :=
  ((h.aliases.map _).append (h.definitions.flatMap_right _)).append ((h.uses.filter _).map _)

theorem bindReference_eq (h : Shuffled g g') (tidy : g.Tidy) :
    g'.bindReference = g.bindReference := by
  funext consumer r
  unfold bindReference
  rw [h.resolveAlias_eq tidy, h.find?_eq tidy]

theorem resolveAliasStrict_eq (h : Shuffled g g') (tidy : g.Tidy) :
    g'.resolveAliasStrict = g.resolveAliasStrict := by
  funext id
  unfold resolveAliasStrict
  rw [h.resolveAlias_eq tidy, h.has_eq]

theorem isCandidate_eq (h : Shuffled g g') (d : Definition) : isCandidate g' d = isCandidate g d := by
  unfold isCandidate
  rw [h.pinned.contains_eq]
  have perm := h.uses.filter fun u => u.target == d.id && !u.isLazy
  generalize (Pass.uses g).filter _ = us, (Pass.uses g').filter _ = us' at perm
  congr 1
  match us, us', perm with
  | [], us', perm => rw [List.nil_perm.1 perm]
  | [u], us', perm => rw [List.singleton_perm.1 perm]
  | _ :: _ :: _, us', perm =>
    have length := perm.length_eq
    match us' with
    | [] | [_] => simp at length
    | _ :: _ :: _ => rfl

end Shuffled

/-- The graphs differ in the order of definitions and aliases and in marks alone. -/
def Matched (g g' : Graph) : Prop := ∃ h, Shuffled g h ∧ Alike h g'

namespace Matched

theorem of_shuffled (h : Shuffled g g') : Matched g g' :=
  ⟨g', h, List.forall₂_same.2 fun _ _ => rfl, rfl⟩

theorem of_definitions {es : List Definition} (perm : g.definitions.Perm es)
    (alike : List.Forall₂ Definition.Alike es g'.definitions) (aliases : g.aliases.Perm g'.aliases)
    (twins : g'.twins = g.twins) : Matched g g' :=
  ⟨{ g' with definitions := es }, ⟨perm, aliases, twins⟩, alike, rfl⟩

theorem length_eq (h : Matched g g') : g'.definitions.length = g.definitions.length := by
  obtain ⟨s, shuffled, alike⟩ := h
  rw [← alike.definitions.length_eq, shuffled.definitions.length_eq]

theorem aliases (h : Matched g g') : g.aliases.Perm g'.aliases := by
  obtain ⟨s, shuffled, alike⟩ := h
  exact alike.aliases_eq ▸ shuffled.aliases

/-- Each definition has one to match it. -/
theorem exists_definition (h : Matched g g') (hd : d' ∈ g'.definitions) :
    ∃ d ∈ g.definitions, Definition.Alike d d' := by
  obtain ⟨s, shuffled, alike⟩ := h
  obtain ⟨d, hd, same⟩ := forall₂_mem_right alike.definitions hd
  exact ⟨d, shuffled.mem_iff.1 hd, same⟩

theorem find?_rel (h : Matched g g') (tidy : g.Tidy) (id : String) :
    Option.Rel Definition.Alike (g.find? id) (g'.find? id) := by
  obtain ⟨s, shuffled, alike⟩ := h
  exact shuffled.find?_eq tidy ▸ alike.find?_rel id

theorem isCandidate_eq (h : Matched g g') (hd : Definition.Alike d d') :
    isCandidate g' d' = isCandidate g d := by
  obtain ⟨s, shuffled, alike⟩ := h
  rw [alike.isCandidate_eq hd, shuffled.isCandidate_eq]

/-! ## Plans -/

/-- The plans of the two graphs are the same up to their order. -/
theorem plans {plans : List ServicePlan} (h : Matched g g') (tidy : g.Tidy)
    (planned : List.Forall₂ (Planned g) g.definitions plans) :
    ∃ plans', List.Forall₂ (Planned g') g'.definitions plans' ∧ plans.Perm plans' := by
  obtain ⟨s, shuffled, alike⟩ := h
  obtain ⟨plans', planned', perm⟩ := forall₂_perm planned shuffled.definitions
  exact ⟨plans', alike.plans (planned'.imp fun _ _ =>
    planned_of_bound (shuffled.bindReference_eq tidy) rfl), perm⟩

theorem resolveAliasStrict_eq (h : Matched g g') (tidy : g.Tidy) :
    g'.resolveAliasStrict = g.resolveAliasStrict := by
  obtain ⟨s, shuffled, alike⟩ := h
  exact (funext alike.resolveAliasStrict_eq).trans (shuffled.resolveAliasStrict_eq tidy)

end Matched

end Graph

end Wiring
