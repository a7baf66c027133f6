import Wiring.Proofs.Autowire.Filling
import Wiring.Proofs.Graph.Shuffled
import Wiring.Proofs.Sort.Texts

/-!
# Autowiring in graphs in another order

The index sorts the services under a capability, so the order of definitions does not count for what
is chosen, nor for what a definition is filled with. It shows in messages alone.
-/

namespace Wiring

open Graph

variable {g g' : Graph} {index index' : CapabilityIndex}

namespace CapabilityIndex

theorem under_perm {entries entries' : List (Value × String)} (perm : entries.Perm entries') :
    under entries' = under entries := by
  funext capability
  exact (Failure.sortTexts_eq_of_perm ((perm.filter _).map _)).symm

/-- The indexes offer the same services. -/
structure Agrees (index index' : CapabilityIndex) : Prop where
  providers_eq : index'.providers = index.providers
  defaults_eq : index'.defaults = index.defaults

theorem Agrees.symm (h : Agrees index index') : Agrees index' index :=
  ⟨h.providers_eq.symm, h.defaults_eq.symm⟩

theorem ofGraph_shuffled (h : Shuffled g g') (indexed : ofGraph g = .ok index) :
    ∃ index', ofGraph g' = .ok index' ∧ Agrees index index' := by
  obtain ⟨providing, hp, hi⟩ := bind_eq_ok.1 indexed
  obtain rfl := pure_eq_ok.1 hi
  have concrete := h.definitions.filter fun d => !d.isAbstract
  obtain ⟨providing', hp', perm⟩ := mapM_perm concrete hp
  exact ⟨_, bind_eq_ok.2 ⟨providing', hp', rfl⟩, under_perm perm.flatten,
    under_perm (concrete.flatMap_right _)⟩

end CapabilityIndex

namespace Autowire

/-- What is chosen by `g` and `index` is chosen by `g'` and `index'` as well. -/
def Chosen (g : Graph) (index : CapabilityIndex) (g' : Graph) (index' : CapabilityIndex) : Prop :=
  ∀ service r c, choose g index service r = .ok c → choose g' index' service r = .ok c

theorem chosen_of_agrees (leads : g'.resolveAlias = g.resolveAlias) (has : g'.has = g.has)
    (agrees : index.Agrees index') : Chosen g index g' index' := by
  intro service r c h
  unfold choose at h ⊢
  cases hn : r.name with
  | some name =>
    rw [hn] at h
    rwa [leads, has]
  | none =>
    rw [hn] at h
    cases hc : r.capability with
    | none => simp [hc] at h
    | some capability =>
      simp only [hc] at h ⊢
      unfold chooseAmong at h ⊢
      rw [agrees.providers_eq, agrees.defaults_eq]
      split at h
      · exact h
      · split at h
        next may => rwa [if_pos may]
        next => cases h
      · exact h

section Following

variable (chosen : Chosen g index g' index')

include chosen

theorem fulfil_follows (r : Request) : Run.Follows (fulfil g index r) (fulfil g' index' r) := by
  refine (Run.Follows.refl _).bind fun s => ?_
  dsimp only
  cases hc : choose g index s.definition.id r with
  | error e => exact .throw
  | ok c =>
    rw [chosen _ _ _ hc]
    exact .refl _

theorem fillPosition_follows (parameters : List Parameter) (hints : Table Hint) (i : Nat)
    (a : Argument) : Run.Follows (fillPosition g index parameters hints i a)
      (fillPosition g' index' parameters hints i a) := by
  cases a with
  | autowire slot => exact (fulfil_follows chosen _).bind fun _ => .refl _
  | _ => exact .refl _

theorem fillKeyword_follows (hints : Table Hint) (name : String) (a : Argument) :
    Run.Follows (fillKeyword g index hints name a) (fillKeyword g' index' hints name a) := by
  cases a with
  | autowire slot => exact (fulfil_follows chosen _).bind fun _ => .refl _
  | _ => exact .refl _

theorem fillParameter_follows (hints : Table Hint) (covered i : Nat) (p : Parameter) :
    Run.Follows (fillParameter g index hints covered i p)
      (fillParameter g' index' hints covered i p) := by
  refine (Run.Follows.refl _).bind fun s => ?_
  dsimp only
  cases hints.get? p.name with
  | none => exact .refl _
  | some hint =>
    split
    · exact .refl _
    split
    · exact .bind .throw fun _ => (fulfil_follows chosen _).bind fun _ => .refl _
    · exact (fulfil_follows chosen _).bind fun _ => .refl _

theorem fillAll_follows (d : Definition) (parameters : List Parameter) (hints : Table Hint) :
    Run.Follows (fillAll g index d parameters hints) (fillAll g' index' d parameters hints) := by
  refine (Run.Follows.forM fun e _ => fillPosition_follows chosen parameters hints e.2 e.1).bind
    fun _ => (Run.Follows.forM fun e _ => fillKeyword_follows chosen hints e.1 e.2).bind fun _ => ?_
  split
  · exact Run.Follows.forM fun e _ => fillParameter_follows chosen hints _ e.2 e.1
  · exact .refl _

end Following

/-- Where the same is chosen, a definition is filled with the same. -/
theorem Wires.follows {d d' : Definition} (h : Wires g index d d')
    (chosen : Chosen g index g' index') : Wires g' index' d d' := by
  obtain ⟨s, run, rfl⟩ := h
  refine ⟨s, fill_ok.2 ?_, rfl⟩
  rcases fill_ok.1 run with idle | ⟨wanted, parameters, hints, hp, hh, run⟩
  · exact .inl idle
  · exact .inr ⟨wanted, parameters, hints, hp, hh, fillAll_follows chosen d parameters hints _ _ _ run⟩

/-- A change of definitions in place does not change what one is filled with. -/
theorem wires_changed {R : Definition → Definition → Prop} {d d' : Definition}
    (h : Changed R g g') : Wires g' index d d' ↔ Wires g index d d' := by
  have same : choose g' index = choose g index := choose_changed h
  constructor
  · exact fun wires => wires.follows fun service r c chosen => by rwa [← same]
  · exact fun wires => wires.follows fun service r c chosen => by rwa [same]

end Autowire

end Wiring
