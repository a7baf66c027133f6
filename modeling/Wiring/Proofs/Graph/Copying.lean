import Wiring.Proofs.Definition.Marks
import Wiring.Proofs.Graph.Embedding

/-!
# Copies of graphs

A copy differs from its graph in marks alone. A copy of a copy is the same as the copy.
-/

namespace Wiring

namespace Definition

open Argument

variable {d d' : Definition}

/-- Nothing in a definition is left to be accepted. -/
def Accepted (d : Definition) : Prop :=
  ∀ q ∈ parts d, (∀ a ∈ q.allArguments, ∀ v, a ≠ .plain v) ∧ ∀ l ∈ q.tags, l.IsTag

theorem mapM_eq_self {ε α : Type} {f : α → Except ε α} {as : List α}
    (h : ∀ a ∈ as, f a = .ok a) : as.mapM f = .ok as :=
  mapM_eq_ok.2 (List.forall₂_same.2 h)

theorem copyAll_eq (as : List Argument) : copyAll as = as.mapM Argument.copy := by
  induction as with
  | nil => rfl
  | cons a as ih => rw [copyAll, ih, List.mapM_cons]

theorem copyNamed_eq (ks : List (String × Argument)) :
    copyNamed ks = ks.mapM fun k => do return (k.1, ← Argument.copy k.2) := by
  induction ks with
  | nil => rfl
  | cons k ks ih =>
    rw [copyNamed, ih, List.mapM_cons]
    cases Argument.copy k.2 <;> rfl

theorem accept_eq {service : String} {a : Argument} (h : ∀ v, a ≠ .plain v) :
    accept service a = .ok a := by
  cases a <;> first | rfl | exact absurd rfl (h _)

/-- What is accepted already is copied as it is. -/
theorem copy_eq (h : Accepted d) : copy d = .ok d := by
  induction d using Definition.induct with
  | step d ih =>
    obtain ⟨arguments, labels⟩ := h d (self_mem_parts d)
    have whole : ∀ a ∈ d.allArguments, Argument.copy a = .ok a := fun a ha => by
      cases a with
      | inlined m r =>
        have hr := ih m r ha fun q hq => h q (parts_trans (parts_of_inlined ha) hq)
        unfold copy at hr
        simp only [bind_eq_ok, pure_eq_ok] at hr
        obtain ⟨as, h₁, ks, h₂, as', h₃, ks', h₄, tags, h₅, same⟩ := hr
        rw [Argument.copy]
        simp only [bind_eq_ok, pure_eq_ok]
        exact ⟨as, h₁, ks, h₂, as', h₃, ks', h₄, tags, h₅, by rw [same]⟩
      | _ => rfl
    unfold copy
    rw [copyAll_eq, copyNamed_eq]
    have positional := mapM_eq_self fun a ha => whole a (List.mem_append_left _ ha)
    have named : (d.keywords.mapM fun k => do return (k.1, ← Argument.copy k.2)) =
        .ok d.keywords := mapM_eq_self fun k hk => by
      rw [whole k.2 (List.mem_append_right _ (List.mem_map_of_mem hk))]
      rfl
    have accepted : d.arguments.mapM (accept d.id) = .ok d.arguments := mapM_eq_self fun a ha =>
      accept_eq (arguments a (List.mem_append_left _ ha))
    have acceptedNamed : acceptNamed d.id d.keywords = .ok d.keywords := mapM_eq_self fun k hk => by
      dsimp only
      rw [accept_eq (arguments k.2 (List.mem_append_right _ (List.mem_map_of_mem hk)))]
      rfl
    have tags : d.tags.mapM (Label.accept d.id) = .ok d.tags := mapM_eq_self fun l hl => by
      obtain ⟨t, rfl, -⟩ := labels l hl
      rfl
    rw [positional, ok_bind, named, ok_bind, accepted, ok_bind, acceptedNamed, ok_bind, tags]
    rfl

theorem Settled.accepted (settled : d.Settled) (labels : ∀ q ∈ parts d, ∀ l ∈ q.tags, l.IsTag) :
    Accepted d := by
  refine fun q hq => ⟨fun a ha v e => ?_, labels q hq⟩
  have := settled q hq a ha
  rw [e] at this
  cases this

theorem Flat.eq_of_alike (flat : d.Flat) (h : Alike d d') : d' = d := by
  refine (h.revised.mono_mem fun a ha b hab => ?_).eq
  exact (Definition.eq_of_alike hab (ne_inlined (flat a ha))).symm

end Definition

namespace Graph

open Definition

variable {p g : Graph} {d : Definition}

/-- A graph with new marks, in which nothing is shared. -/
def freshened (g : Graph) : Graph :=
  { g with
    definitions := (freshenEach g.definitions 0).1
    nextMark := (freshenEach g.definitions 0).2
    twins := []
    former := [] }

/-- Where nothing is left to be accepted, a copy differs in marks alone. -/
theorem copy_eq (accepted : ∀ d ∈ g.definitions, Accepted d) : g.copy = .ok g.freshened := by
  unfold copy
  rw [mapM_eq_self fun d hd => Definition.copy_eq (accepted d hd)]
  rfl

theorem freshened_freshened (g : Graph) : g.freshened.freshened = g.freshened := by
  have same := freshenEach_eq (alike_freshenEach g.definitions 0) 0
  simp only [freshened, same]

theorem alike_freshened (g : Graph) : List.Forall₂ Alike g.definitions g.freshened.definitions :=
  alike_freshenEach g.definitions 0

theorem freshened_ids (g : Graph) : g.freshened.ids = g.ids :=
  (forall₂_map_eq.1 ((alike_freshened g).imp fun _ _ h => h.id_eq.symm)).symm

theorem Flat.freshened_definitions (flat : g.Flat) : g.freshened.definitions = g.definitions := by
  refine Eq.symm ?_
  rw [← List.forall₂_eq_eq_eq]
  exact forall₂_imp_mem (alike_freshened g) fun d hd d' h => ((flat d hd).eq_of_alike h).symm

theorem Registered.freshened (h : g.Registered) : g.freshened.Registered := by
  have same := h.flat.freshened_definitions
  have ids := freshened_ids g
  exact {
    unique := ids ▸ h.unique
    uniqueAliases := h.uniqueAliases
    apart := fun id hid => ids ▸ h.apart id hid
    labels := same ▸ h.labels
    alone := rfl
    declared := fun d hd => h.declared d (same ▸ hd) }

theorem Registered.copy_eq (h : g.Registered) : g.copy = .ok g.freshened := by
  refine Graph.copy_eq fun d hd q hq => ?_
  rw [(h.flat d hd).parts_eq, List.mem_singleton] at hq
  subst hq
  refine ⟨fun a ha v e => ?_, h.labels q hd⟩
  have := h.declared q hd a ha
  rw [e] at this
  cases this

theorem Sealed.copy_eq (h : g.Sealed) : g.copy = .ok g.freshened :=
  Graph.copy_eq fun d hd => (h.settled d hd).accepted (h.tagged d hd)

/-- Services stay embedded in a copy. -/
theorem Embedding.freshened (h : Embedding p g) (flat : p.Flat) : Embedding p g.freshened := by
  have counted := marks_freshenEach g.definitions 0
  have marks : g.freshened.stamps.map (·.1) =
      g.freshened.definitions.flatMap Definition.marks := by
    rw [stamps, List.map_flatMap]
    exact List.flatMap_congr fun d _ => List.map_map
  have services : g.freshened.stamps.map (·.2) = g.stamps.map (·.2) := by
    rw [stamps, stamps, List.map_flatMap, List.map_flatMap]
    exact (forall₂_flatMap_eq ((alike_freshened g).imp fun _ _ h => h.services_eq.symm)).symm
  have ids := freshened_ids g
  have old {d : Definition} (hd : d ∈ g.freshened.definitions) :
      ∃ d₀ ∈ g.definitions, Alike d₀ d := forall₂_mem_right (alike_freshened g) hd
  exact {
    aliases_eq := h.aliases_eq
    parameters_eq := h.parameters_eq
    alone := rfl
    grafts := fun q hq => by
      obtain ⟨d, hd, hq⟩ := mem_parts.1 hq
      obtain ⟨d₀, hd₀, alike⟩ := old hd
      obtain ⟨q₀, hq₀, same⟩ := alike.exists_part hq
      obtain ⟨e, he, hR⟩ := h.grafts q₀ (mem_parts_of hd₀ hq₀)
      exact ⟨e, he, same.grafted (fun a ha => Argument.ne_inlined (flat e he a ha)) hR⟩
    placed := by
      rw [ids, services]
      exact h.placed
    marks := by
      rw [marks]
      exact counted.2 ▸ List.nodup_range'
    fresh := fun s hs => by
      have mem := List.mem_map_of_mem (f := Prod.fst) hs
      have below : s.1 ∈ List.range' 0 _ := counted.2 ▸ marks ▸ mem
      have := (List.mem_range'_1.1 below).2
      have := counted.1
      show s.1 < (freshenEach g.definitions 0).2
      omega
    hidden := fun d hd gone => h.hidden d hd (ids ▸ gone)
    named := fun d hd r hr hp => by
      obtain ⟨d₀, hd₀, alike⟩ := old hd
      rw [ids]
      exact h.named d₀ hd₀ r (alike.references_eq ▸ hr) hp
    shared := fun d hd q hq isShared => by
      obtain ⟨d₀, hd₀, alike⟩ := old hd
      obtain ⟨q₀, hq₀, same⟩ := alike.exists_part hq
      exact alike.isShared_eq ▸ h.shared d₀ hd₀ q₀ hq₀ (same.isShared_eq ▸ isShared) }

end Graph

end Wiring
