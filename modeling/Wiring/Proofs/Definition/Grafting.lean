import Wiring.Proofs.Definition.Revision
import Mathlib.Data.List.Perm.Basic

/-!
# Grafting

A recipe is grafted where it takes the place of a reference to its service. What a rule grafts adds
to the parts of a definition, and nothing else does.
-/

namespace Wiring

namespace Argument

/-- `b` is `a`, or the recipe that `a` refers to at once. -/
def Grafted (a b : Argument) : Prop :=
  b = a ∨ ∃ r m recipe, a = .reference r ∧ r.lazy = false ∧ recipe.id = r.id ∧
    b = .inlined m recipe

/-- `b` is grafted in place of `a`, or something is grafted into it. -/
def Regrafted (a b : Argument) : Prop :=
  Grafted a b ∨ ∃ m r r', a = .inlined m r ∧ r'.id = r.id ∧ b = .inlined m r'

theorem Grafted.regraft {a b c : Argument} (flat : ∀ m r, a ≠ .inlined m r) (h : Grafted a b)
    (h' : Regrafted b c) : Grafted a c := by
  rcases h with rfl | ⟨r, m, recipe, rfl, eager, same, rfl⟩
  · rcases h' with h' | ⟨m, r, r', rfl, -⟩
    · exact h'
    · exact absurd rfl (flat m r)
  · rcases h' with (rfl | ⟨_, _, _, e, -⟩) | ⟨m', r₁, r₂, e, same', rfl⟩
    · exact .inr ⟨r, m, recipe, rfl, eager, same, rfl⟩
    · cases e
    · obtain ⟨rfl, rfl⟩ : m = m' ∧ recipe = r₁ := by simpa using e
      exact .inr ⟨r, m, r₂, rfl, eager, same'.trans same, rfl⟩

theorem Regrafted.trans {a b c : Argument} (h : Regrafted a b) (h' : Regrafted b c) :
    Regrafted a c := by
  rcases h with (rfl | ⟨r, m, recipe, rfl, eager, same, rfl⟩) | ⟨m, r, r', rfl, same, rfl⟩
  · exact h'
  · exact .inl (.regraft (by simp) (.inr ⟨r, m, recipe, rfl, eager, same, rfl⟩) h')
  · rcases h' with (rfl | ⟨_, _, _, e, -⟩) | ⟨m', r₁, r₂, e, same', rfl⟩
    · exact .inr ⟨m, r, r', rfl, same, rfl⟩
    · cases e
    · obtain ⟨rfl, rfl⟩ := Argument.inlined.inj e
      exact .inr ⟨m, r, r₂, rfl, same'.trans same, rfl⟩

theorem Regrafted.revised_trans {d d' d'' : Definition} (h : Recipe.Revised Regrafted d d')
    (h' : Recipe.Revised Regrafted d' d'') : Recipe.Revised Regrafted d d'' :=
  (h.comp h').mono fun _ _ ⟨_, hb, hc⟩ => hb.trans hc

/-- Nothing is grafted in place of a collection. -/
theorem Regrafted.collection_iff {a b : Argument} {tag : String} {members : List Reference}
    (h : Regrafted a b) : a = .collection tag members ↔ b = .collection tag members := by
  rcases h with (rfl | ⟨r, m, recipe, rfl, -, -, rfl⟩) | ⟨m, r, r', rfl, -, rfl⟩ <;> simp

theorem Regrafted.isMixture {a b : Argument} (h : Regrafted a b) (plain : a.isMixture = false) :
    b.isMixture = false := by
  rcases h with (rfl | ⟨r, m, recipe, -, -, -, rfl⟩) | ⟨m, r, r', -, -, rfl⟩
  · exact plain
  · rfl
  · rfl

/-- The references that are left were there before. -/
theorem Grafted.mem_direct {a b : Argument} {x : Reference} (h : Grafted a b)
    (hx : x ∈ b.direct) : x ∈ a.direct := by
  rcases h with rfl | ⟨r, m, recipe, -, -, -, rfl⟩
  · exact hx
  · simp [direct] at hx

theorem Grafted.isSettled {a b : Argument} (h : Grafted a b) (settled : a.isSettled = true) :
    b.isSettled = true := by
  rcases h with rfl | ⟨r, m, recipe, -, -, -, rfl⟩
  · exact settled
  · rfl

/-- The marks and services of the recipes embedded in an argument. -/
def stamps (a : Argument) : List (Nat × String) := (embedded a).map fun e => (e.1, e.2.id)

end Argument

/-- A rule that leaves all but references as it is and grafts recipes in place of some of these. -/
structure Rule.Grafts (rule : Rule) (P : Reference → Prop) : Prop where
  others : ∀ a, a.isReference = false → rule a = .ok a
  references : ∀ r, P r → ∀ b, rule (.reference r) = .ok b → Argument.Grafted (.reference r) b

/-- What a rule puts in place of a reference. -/
def Rule.graft (rule : Rule) (r : Reference) : Argument :=
  ((rule (.reference r)).toOption).getD (.reference r)

theorem Rule.graft_of_ok {rule : Rule} {r : Reference} {b : Argument}
    (h : rule (.reference r) = .ok b) : rule.graft r = b := by
  rw [graft, h]
  rfl

namespace Definition

open Argument

variable {rule : Rule} {d d' q : Definition}

/-- The marks and services of the recipes embedded in a definition. -/
def stamps (d : Definition) : List (Nat × String) := (embedded d).map fun e => (e.1, e.2.id)

theorem stamps_eq (d : Definition) : stamps d = d.allArguments.flatMap Argument.stamps := by
  rw [stamps, embedded_eq, List.map_flatMap]
  rfl

theorem stamps_inlined (m : Nat) (r : Recipe Argument) :
    Argument.stamps (.inlined m r) = (m, r.id) :: stamps r := by
  rw [Argument.stamps, embedded_inlined, List.map_cons]
  rfl

/-- What each entry holds, and what comes to it, add up. -/
theorem perm_flatMap_append {α β : Type} {R : α → α → Prop} {f g : α → List β} {as bs : List α}
    (h : List.Forall₂ R as bs) (step : ∀ a ∈ as, ∀ b, R a b → (f b).Perm (f a ++ g a)) :
    (bs.flatMap f).Perm (as.flatMap f ++ as.flatMap g) := by
  refine List.Perm.trans ?_ (List.flatMap_append_perm as f g).symm
  induction h with
  | nil => exact .nil
  | @cons a b as bs hab _ ih =>
    rw [List.flatMap_cons, List.flatMap_cons]
    exact (step a List.mem_cons_self b hab).append
      (ih fun c hc => step c (List.mem_cons_of_mem a hc))

theorem mem_parts_of_embedded {e : Nat × Definition} (h : e ∈ embedded d) : e.2 ∈ parts d :=
  List.mem_cons_of_mem d (List.mem_map_of_mem h)

/-- What a part refers to the definition refers to. -/
theorem references_of_part {r : Reference} (hq : q ∈ parts d) (hr : r ∈ references q) :
    r ∈ references d := by
  obtain ⟨x, hx, a, ha, hr⟩ := mem_references.1 hr
  exact mem_references.2 ⟨x, parts_trans hq hx, a, ha, hr⟩

theorem Plain.of_part (h : d.Plain) (hq : q ∈ parts d) : q.Plain :=
  fun p hp => h p (parts_trans hq hp)

/-- A reference is a member of a collection in the definition. -/
def Gathers (d : Definition) (r : Reference) : Prop :=
  ∃ q ∈ parts d, ∃ tag members, .collection tag members ∈ q.allArguments ∧ r ∈ members

theorem gathers_iff {r : Reference} : Gathers d r ↔
    (∃ tag members, .collection tag members ∈ d.allArguments ∧ r ∈ members) ∨
      ∃ m recipe, .inlined m recipe ∈ d.allArguments ∧ Gathers recipe r := by
  constructor
  · rintro ⟨q, hq, tag, members, ha, hr⟩
    rcases mem_parts.1 hq with rfl | ⟨m, recipe, hi, hq⟩
    · exact .inl ⟨tag, members, ha, hr⟩
    · exact .inr ⟨m, recipe, hi, q, hq, tag, members, ha, hr⟩
  · rintro (⟨tag, members, ha, hr⟩ | ⟨m, recipe, hi, q, hq, tag, members, ha, hr⟩)
    · exact ⟨d, self_mem_parts d, tag, members, ha, hr⟩
    · exact ⟨q, parts_trans (parts_of_inlined hi) hq, tag, members, ha, hr⟩

/-- A definition can be revised if each of its arguments can be. -/
theorem revise_succeeds_iff : (∃ d', revise rule d = .ok d') ↔
    ∀ a ∈ d.allArguments, ∃ b, Argument.revise rule d.id a = .ok b := by
  constructor
  · rintro ⟨d', h⟩ a ha
    obtain ⟨b, -, hb⟩ := forall₂_mem_left (revise_eq_ok.1 h).allArguments ha
    exact ⟨b, hb⟩
  · intro h
    obtain ⟨arguments, ha⟩ := forall₂_exists fun a ha => h a (List.mem_append_left _ ha)
    obtain ⟨keywords, hk⟩ : ∃ keywords, List.Forall₂
        (Keyed fun a b => Argument.revise rule d.id a = .ok b) d.keywords keywords :=
      forall₂_exists fun k hk => by
        obtain ⟨b, hb⟩ := h k.2 (List.mem_append_right _ (List.mem_map_of_mem hk))
        exact ⟨(k.1, b), rfl, hb⟩
    exact ⟨{ d with arguments, keywords }, revise_eq_ok.2 ⟨rfl, ha, hk⟩⟩

/-- A definition can be revised if references can be, those in collections to references. -/
theorem revise_succeeds (plain : d.Plain)
    (others : ∀ a, a.isReference = false → rule a = .ok a) :
    (∃ d', revise rule d = .ok d') ↔
      (∀ r ∈ references d, ∃ b, rule (.reference r) = .ok b) ∧
        ∀ r, Gathers d r → ∃ s, rule (.reference r) = .ok (.reference s) := by
  induction d using Definition.induct with
  | step d ih =>
    rw [revise_succeeds_iff]
    have ih m r (ha : .inlined m r ∈ d.allArguments) :=
      ih m r ha (plain.of_part (parts_of_inlined ha))
    constructor
    · intro h
      have inside m recipe (ha : .inlined m recipe ∈ d.allArguments) := (ih m recipe ha).1 (by
        obtain ⟨b, hb⟩ := h _ ha
        obtain ⟨r', hr, -⟩ := revise_inlined_eq_ok.1 hb
        exact ⟨r', hr⟩)
      have members tag ms (ha : .collection tag ms ∈ d.allArguments) : ∀ r ∈ ms,
          ∃ s, rule (.reference r) = .ok (.reference s) := fun r hr => by
        obtain ⟨b, hb⟩ := h _ ha
        obtain ⟨rs, hrs, -⟩ := revise_collection_eq_ok.1 hb
        obtain ⟨s, -, hs⟩ := forall₂_mem_left hrs hr
        exact ⟨s, hs⟩
      refine ⟨fun r hr => ?_, fun r hr => ?_⟩
      · rw [references_eq, List.mem_flatMap] at hr
        obtain ⟨a, ha, hr⟩ := hr
        cases a with
        | reference x =>
          obtain rfl : r = x := List.mem_singleton.1 hr
          exact h _ ha
        | collection tag ms =>
          obtain ⟨s, hs⟩ := members tag ms ha r hr
          exact ⟨_, hs⟩
        | inlined m recipe => exact (inside m recipe ha).1 r (by simpa using hr)
        | mixture => cases plain d (self_mem_parts d) _ ha
        | _ => cases hr
      · rcases gathers_iff.1 hr with ⟨tag, ms, ha, hr⟩ | ⟨m, recipe, ha, hr⟩
        · exact members tag ms ha r hr
        · exact (inside m recipe ha).2 r hr
    · rintro ⟨refs, members⟩ a ha
      cases a with
      | reference r => exact refs r (mem_references.2 ⟨d, self_mem_parts d, _, ha, by simp [direct]⟩)
      | collection tag ms =>
        obtain ⟨rs, hrs⟩ := forall₂_exists fun r hr =>
          members r (gathers_iff.2 (.inl ⟨tag, ms, ha, hr⟩))
        exact ⟨_, revise_collection_eq_ok.2 ⟨rs, hrs, rfl⟩⟩
      | inlined m recipe =>
        obtain ⟨r', hr⟩ := (ih m recipe ha).2 ⟨fun r hr =>
          refs r (references_of_part (parts_of_inlined ha) hr), fun r hr =>
          members r (gathers_iff.2 (.inr ⟨m, recipe, ha, hr⟩))⟩
        exact ⟨_, revise_inlined_eq_ok.2 ⟨r', hr, rfl⟩⟩
      | mixture => cases plain d (self_mem_parts d) _ ha
      | _ => exact ⟨_, others _ rfl⟩

section Grafts

variable {P : Reference → Prop} (plain : d.Plain) (grafts : rule.Grafts P)
  (refs : ∀ r ∈ references d, P r) (h : revise rule d = .ok d')

include plain grafts refs h

/-- A rule that grafts adds the recipes that it grafts, each once, and no others. -/
theorem stamps_revise :
    (stamps d').Perm (stamps d ++ (references d).flatMap fun r => (rule.graft r).stamps) := by
  induction d using Definition.induct generalizing d' with
  | step d ih =>
    have revised := (revise_eq_ok.1 h).allArguments
    rw [stamps_eq, stamps_eq, references_eq, List.flatMap_assoc]
    refine perm_flatMap_append revised fun a ha b hab => ?_
    cases a with
    | reference r =>
      have hb : rule (.reference r) = .ok b := hab
      simp [Argument.references, Rule.graft_of_ok hb, Argument.stamps, Argument.embedded]
    | collection tag members =>
      obtain ⟨rs, hr, rfl⟩ := revise_collection_eq_ok.1 hab
      have none : (members.flatMap fun r => (rule.graft r).stamps) = [] :=
        List.flatMap_eq_nil_iff.2 fun r hr' => by
          obtain ⟨s, -, hs⟩ := forall₂_mem_left hr hr'
          rw [Rule.graft_of_ok hs]
          rfl
      show [].Perm ([] ++ members.flatMap fun r => (rule.graft r).stamps)
      rw [none]
      exact .nil
    | inlined m r =>
      obtain ⟨r', hr, rfl⟩ := revise_inlined_eq_ok.1 hab
      have part := parts_of_inlined ha
      rw [stamps_inlined, stamps_inlined, references_inlined, (revise_eq_ok.1 hr).id_eq,
        List.cons_append]
      exact (ih m r ha (plain.of_part part) (fun x hx => refs x (references_of_part part hx))
        hr).cons _
    | mixture => cases plain d (self_mem_parts d) _ ha
    | _ =>
      obtain rfl := Except.ok.inj ((grafts.others _ rfl).symm.trans hab)
      simp [Argument.references]

/-- The references of a definition after a rule that grafts, in order. -/
theorem references_revise :
    references d' = (references d).flatMap fun r => (rule.graft r).references := by
  induction d using Definition.induct generalizing d' with
  | step d ih =>
    rw [references_eq, references_eq, List.flatMap_assoc]
    refine (forall₂_flatMap_eq ?_).symm
    refine forall₂_imp_mem (revise_eq_ok.1 h).allArguments fun a ha b hab => ?_
    cases a with
    | reference r =>
      have hb : rule (.reference r) = .ok b := hab
      simp [Argument.references, Rule.graft_of_ok hb]
    | collection tag members =>
      obtain ⟨rs, hr, rfl⟩ := revise_collection_eq_ok.1 hab
      have left : members.flatMap (fun r => (rule.graft r).references) = rs.flatMap fun s => [s] :=
        forall₂_flatMap_eq (hr.imp fun r s hs => by rw [Rule.graft_of_ok hs]; rfl)
      simpa [Argument.references] using left
    | inlined m r =>
      obtain ⟨r', hr, rfl⟩ := revise_inlined_eq_ok.1 hab
      have part := parts_of_inlined ha
      rw [references_inlined, references_inlined]
      exact (ih m r ha (plain.of_part part) (fun x hx => refs x (references_of_part part hx))
        hr).symm
    | mixture => cases plain d (self_mem_parts d) _ ha
    | _ =>
      obtain rfl := Except.ok.inj ((grafts.others _ rfl).symm.trans hab)
      rfl

/-- What a rule that grafts does to the arguments of a recipe. -/
theorem regrafted : Recipe.Revised Regrafted d d' := by
  refine (revise_eq_ok.1 h).mono_mem fun a ha b hab => ?_
  have held {r} (hr : r ∈ a.direct) : P r :=
    refs r (mem_references.2 ⟨d, self_mem_parts d, a, ha, hr⟩)
  cases a with
  | reference r => exact .inl (grafts.references r (held (List.mem_singleton.2 rfl)) b hab)
  | collection tag members =>
    obtain ⟨rs, hr, rfl⟩ := revise_collection_eq_ok.1 hab
    suffices same : members = rs from .inl (.inl (by rw [same]))
    rw [← List.forall₂_eq_eq_eq]
    refine forall₂_imp_mem hr fun r hm s hrs => ?_
    rcases grafts.references r (held hm) _ hrs with e | ⟨_, _, _, _, _, _, e⟩
    · exact (Argument.reference.inj e).symm
    · cases e
  | inlined m r =>
    obtain ⟨r', hr, rfl⟩ := revise_inlined_eq_ok.1 hab
    exact .inr ⟨m, r, r', rfl, (revise_eq_ok.1 hr).id_eq, rfl⟩
  | mixture => cases plain d (self_mem_parts d) _ ha
  | _ => exact .inl (.inl (Except.ok.inj ((grafts.others _ rfl).symm.trans hab)).symm)

/-- What is embedded in a definition after a rule that grafts: what was, revised, and what is
grafted with what is embedded in that. -/
theorem mem_embedded_revise {e : Nat × Definition} (he : e ∈ embedded d') :
    (∃ q, (e.1, q) ∈ embedded d ∧ revise rule q = .ok e.2) ∨
      ∃ r ∈ references d, ∃ m recipe, rule (.reference r) = .ok (.inlined m recipe) ∧
        (e = (m, recipe) ∨ e ∈ embedded recipe) := by
  induction d using Definition.induct generalizing d' with
  | step d ih =>
    obtain ⟨m, r', hr', he⟩ := mem_embedded.1 he
    obtain ⟨a, ha, hab⟩ := forall₂_mem_right (revise_eq_ok.1 h).allArguments hr'
    cases a with
    | reference r =>
      exact .inr ⟨r, mem_references.2 ⟨d, self_mem_parts d, _, ha, by simp [direct]⟩, m, r', hab,
        he⟩
    | collection tag members =>
      obtain ⟨rs, -, e⟩ := revise_collection_eq_ok.1 hab
      cases e
    | inlined m₀ r =>
      obtain ⟨r₁, hr, e⟩ := revise_inlined_eq_ok.1 hab
      obtain ⟨rfl, rfl⟩ := Argument.inlined.inj e
      have part := parts_of_inlined ha
      rcases he with rfl | he
      · exact .inl ⟨r, mem_embedded.2 ⟨m, r, ha, .inl rfl⟩, hr⟩
      rcases ih m r ha (plain.of_part part) (fun x hx => refs x (references_of_part part hx)) hr he
        with ⟨q, hq, hR⟩ | ⟨x, hx, found⟩
      · exact .inl ⟨q, mem_embedded.2 ⟨m, r, ha, .inr hq⟩, hR⟩
      · exact .inr ⟨x, references_of_part part hx, found⟩
    | mixture => cases plain d (self_mem_parts d) _ ha
    | _ => cases Except.ok.inj ((grafts.others _ rfl).symm.trans hab)

/-- The references of a definition after a rule that grafts: those that the rule leaves, and those
that came with what is grafted. -/
theorem mem_references_revise {r : Reference} (hr : r ∈ references d') :
    (r ∈ references d ∧ rule (.reference r) = .ok (.reference r)) ∨
      ∃ x ∈ references d, ∃ m recipe, rule (.reference x) = .ok (.inlined m recipe) ∧
        r ∈ references recipe := by
  rw [references_revise plain grafts refs h] at hr
  obtain ⟨x, hx, hr⟩ := List.mem_flatMap.1 hr
  obtain ⟨b, hb⟩ := ((revise_succeeds plain grafts.others).1 ⟨d', h⟩).1 x hx
  rw [Rule.graft_of_ok hb] at hr
  rcases grafts.references x (refs x hx) b hb with rfl | ⟨_, m, recipe, -, -, -, rfl⟩
  · obtain rfl := List.mem_singleton.1 hr
    exact .inl ⟨hx, hb⟩
  · exact .inr ⟨x, hx, m, recipe, hb, by simpa using hr⟩

end Grafts

end Definition

end Wiring
