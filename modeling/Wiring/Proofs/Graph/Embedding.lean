import Wiring.Proofs.Definition.Grafting
import Wiring.Proofs.Definition.InPlace
import Wiring.Proofs.Graph.Sealed

/-!
# Graphs with services embedded in others

`Embedding p g` holds where `g` is `p` with private services carried out in the place of the one
reference to each. What is sealed stays sealed then: hosts are reached where their parts were, and a
path between hosts is one between parts.
-/

namespace Wiring.Graph

open Definition Argument

variable {p g : Graph} {d d' e q q' : Definition} {id a b : String}

/-- The recipes that a graph is made of. -/
def parts (g : Graph) : List Definition := g.definitions.flatMap Definition.parts

/-- The marks and services of the recipes embedded in a graph. -/
def stamps (g : Graph) : List (Nat × String) := g.definitions.flatMap Definition.stamps

/-- The references in the definitions of a graph. -/
def allReferences (g : Graph) : List Reference := g.definitions.flatMap Definition.references

theorem stamps_eq (g : Graph) : g.stamps = g.embedded.map fun e => (e.1, e.2.id) := by
  rw [stamps, embedded, List.map_flatMap]
  rfl

theorem mem_parts : q ∈ g.parts ↔ ∃ d ∈ g.definitions, q ∈ Definition.parts d :=
  List.mem_flatMap

/-- The parts of a definition are those of the graph. -/
theorem mem_parts_of (hd : d ∈ g.definitions) (hq : q ∈ Definition.parts d) : q ∈ g.parts :=
  mem_parts.2 ⟨d, hd, hq⟩

theorem mem_parts_of_definition (hd : d ∈ g.definitions) : d ∈ g.parts :=
  mem_parts_of hd (self_mem_parts d)

theorem parts_ids_perm (g : Graph) :
    (g.parts.map (·.id)).Perm (g.ids ++ g.stamps.map (·.2)) := by
  unfold parts stamps ids
  induction g.definitions with
  | nil => exact .nil
  | cons d ds ih =>
    simp only [List.flatMap_cons, List.map_append, List.map_cons, Definition.parts,
      Definition.stamps, List.map_map, List.cons_append]
    refine List.Perm.cons _ ?_
    refine (ih.append_left _).trans ?_
    rw [← List.append_assoc, ← List.append_assoc]
    exact List.perm_append_comm.append_right _

/-- Recipes that are embedded under one mark are one and the same, and marks from the next one on are
not in use. -/
structure Stamped (g : Graph) : Prop where
  coherent : Pool.Coherent g.embedded
  fresh : ∀ e ∈ g.embedded, e.1 < g.nextMark

/-- `g` is `p` with private services embedded, each in the place of the one reference to it. -/
structure Embedding (p g : Graph) : Prop where
  aliases_eq : g.aliases = p.aliases
  parameters_eq : g.parameters = p.parameters
  alone : g.twins = []
  grafts : ∀ q ∈ g.parts, ∃ e ∈ p.definitions, Recipe.Revised Grafted e q
  placed : (g.ids ++ g.stamps.map (·.2)).Perm p.ids
  marks : (g.stamps.map (·.1)).Nodup
  fresh : ∀ s ∈ g.stamps, s.1 < g.nextMark
  hidden : ∀ d ∈ p.definitions, d.id ∉ g.ids →
    d.isPublic = false ∧ d.isLazy = false ∧ ∀ a ∈ p.aliases, a.target ≠ d.id
  named : ∀ d ∈ g.definitions, ∀ r ∈ references d, r.id ∈ p.ids → r.id ∈ g.ids
  shared : ∀ d ∈ g.definitions, ∀ q ∈ Definition.parts d, q.isShared = true → d.isShared = true

/-- Nothing is embedded at first. -/
theorem Embedding.refl (flat : p.Flat) (alone : p.twins = []) : Embedding p p := by
  have none : p.stamps = [] := List.flatMap_eq_nil_iff.2 fun d hd => by
    rw [Definition.stamps, (flat d hd).embedded_eq, List.map_nil]
  have single : ∀ q ∈ p.parts, q ∈ p.definitions := fun q hq => by
    obtain ⟨d, hd, hq⟩ := mem_parts.1 hq
    rw [(flat d hd).parts_eq, List.mem_singleton] at hq
    exact hq ▸ hd
  exact {
    aliases_eq := rfl
    parameters_eq := rfl
    alone := alone
    grafts := fun q hq => ⟨q, single q hq, .refl fun _ _ => .inl rfl⟩
    placed := by simp [none]
    marks := by simp [none]
    fresh := by simp [none]
    hidden := fun d hd hn => absurd (id_mem_ids hd) hn
    named := fun _ _ _ _ h => h
    shared := fun d hd q hq => by
      rw [(flat d hd).parts_eq, List.mem_singleton] at hq
      exact fun h => hq ▸ h }

namespace Embedding

theorem mem_parts_ids (h : Embedding p g) : (∃ q ∈ g.parts, q.id = id) ↔ id ∈ p.ids := by
  rw [← h.placed.mem_iff, ← (parts_ids_perm g).mem_iff, List.mem_map]

theorem parts_nodup (h : Embedding p g) (unique : p.ids.Nodup) : (g.parts.map (·.id)).Nodup :=
  ((parts_ids_perm g).trans h.placed).nodup_iff.2 unique

theorem unique (h : Embedding p g) (unique : p.ids.Nodup) : g.ids.Nodup :=
  (List.nodup_append.1 (h.placed.nodup_iff.2 unique)).1

theorem ids_subset (h : Embedding p g) (hid : id ∈ g.ids) : id ∈ p.ids :=
  h.placed.mem_iff.1 (List.mem_append_left _ hid)

theorem embedded_marks (h : Embedding p g) : (g.embedded.map (·.1)).Nodup := by
  have marks := h.marks
  rwa [stamps_eq, List.map_map] at marks

/-- Nothing is embedded twice. -/
theorem isShared_eq_false (h : Embedding p g) : g.isShared = false :=
  isShared_eq_false_iff.2 ⟨h.alone, h.embedded_marks⟩

theorem stamped (h : Embedding p g) : g.Stamped where
  coherent := .of_nodup h.embedded_marks
  fresh e he := h.fresh (e.1, e.2.id) (by
    rw [stamps_eq]
    exact List.mem_map_of_mem he)

/-- A part is known by its identifier. -/
theorem part_eq (h : Embedding p g) (unique : p.ids.Nodup) (hq : q ∈ g.parts) (hq' : q' ∈ g.parts)
    (same : q.id = q'.id) : q = q' :=
  List.inj_on_of_nodup_map (h.parts_nodup unique) hq hq' same

/-- A part has one host. -/
theorem host_eq (h : Embedding p g) (unique : p.ids.Nodup) (hd : d ∈ g.definitions)
    (hd' : d' ∈ g.definitions) (hq : q ∈ Definition.parts d) (hq' : q' ∈ Definition.parts d')
    (same : q.id = q'.id) : d = d' := by
  -- each part beside its host
  let hosted := g.definitions.flatMap fun d => (Definition.parts d).map fun q => (d, q)
  have ids_eq : hosted.map (fun x => x.2.id) = g.parts.map (·.id) := by
    simp [hosted, Graph.parts, List.map_flatMap, Function.comp_def]
  have mem {d q : Definition} (hd : d ∈ g.definitions) (hq : q ∈ Definition.parts d) :
      (d, q) ∈ hosted := List.mem_flatMap.2 ⟨d, hd, List.mem_map_of_mem hq⟩
  have nodup := ids_eq ▸ h.parts_nodup unique
  exact congrArg Prod.fst (List.inj_on_of_nodup_map nodup (mem hd hq) (mem hd' hq') same)

/-- The definition that a part is made of. -/
theorem exists_origin (h : Embedding p g) (hq : q ∈ g.parts) (unique : p.ids.Nodup) :
    ∃ e, p.find? q.id = some e ∧ Recipe.Revised Grafted e q := by
  obtain ⟨e, he, hR⟩ := h.grafts q hq
  exact ⟨e, hR.id_eq ▸ find?_of_mem unique he, hR⟩

/-- What is embedded is not there by itself. -/
theorem inlined_gone (h : Embedding p g) (unique : p.ids.Nodup) (hq : q ∈ g.parts) {m : Nat}
    {recipe : Definition} (hi : .inlined m recipe ∈ q.allArguments) : recipe.id ∉ g.ids := by
  obtain ⟨d, hd, hq⟩ := mem_parts.1 hq
  have stamp : recipe.id ∈ g.stamps.map (·.2) := List.mem_map.2 ⟨(m, recipe.id),
    List.mem_flatMap.2 ⟨d, hd, List.mem_map.2 ⟨(m, recipe), embedded_of_part hq hi, rfl⟩⟩, rfl⟩
  have disjoint := (List.nodup_append.1 (h.placed.nodup_iff.2 unique)).2.2
  exact fun hid => disjoint _ hid _ stamp rfl

/-- A reference is still there, or what it refers to at once is in its place. -/
theorem mem_references_or {r : Reference} (flat : e.Flat) (hR : Recipe.Revised Grafted e q)
    (hr : r ∈ references e) : r ∈ references q ∨
      r.lazy = false ∧ ∃ m recipe, .inlined m recipe ∈ q.allArguments ∧ recipe.id = r.id := by
  obtain ⟨x, hx, hr⟩ := flat.mem_references.1 hr
  obtain ⟨y, hy, hxy⟩ := forall₂_mem_left hR.allArguments hx
  rcases hxy with rfl | ⟨r', m, recipe, rfl, eager, same, rfl⟩
  · exact .inl (mem_references.2 ⟨q, self_mem_parts q, y, hy, hr⟩)
  · obtain rfl : r = r' := by simpa [Argument.direct] using hr
    exact .inr ⟨eager, m, recipe, hy, same⟩

/-- What is reached in the one graph has a host that is reached in the other. -/
theorem exists_reached (h : Embedding p g) (hs : p.Sealed) (flat : p.Flat) (hid : p.Reached id) :
    ∃ d ∈ g.definitions, g.Reached d.id ∧ ∃ q ∈ Definition.parts d, q.id = id := by
  induction hid with
  | @root id hroot =>
    obtain ⟨e, he, concrete, why⟩ := hroot
    have kept : id ∈ g.ids := by
      by_contra gone
      obtain ⟨hidden, -, target⟩ := h.hidden e (mem_of_find? he).1 ((mem_of_find? he).2 ▸ gone)
      rcases why with isPublic | ⟨a, ha, -, resolves⟩
      · exact absurd isPublic (by simp [hidden])
      · have := (hs.resolveAlias_alias ha).symm.trans resolves
        exact target a ha ((Except.ok.inj this).trans (mem_of_find? he).2.symm)
    obtain ⟨d, hd⟩ := exists_find? kept
    obtain ⟨hmem, rfl⟩ := mem_of_find? hd
    obtain ⟨e', he', hR⟩ := h.exists_origin (mem_parts_of_definition hmem) hs.unique
    obtain rfl := Option.some.inj (he.symm.trans he')
    refine ⟨d, hmem, .root ⟨d, hd, hR.isAbstract_eq.trans concrete, ?_⟩, d, self_mem_parts d, rfl⟩
    rw [hR.isPublic_eq, h.aliases_eq, resolveAlias_congr h.aliases_eq]
    exact why
  | @step a b e _ he leads ih =>
    obtain ⟨d, hd, reached, q, hq, rfl⟩ := ih
    obtain ⟨e', he', hR⟩ := h.exists_origin (mem_parts_of hd hq) hs.unique
    obtain rfl := Option.some.inj (he.symm.trans he')
    have hmem := (mem_of_find? he).1
    rcases leads with ⟨r, hr, resolves, has⟩ | ⟨tag, ht, -⟩
    · rw [hs.resolveAlias_ok hmem hr] at resolves
      obtain rfl := Except.ok.inj resolves
      have hp := has_iff.1 has
      rcases mem_references_or (flat e hmem) hR hr with hr' | ⟨-, m, recipe, hi, same⟩
      · have hx := references_of_part hq hr'
        have hg := h.named d hd r hx hp
        obtain ⟨d', hd'⟩ := exists_find? hg
        obtain ⟨hmem', same⟩ := mem_of_find? hd'
        refine ⟨d', hmem', same ▸ .step reached (find?_of_mem (h.unique hs.unique) hd) ?_, d',
          self_mem_parts d', same⟩
        refine .inl ⟨r, hx, ?_, has_iff.2 hg⟩
        rw [resolveAlias_congr h.aliases_eq, hs.resolveAlias_ok hmem hr]
      · exact ⟨d, hd, reached, recipe, parts_trans hq (parts_of_inlined hi), same⟩
    · have := hs.settled e hmem e (self_mem_parts e) _ ht
      simp [isSettled] at this

/-- What is left of a definition is reached as it was. -/
theorem reached (h : Embedding p g) (hs : p.Sealed) (flat : p.Flat) (hid : id ∈ g.ids) :
    g.Reached id := by
  obtain ⟨d, hd, reached, q, hq, rfl⟩ := h.exists_reached hs flat (hs.reached id (h.ids_subset hid))
  obtain ⟨d', hd', same⟩ := mem_ids.1 hid
  obtain rfl := h.host_eq hs.unique hd hd' hq (self_mem_parts d') same.symm
  exact same ▸ reached

/-! ## Dependencies -/

/-- A reference in a part is one that the part had from the start. -/
theorem mem_direct_origin {r : Reference} {x : Argument} (hR : Recipe.Revised Grafted e q)
    (hx : x ∈ q.allArguments) (hr : r ∈ x.direct) : r ∈ references e := by
  obtain ⟨y, hy, hyx⟩ := forall₂_mem_right hR.allArguments hx
  exact mem_references.2 ⟨e, self_mem_parts e, y, hy, hyx.mem_direct hr⟩

/-- A part leads at once to what is embedded in it. -/
theorem arc_inlined (h : Embedding p g) (hs : p.Sealed) (flat : p.Flat) (hq : q ∈ g.parts) {m : Nat}
    {recipe : Definition} (hi : .inlined m recipe ∈ q.allArguments) :
    p.Arc false q.id recipe.id := by
  obtain ⟨host, hhost, hpart⟩ := mem_parts.1 hq
  have inside : recipe ∈ g.parts := mem_parts_of hhost (parts_trans hpart (parts_of_inlined hi))
  obtain ⟨e, he, hR⟩ := h.exists_origin hq hs.unique
  obtain ⟨e', he', -⟩ := h.exists_origin inside hs.unique
  obtain ⟨y, hy, hyx⟩ := forall₂_mem_right hR.allArguments hi
  rcases hyx with rfl | ⟨r, _, _, rfl, eager, same, e⟩
  · exact absurd rfl (ne_inlined (flat e (mem_of_find? he).1 _ hy) m recipe)
  obtain ⟨rfl, rfl⟩ := Argument.inlined.inj e
  obtain ⟨hmem', ids⟩ := mem_of_find? he'
  have gone : e'.id ∉ g.ids := ids.symm ▸ h.inlined_gone hs.unique hq hi
  have hr := mem_references.2 ⟨_, self_mem_parts _, _, hy, List.mem_singleton.2 rfl⟩
  refine hs.arc_iff.2 ⟨_, e', he, he', r, hr, same.symm, ?_⟩
  rw [eager, (h.hidden e' hmem' gone).2.1]
  rfl

/-- A host leads to its parts at once. -/
theorem eager_part (h : Embedding p g) (hs : p.Sealed) (flat : p.Flat) (hd : d ∈ g.parts)
    (hq : q ∈ Definition.parts d) : Relation.ReflTransGen (p.Arc false) d.id q.id := by
  induction d using Definition.induct with
  | step d ih =>
    rcases Definition.mem_parts.1 hq with rfl | ⟨m, recipe, ha, hq⟩
    · exact .refl
    obtain ⟨host, hhost, hpart⟩ := mem_parts.1 hd
    have inside : recipe ∈ g.parts := mem_parts_of hhost (parts_trans hpart (parts_of_inlined ha))
    exact .head (h.arc_inlined hs flat hd ha) (ih m recipe ha inside hq)

/-- An arc between hosts is an arc from a part of the one. -/
theorem arc (h : Embedding p g) (hs : p.Sealed) (flat : p.Flat) {isLazy : Bool}
    (harc : g.Arc isLazy a b) :
    ∃ c, Relation.ReflTransGen (p.Arc false) a c ∧ p.Arc isLazy c b := by
  obtain ⟨d, d', hd, hd', r, hr, resolves, hl⟩ := harc
  obtain ⟨hmem, rfl⟩ := mem_of_find? hd
  obtain ⟨hmem', rfl⟩ := mem_of_find? hd'
  obtain ⟨q, hq, x, hx, hr⟩ := mem_references.1 hr
  obtain ⟨e, he, hR⟩ := h.exists_origin (mem_parts_of hmem hq) hs.unique
  obtain ⟨e', he', hR'⟩ := h.exists_origin (mem_parts_of_definition hmem') hs.unique
  rw [resolveAlias_congr h.aliases_eq] at resolves
  exact ⟨q.id, h.eager_part hs flat (mem_parts_of_definition hmem) hq, e, e', he, he', r,
    mem_direct_origin hR hx hr, resolves, by rw [hl, hR'.isLazy_eq]⟩

/-- What is sealed stays sealed when services are embedded in others. -/
theorem toSealed (h : Embedding p g) (hs : p.Sealed) (flat : p.Flat) : g.Sealed where
  unique := h.unique hs.unique
  uniqueAliases := by
    rw [aliasIds, h.aliases_eq]
    exact hs.uniqueAliases
  apart id hid := by
    rw [aliasIds, h.aliases_eq] at hid
    exact fun hg => hs.apart id hid (h.ids_subset hg)
  labels d hd := by
    obtain ⟨e, he, hR⟩ := h.grafts d (mem_parts_of_definition hd)
    exact hR.tags_eq ▸ hs.labels e he
  alone := h.alone
  settled d hd q hq x hx := by
    obtain ⟨e, he, hR⟩ := h.grafts q (mem_parts_of hd hq)
    obtain ⟨y, hy, hyx⟩ := forall₂_mem_right hR.allArguments hx
    exact hyx.isSettled (hs.settled e he e (self_mem_parts e) y hy)
  made d hd q hq := by
    obtain ⟨e, he, hR⟩ := h.grafts q (mem_parts_of hd hq)
    exact hR.factory_eq ▸ hs.made e he e (self_mem_parts e)
  tagged d hd q hq := by
    obtain ⟨e, he, hR⟩ := h.grafts q (mem_parts_of hd hq)
    exact hR.tags_eq ▸ hs.labels e he
  concrete d hd := by
    obtain ⟨e, he, hR⟩ := h.grafts d (mem_parts_of_definition hd)
    exact hR.isAbstract_eq.trans (hs.concrete e he)
  closed d hd r hr := by
    obtain ⟨q, hq, x, hx, hr'⟩ := mem_references.1 hr
    obtain ⟨e, he, hR⟩ := h.grafts q (mem_parts_of hd hq)
    obtain ⟨free, there⟩ := hs.closed e he r (mem_direct_origin hR hx hr')
    rw [aliasIds, h.aliases_eq]
    exact ⟨free, there.imp_left (h.named d hd r hr)⟩
  direct x hx := by
    rw [h.aliases_eq] at hx
    obtain ⟨isPublic, there⟩ := hs.direct x hx
    refine ⟨isPublic, ?_⟩
    by_contra gone
    obtain ⟨e, he, same⟩ := mem_ids.1 there
    exact (h.hidden e he (same ▸ gone)).2.2 x hx same.symm
  cycles := hs.cycles.of_arcs fun _ _ _ arc => h.arc hs flat arc
  reached id hid := h.reached hs flat hid

end Embedding

end Wiring.Graph
