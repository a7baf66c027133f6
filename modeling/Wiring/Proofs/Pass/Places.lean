import Mathlib
import Wiring.Proofs.Pass.Refusals

/-!
# Where services are inlined to

What inlining takes out of a validated graph is found again under its mark, at one place: in a
definition that is left, or in something that is embedded there. Rounds are composed: what one of
them embeds, the next ones leave where it is, and graft into it.
-/

namespace Wiring.Pass

open Graph Definition Argument

variable {p g g' : Graph} {gone : List (Nat × Definition)} {c d q : Definition}
  {e : Nat × Definition}

/-- The graph was validated, and its references name no aliases. Definitions are known by their
identifiers and embedded recipes by their marks; nothing is both, and a collection that was made by
hand holds something else than references. -/
structure Vetted (p : Graph) : Prop where
  valid : p.validate = .ok ()
  unaliased : ∀ d ∈ p.definitions, ∀ r ∈ references d, r.id ∉ p.aliasIds
  unique : p.ids.Nodup
  stamped : p.Stamped
  alone : p.twins = []
  mixed : ∀ q ∈ p.parts, ∀ tag members, .mixture tag members ∈ q.allArguments →
    ∃ a ∈ members, a.isReference = false

/-- No more than one eager reference holds on to a private definition. -/
structure Lone (p : Graph) (c : Definition) : Prop where
  isPublic : c.isPublic = false
  isLazy : c.isLazy = false
  isAbstract : c.isAbstract = false
  target : ∀ a ∈ p.aliases, a.target ≠ c.id
  use : ∃ r, p.allReferences.filter (fun r => r.id == c.id) = [r] ∧ r.lazy = false

/-- `g` is `p` after rounds that took out the definitions in `gone` and embedded each under its mark.
Definitions that are left and recipes that were embedded have things grafted into them and are
otherwise as they were, and of the references only those to `gone` are no longer there. What is gone
was lone and in no collection, and a candidate of the round that took it out. -/
structure Inlined (p g : Graph) (gone : List (Nat × Definition)) : Prop where
  rounds : Relation.ReflTransGen Round p g
  aliases_eq : g.aliases = p.aliases
  parameters_eq : g.parameters = p.parameters
  nextMark_eq : g.nextMark = p.nextMark + gone.length
  marks : gone.map (·.1) = List.range' p.nextMark gone.length
  split : p.definitions.Perm
    ((p.definitions.filter fun d => decide (d.id ∈ g.ids)) ++ gone.map (·.2))
  left : List.Forall₂ (Recipe.Revised Regrafted)
    (p.definitions.filter fun d => decide (d.id ∈ g.ids)) g.definitions
  recipes : ∀ e ∈ g.embedded, ∃ q, ((e.1, q) ∈ gone ∨ (e.1, q) ∈ p.embedded) ∧
    Recipe.Revised Regrafted q e.2
  stamps : g.stamps.Perm (gone.map (fun e => (e.1, e.2.id)) ++ p.stamps)
  references : g.allReferences.Perm
    (p.allReferences.filter fun r => decide (r.id ∉ gone.map (·.2.id)))
  lone : ∀ e ∈ gone, Lone p e.2
  ungathered : ∀ e ∈ gone, ∀ d ∈ p.definitions, ∀ r, Gathers d r → r.id ≠ e.2.id
  candidate : ∀ e ∈ gone, ∃ g₁ c, Relation.ReflTransGen Round p g₁ ∧
    Relation.ReflTransGen Round g₁ g ∧ (e.1, c) ∈ candidates g₁ ∧ Candidate g₁ c ∧
      Recipe.Revised Regrafted e.2 c
  hosts : ∀ d ∈ g.definitions, ∀ e ∈ Definition.embedded d, e.1 ∈ gone.map (·.1) →
    e.2.isShared = true → d.isShared = true

/-! ## Validated graphs -/

theorem Vetted.plain (h : Vetted p) : p.Plain := by
  obtain ⟨edges, found, -⟩ := bind_eq_ok.1 h.valid
  intro d hd q hq a ha
  obtain ⟨-, -, referring, -⟩ := forall₂_mem_left (edges_eq_ok.1 found) hd
  cases a with
  | mixture tag members =>
    obtain ⟨a, ha', other⟩ := h.mixed q (mem_parts_of hd hq) tag members ha
    exact absurd (referring a (referents_of_part hq ha ha')) (by simp [other])
  | _ => rfl

theorem Vetted.layered (h : Vetted p) : p.Layered where
  unique := h.unique
  alone := h.alone
  plain := h.plain
  unaliased := h.unaliased
  cycles := ((validate_ok h.plain).1 h.valid).2

/-! ## Origins -/

/-- The definition that has the identifier of another one in the graph. -/
def origin (p : Graph) (d : Definition) : Definition := (p.find? d.id).getD d

theorem origin_id (p : Graph) (d : Definition) : (origin p d).id = d.id := by
  unfold origin
  cases found : p.find? d.id with
  | none => rfl
  | some e => exact (mem_of_find? found).2

theorem origin_eq {R : Argument → Argument → Prop} {d₀ : Definition} (unique : p.ids.Nodup)
    (hd₀ : d₀ ∈ p.definitions) (hR : Recipe.Revised R d₀ d) : origin p d = d₀ := by
  rw [origin, hR.id_eq, find?_of_mem unique hd₀]
  rfl

/-- What a round on `g` takes out, as it was in `p`. -/
def outgoing (p g : Graph) : List (Nat × Definition) :=
  (candidates g).map fun e => (e.1, origin p e.2)

theorem mem_outgoing : e ∈ outgoing p g ↔ ∃ c, (e.1, c) ∈ candidates g ∧ e.2 = origin p c := by
  unfold outgoing
  rw [List.mem_map]
  constructor
  · rintro ⟨x, hx, rfl⟩
    exact ⟨x.2, hx, rfl⟩
  · rintro ⟨c, hc, same⟩
    exact ⟨_, hc, Prod.ext rfl same.symm⟩

theorem outgoing_marks (alone : g.twins = []) :
    (outgoing p g).map (·.1) = List.range' g.nextMark (candidates g).length := by
  rw [← candidates_marks alone, outgoing, List.map_map]
  rfl

theorem outgoing_stamps :
    (outgoing p g).map (fun e => (e.1, e.2.id)) = (candidates g).map fun e => (e.1, e.2.id) := by
  rw [outgoing, List.map_map]
  exact List.map_congr_left fun e _ => Prod.ext rfl (origin_id p e.2)

theorem outgoing_ids : (outgoing p g).map (·.2.id) = (candidates g).map (·.2.id) := by
  rw [outgoing, List.map_map]
  exact List.map_congr_left fun e _ => origin_id p e.2

namespace Inlined

/-- At first nothing is taken out. -/
theorem refl (p : Graph) : Inlined p p [] := by
  have all : (p.definitions.filter fun d => decide (d.id ∈ p.ids)) = p.definitions :=
    List.filter_eq_self.2 fun d hd => by simpa using id_mem_ids hd
  have same (d : Definition) : Recipe.Revised Regrafted d d := .refl fun _ _ => .inl (.inl rfl)
  exact {
    rounds := .refl
    aliases_eq := rfl
    parameters_eq := rfl
    nextMark_eq := rfl
    marks := rfl
    split := by rw [all, List.map_nil, List.append_nil]
    left := by
      rw [all]
      exact List.forall₂_same.2 fun d _ => same d
    recipes := fun e he => ⟨e.2, .inr he, same e.2⟩
    stamps := .rfl
    references := by simp
    lone := by simp
    ungathered := by simp
    candidate := by simp
    hosts := by simp }

section Places

variable (h : Inlined p g gone)

include h

theorem mark_of_gone (he : e ∈ gone) : p.nextMark ≤ e.1 ∧ e.1 < g.nextMark := by
  have mem := List.mem_map_of_mem (f := Prod.fst) he
  rw [h.marks] at mem
  exact h.nextMark_eq ▸ List.mem_range'_1.1 mem

theorem coherent_gone : Pool.Coherent gone := .of_nodup (h.marks ▸ List.nodup_range')

theorem mem_of_gone (he : e ∈ gone) : e.2 ∈ p.definitions :=
  h.split.mem_iff.2 (List.mem_append_right _ (List.mem_map_of_mem he))

/-- The marks in use are those that were, and those of what was taken out. -/
theorem marks_perm :
    (g.embedded.map (·.1)).Perm (gone.map (·.1) ++ p.embedded.map (·.1)) := by
  have stamps := h.stamps.map Prod.fst
  simpa [Graph.stamps_eq, Function.comp_def] using stamps

theorem exists_embedded {m : Nat} (hm : m ∈ gone.map (·.1) ++ p.embedded.map (·.1)) :
    ∃ q, (m, q) ∈ g.embedded := by
  obtain ⟨x, hx, rfl⟩ := List.mem_map.1 (h.marks_perm.mem_iff.2 hm)
  exact ⟨x.2, hx⟩

/-- A definition that was taken out is embedded, with what was grafted into it. -/
theorem embedded_of_gone (hn : p.Stamped) (he : e ∈ gone) :
    ∃ q, (e.1, q) ∈ g.embedded ∧ Recipe.Revised Regrafted e.2 q := by
  obtain ⟨q, hq⟩ := h.exists_embedded (List.mem_append_left _ (List.mem_map_of_mem he))
  obtain ⟨q₀, hq₀ | hq₀, hR⟩ := h.recipes _ hq
  · exact ⟨q, hq, h.coherent_gone e he _ hq₀ rfl ▸ hR⟩
  · exact absurd (hn.fresh _ hq₀) (h.mark_of_gone he).1.not_gt

/-- What was embedded still is, with what was grafted into it. -/
theorem embedded_of_embedded (hn : p.Stamped) (he : e ∈ p.embedded) :
    ∃ q, (e.1, q) ∈ g.embedded ∧ Recipe.Revised Regrafted e.2 q := by
  obtain ⟨q, hq⟩ := h.exists_embedded (List.mem_append_right _ (List.mem_map_of_mem he))
  obtain ⟨q₀, hq₀ | hq₀, hR⟩ := h.recipes _ hq
  · exact absurd (hn.fresh e he) (h.mark_of_gone hq₀).1.not_gt
  · exact ⟨q, hq, hn.coherent e he _ hq₀ rfl ▸ hR⟩

/-- Nothing else has the mark of a definition that was taken out. -/
theorem embedded_once (hn : p.Stamped) (he : e ∈ gone) :
    ∃ q, g.embedded.filter (fun x => x.1 == e.1) = [(e.1, q)] ∧
      Recipe.Revised Regrafted e.2 q := by
  obtain ⟨q, hq, hR⟩ := h.embedded_of_gone hn he
  have one : (g.embedded.map (·.1)).count e.1 = 1 := by
    have old : e.1 ∉ p.embedded.map (·.1) := fun mem => by
      obtain ⟨x, hx, same⟩ := List.mem_map.1 mem
      have := hn.fresh x hx
      have := (h.mark_of_gone he).1
      omega
    rw [h.marks_perm.count_eq, List.count_append, List.count_eq_zero.2 old, h.marks]
    exact List.count_eq_one_of_mem List.nodup_range' (h.marks ▸ List.mem_map_of_mem he)
  have length : (g.embedded.filter fun x => x.1 == e.1).length = 1 := by
    rw [← one, List.count_eq_countP, List.countP_map, List.countP_eq_length_filter]
    rfl
  obtain ⟨x, hx⟩ := List.length_eq_one_iff.1 length
  have mem : (e.1, q) ∈ g.embedded.filter fun x => x.1 == e.1 :=
    List.mem_filter.2 ⟨hq, by simp⟩
  rw [hx, List.mem_singleton] at mem
  exact ⟨q, mem ▸ hx, hR⟩

/-- Each part of the graph is still there, with what was grafted into it. -/
theorem exists_part (hn : p.Stamped) (hq : q ∈ p.parts) :
    ∃ q' ∈ g.parts, Recipe.Revised Regrafted q q' := by
  have inside {x : Nat × Definition} (hx : x ∈ g.embedded) : x.2 ∈ g.parts := by
    obtain ⟨d, hd, hx⟩ := List.mem_flatMap.1 hx
    exact mem_parts_of hd (mem_parts_of_embedded hx)
  obtain ⟨d, hd, hq⟩ := mem_parts.1 hq
  rcases List.mem_cons.1 hq with rfl | hq
  · rcases List.mem_append.1 (h.split.mem_iff.1 hd) with left | taken
    · obtain ⟨q', hq', hR⟩ := forall₂_mem_left h.left left
      exact ⟨q', mem_parts_of_definition hq', hR⟩
    · obtain ⟨e, he, rfl⟩ := List.mem_map.1 taken
      obtain ⟨q', hq', hR⟩ := h.embedded_of_gone hn he
      exact ⟨q', inside hq', hR⟩
  · obtain ⟨e, he, rfl⟩ := List.mem_map.1 hq
    obtain ⟨q', hq', hR⟩ := h.embedded_of_embedded hn (List.mem_flatMap.2 ⟨d, hd, he⟩)
    exact ⟨q', inside hq', hR⟩

/-- No candidate of a round that is made was a member of a collection. -/
theorem ungathered_of_candidate (hn : p.Stamped) (clear : Clear g) (he : e ∈ candidates g)
    (hd : d ∈ p.definitions) {r : Reference} (gathers : Gathers d r) :
    r.id ≠ (origin p e.2).id := by
  obtain ⟨q, hq, tag, members, ha, hr⟩ := gathers
  obtain ⟨q', hq', hR⟩ := h.exists_part hn (mem_parts_of hd hq)
  obtain ⟨b, hb, regrafted⟩ := forall₂_mem_left hR.allArguments ha
  obtain rfl := (Regrafted.collection_iff regrafted).1 rfl
  obtain ⟨d', hd', hq'⟩ := mem_parts.1 hq'
  rw [origin_id]
  exact (findCandidate?_eq_none.1 (clear d' hd' r ⟨q', hq', tag, members, hb, hr⟩) e he).symm

variable (unique : p.ids.Nodup)

include unique

theorem revised_origin (hd : d ∈ g.definitions) :
    origin p d ∈ p.definitions ∧ Recipe.Revised Regrafted (origin p d) d := by
  obtain ⟨d₀, hd₀, hR⟩ := forall₂_mem_right h.left hd
  have hd₀ := (List.mem_filter.1 hd₀).1
  rw [origin_eq unique hd₀ hR]
  exact ⟨hd₀, hR⟩

/-- What was taken out is there by itself no more. -/
theorem id_of_gone (he : e ∈ gone) : e.2.id ∉ g.ids := by
  intro there
  have nodup := h.split.nodup_iff.1 (List.Nodup.of_map _ unique)
  have left : e.2 ∈ p.definitions.filter fun d => decide (d.id ∈ g.ids) :=
    List.mem_filter.2 ⟨h.mem_of_gone he, by simpa using there⟩
  exact (List.nodup_append.1 nodup).2.2 _ left _ (List.mem_map_of_mem he) rfl

/-- The definitions that are left, as they were. -/
theorem filter_eq : (p.definitions.filter fun d => decide (d.id ∈ g.ids)) =
    g.definitions.map (origin p) := by
  rw [← List.forall₂_eq_eq_eq, List.forall₂_map_right_iff]
  exact forall₂_imp_mem h.left fun d₀ hd₀ d hR =>
    (origin_eq unique (List.mem_filter.1 hd₀).1 hR).symm

/-- One eager reference was all that held on to what is a candidate now. -/
theorem lone_of_candidate (hc : c ∈ g.definitions) (candidate : Candidate g c) :
    Lone p (origin p c) := by
  obtain ⟨-, hR⟩ := h.revised_origin unique hc
  refine ⟨hR.isPublic_eq ▸ candidate.isPublic, hR.isLazy_eq ▸ candidate.isLazy,
    hR.isAbstract_eq ▸ candidate.isAbstract, fun a ha => ?_, ?_⟩
  · rw [origin_id]
    exact candidate.target a (h.aliases_eq ▸ ha)
  · obtain ⟨r, only, eager⟩ := candidate.exists_reference
    refine ⟨r, ?_, eager⟩
    have still : c.id ∉ gone.map (·.2.id) := fun taken => by
      obtain ⟨e, he, same⟩ := List.mem_map.1 taken
      exact h.id_of_gone unique he (same ▸ id_mem_ids hc)
    have references := h.references.filter fun r => r.id == c.id
    rw [only, List.filter_filter] at references
    rw [origin_id, ← List.perm_singleton.1 references.symm]
    refine List.filter_congr fun r _ => ?_
    by_cases same : r.id = c.id
    · simp [same, still]
    · simp [same]

section Round

variable (hg : g.Layered) (round : Round g g')

include hg round

theorem filter_round :
    (p.definitions.filter fun d => decide (d.id ∈ g'.ids)) = (others g).map (origin p) := by
  have both : (p.definitions.filter fun d => decide (d.id ∈ g'.ids)) =
      (p.definitions.filter fun d => decide (d.id ∈ g.ids)).filter
        fun d => (findCandidate? (candidates g) d.id).isNone := by
    rw [List.filter_filter]
    refine List.filter_congr fun d _ => ?_
    rw [Bool.eq_iff_iff]
    simp [round.mem_ids hg, and_comm]
  rw [both, h.filter_eq unique, List.filter_map]
  exact congrArg _ (List.filter_congr fun d _ => by rw [Function.comp_apply, origin_id])

theorem split_round : p.definitions.Perm
    ((p.definitions.filter fun d => decide (d.id ∈ g'.ids)) ++
      (gone ++ outgoing p g).map (·.2)) := by
  have now := (definitions_perm hg.alone hg.unique).map (origin p)
  rw [List.map_append, List.map_map, ← h.filter_eq unique,
    ← h.filter_round unique hg round] at now
  refine (h.split.trans (now.append_right _)).trans ?_
  rw [List.append_assoc, List.map_append, outgoing, List.map_map]
  exact List.perm_append_comm.append_left _

theorem left_round : List.Forall₂ (Recipe.Revised Regrafted)
    (p.definitions.filter fun d => decide (d.id ∈ g'.ids)) g'.definitions := by
  rw [h.filter_round unique hg round, round.definitions_eq, List.forall₂_map_left_iff,
    List.forall₂_map_right_iff, List.forall₂_same]
  intro d hd
  have before := (h.revised_origin unique (List.mem_filter.1 hd).1).2
  exact Regrafted.revised_trans before (round.revised hg hd)

theorem recipes_round (he : e ∈ g'.embedded) :
    ∃ q, ((e.1, q) ∈ gone ++ outgoing p g ∨ (e.1, q) ∈ p.embedded) ∧
      Recipe.Revised Regrafted q e.2 := by
  obtain ⟨q, hq, from', same⟩ := round.mem_embedded hg he
  have grown := same ▸ whole_revised hg round.clear hq
  rcases from' with there | found
  · obtain ⟨q₀, hq₀, before⟩ := h.recipes _ there
    exact ⟨q₀, hq₀.imp_left (List.mem_append_left _), Regrafted.revised_trans before grown⟩
  · have before := (h.revised_origin unique (mem_candidates hg.alone found).1).2
    exact ⟨origin p q, .inl (List.mem_append_right _ (mem_outgoing.2 ⟨q, found, rfl⟩)),
      Regrafted.revised_trans before grown⟩

omit unique in
theorem references_round : g'.allReferences.Perm
    (p.allReferences.filter fun r => decide (r.id ∉ (gone ++ outgoing p g).map (·.2.id))) := by
  refine ((round.references_perm hg).trans (h.references.filter _)).trans (.of_eq ?_)
  rw [List.filter_filter]
  refine List.filter_congr fun r _ => ?_
  rw [List.map_append, outgoing_ids, Bool.eq_iff_iff, Bool.and_eq_true, findCandidate?_isNone]
  simp only [decide_eq_true_eq, List.mem_append, not_or]
  exact and_comm

omit unique in
/-- What hosts a candidate that is shared is shared, and what hosts the host as well. -/
theorem hosts_round (hn : g.Stamped) (hd : d ∈ g'.definitions) (he : e ∈ Definition.embedded d)
    (taken : e.1 ∈ (gone ++ outgoing p g).map (·.1)) (isShared : e.2.isShared = true) :
    d.isShared = true := by
  obtain ⟨d₀, hd₀, rfl⟩ := round.exists_old hd
  have inside := (List.mem_filter.1 hd₀).1
  obtain ⟨d₁, q, below, from', same⟩ := mem_embedded_whole hg round.clear inside he
  obtain ⟨hd₁, -, shared⟩ := below.spec hg inside
  rw [(round.revised hg hd₀).isShared_eq]
  refine shared ?_
  have still (hq : q ∈ g.parts) : q.isShared = true := by
    rw [← (whole_revised hg round.clear hq).isShared_eq, ← same, isShared]
  rcases from' with there | ⟨-, rfl⟩
  · refine h.hosts d₁ hd₁ _ there ?_ (still (mem_parts_of hd₁ (mem_parts_of_embedded there)))
    -- the marks of candidates are new
    rw [List.map_append, outgoing_marks hg.alone] at taken
    refine (List.mem_append.1 taken).resolve_right fun later => ?_
    have old : e.1 < g.nextMark := hn.fresh (e.1, q) (List.mem_flatMap.2 ⟨d₁, hd₁, there⟩)
    exact absurd old (List.mem_range'_1.1 later).1.not_gt
  · exact still (mem_parts_of_definition hd₁)

/-- What a round takes out comes to what was taken out before. -/
theorem tail (hn : g.Stamped) (stamped : p.Stamped) : Inlined p g' (gone ++ outgoing p g) := by
  refine {
    rounds := h.rounds.tail round
    aliases_eq := round.aliases_eq.trans h.aliases_eq
    parameters_eq := round.parameters_eq.trans h.parameters_eq
    nextMark_eq := ?nextMark_eq
    marks := ?marks
    split := h.split_round unique hg round
    left := h.left_round unique hg round
    recipes := fun e he => h.recipes_round unique hg round he
    stamps := ?stamps
    references := h.references_round hg round
    lone := fun e he => ?lone
    ungathered := fun e he d hd r gathers => ?ungathered
    candidate := fun e he => ?candidate
    hosts := fun d hd e he => h.hosts_round hg round hn hd he }
  case nextMark_eq =>
    rw [round.nextMark_eq, h.nextMark_eq, List.length_append, outgoing, List.length_map,
      Nat.add_assoc]
  case marks =>
    rw [List.map_append, outgoing_marks hg.alone, h.marks, h.nextMark_eq, List.length_append,
      outgoing, List.length_map, List.range'_append_1]
  case stamps =>
    refine ((round.stamps_perm hg).trans (h.stamps.append_left _)).trans ?_
    rw [List.map_append, outgoing_stamps, ← List.append_assoc]
    exact List.perm_append_comm.append_right _
  case lone =>
    rcases List.mem_append.1 he with he | he
    · exact h.lone e he
    · obtain ⟨c, found, same⟩ := mem_outgoing.1 he
      obtain ⟨hc, candidate⟩ := mem_candidates hg.alone found
      exact same ▸ h.lone_of_candidate unique hc candidate
  case ungathered =>
    rcases List.mem_append.1 he with he | he
    · exact h.ungathered e he d hd r gathers
    · obtain ⟨c, found, same⟩ := mem_outgoing.1 he
      exact same ▸ h.ungathered_of_candidate stamped round.clear found hd gathers
  case candidate =>
    rcases List.mem_append.1 he with he | he
    · obtain ⟨g₁, c, before, after, found⟩ := h.candidate e he
      exact ⟨g₁, c, before, after.tail round, found⟩
    · obtain ⟨c, found, same⟩ := mem_outgoing.1 he
      obtain ⟨hc, candidate⟩ := mem_candidates hg.alone found
      exact ⟨g, c, h.rounds, .single round, found, candidate,
        same ▸ (h.revised_origin unique hc).2⟩

end Round

end Places

end Inlined

/-! ## Inlining -/

/-- The failure refuses a definition in a collection that is embedded: a recipe that was embedded
before, or a lone definition, has a collection in which another lone definition is referred to. -/
def Declines (p : Graph) (e : Failure) : Prop :=
  ∃ tag service shown, e = .refused (.collectionMember tag service shown) ∧
    ∃ q, (q ∈ p.embedded.map (·.2) ∨ q ∈ p.definitions ∧ Lone p q) ∧ q.id = service ∧
      ∃ members, .collection tag members ∈ q.allArguments ∧
        ∃ r ∈ members, ∃ c ∈ p.definitions, c.id = r.id ∧ Lone p c

theorem Blocks.declines {e : Failure} (h : Inlined p g gone) (unique : p.ids.Nodup)
    (alone : g.twins = []) (blocks : Blocks g e) : Declines p e := by
  obtain ⟨tag, service, shown, rfl, q, hq, rfl, members, ha, r, hr, found⟩ := blocks
  obtain ⟨⟨m, c⟩, hc⟩ := Option.ne_none_iff_exists'.1 found
  obtain ⟨mem, same⟩ := findCandidate?_some hc
  obtain ⟨hc, candidate⟩ := mem_candidates alone mem
  obtain ⟨d, hd, hq⟩ := mem_parts.1 hq
  rcases List.mem_cons.1 hq with rfl | hq
  · exact absurd (findCandidate?_member alone hd ha hr) found
  obtain ⟨x, hx, rfl⟩ := List.mem_map.1 hq
  obtain ⟨q₀, from', hR⟩ := h.recipes x (List.mem_flatMap.2 ⟨d, hd, hx⟩)
  obtain ⟨b, hb, regrafted⟩ := forall₂_mem_right hR.allArguments ha
  obtain rfl := (Regrafted.collection_iff regrafted).2 rfl
  refine ⟨tag, x.2.id, shown, rfl, q₀, ?_, hR.id_eq.symm, members, hb, r, hr, origin p c,
    (h.revised_origin unique hc).1, (origin_id p c).trans same, h.lone_of_candidate unique hc candidate⟩
  rcases from' with taken | there
  · exact .inr ⟨h.mem_of_gone taken, h.lone _ taken⟩
  · exact .inl (List.mem_map.2 ⟨_, there, rfl⟩)

/-- Inlining fails where it finds a lone definition in a collection that is embedded. Otherwise each
definition that it takes out is embedded at one place, all references but those to these definitions
are still there, and inlining again changes nothing. -/
theorem inlineServices_inlines (vetted : Vetted p) (notes : List Note) :
    (∃ e w, inlineServices ⟨p, notes⟩ = .error e w ∧ Declines p e) ∨
      ∃ w gone, inlineServices ⟨p, notes⟩ = .ok () w ∧ Inlined p w.graph gone ∧
        (∀ e ∈ gone, ∃ q, w.graph.embedded.filter (fun x => x.1 == e.1) = [(e.1, q)] ∧
          Recipe.Revised Regrafted e.2 q) ∧
        candidates w.graph = [] ∧ Build.Does inlineServices w.graph () w.graph := by
  let I (g : Graph) : Prop := g.Layered ∧ g.Stamped ∧ ∃ gone, Inlined p g gone
  have round (g : Graph) (h : I g) (found : candidates g ≠ []) :
      (∀ e g', embed (candidates g) g = (some e, g') → Declines p e) ∧
        ∀ g', embed (candidates g) g = (none, g') →
          I g' ∧ g'.definitions.length < g.definitions.length := by
    obtain ⟨hg, hn, gone, inlined⟩ := h
    refine ⟨fun e g' failed =>
      (embed_blocks hg hn failed).declines inlined vetted.unique hg.alone, fun g' run => ?_⟩
    have round := round_of_embed hg hn found run
    exact ⟨⟨round.layered hg, round.stamped hg hn, _,
      inlined.tail vetted.unique hg round hn vetted.stamped⟩, round.fewer hg found⟩
  obtain ⟨fails, gives⟩ := inlineServices_ends (fun g h => h.1.plain) round
    ⟨vetted.layered, vetted.stamped, [], .refl p⟩
  cases run : inlineServices ⟨p, notes⟩ with
  | error e w => exact .inl ⟨e, w, rfl, fails notes e w run⟩
  | ok u w =>
    obtain ⟨⟨hg, hn, gone, inlined⟩, none⟩ := gives u w.graph ⟨notes, w.notes, run⟩
    exact .inr ⟨w, gone, rfl, inlined, fun e he => inlined.embedded_once vetted.stamped he, none,
      inlineServices_does hg.plain none⟩

/-- The lamp is embedded in the house, and then its bulb; the meter is used twice. -/
def house : Graph where
  definitions := [
    { id := "house", arguments := [.reference { id := "lamp" }, .reference { id := "meter" }] },
    { id := "lamp", isPublic := false, isShared := false,
      arguments := [.reference { id := "bulb" }] },
    { id := "bulb", isPublic := false },
    { id := "garage", arguments := [.reference { id := "meter" }] },
    { id := "meter", isPublic := false }]

theorem inlineServices_inlines_house : Vetted house ∧
    ∃ w gone, inlineServices ⟨house, []⟩ = .ok () w ∧ Inlined house w.graph gone ∧
      (∀ e ∈ gone, ∃ q, w.graph.embedded.filter (fun x => x.1 == e.1) = [(e.1, q)] ∧
        Recipe.Revised Regrafted e.2 q) ∧
      candidates w.graph = [] ∧ Build.Does inlineServices w.graph () w.graph := by
  have flat : house.embedded = [] := by decide
  have single : house.parts = house.definitions := by rfl
  have vetted : Vetted house := {
    valid := by cbv
    unaliased := by simp [aliasIds, house]
    unique := by decide
    stamped := ⟨by simp [Pool.Coherent, flat], by simp [flat]⟩
    alone := rfl
    mixed := by
      rw [single]
      simp [house, Recipe.allArguments] }
  refine ⟨vetted, (inlineServices_inlines vetted []).resolve_left ?_⟩
  rintro ⟨e, w, -, tag, service, shown, -, q, hq, -, members, hm, -⟩
  rw [flat, List.map_nil] at hq
  have hq : q ∈ house.definitions := hq.elim (by simp) And.left
  revert q
  simp [house, Recipe.allArguments]

end Wiring.Pass
