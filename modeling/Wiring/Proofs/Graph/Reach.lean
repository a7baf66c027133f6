import Wiring.Graph.Reach
import Wiring.Proofs.Graph.Registered
import Wiring.Proofs.Walk.BreadthFirst

/-!
# What is reached from the roots

`Reached` follows references and tags from the roots without a bound. The walk over a graph finds
that and nothing else.
-/

namespace Wiring.Graph

variable {g : Graph} {id a b tag : String} {d : Definition}

/-- A definition that is no template, and public or the end of a public alias. -/
def IsRoot (g : Graph) (id : String) : Prop :=
  ∃ d, g.find? id = some d ∧ d.isAbstract = false ∧
    (d.isPublic = true ∨ ∃ a ∈ g.aliases, a.isPublic = true ∧ g.resolveAlias a.id = .ok id)

/-- A definition other than the consumer that carries the tag. -/
def IsMember (g : Graph) (tag consumer id : String) : Prop :=
  ∃ d, g.find? id = some d ∧ id ≠ consumer ∧ d.Carries tag

/-- A reference in the definition stands for `b`, or a tag that it collects has `b` under it. -/
def LeadsTo (g : Graph) (d : Definition) (b : String) : Prop :=
  (∃ r ∈ Definition.references d, g.resolveAlias r.id = .ok b ∧ g.has b = true) ∨
    ∃ tag, .tagged tag ∈ d.allArguments ∧ g.IsMember tag d.id b

/-- What is reached from the roots. -/
inductive Reached (g : Graph) : String → Prop
  | root {id : String} : g.IsRoot id → Reached g id
  | step {a b : String} {d : Definition} :
    Reached g a → g.find? a = some d → g.LeadsTo d b → Reached g b

theorem IsMember.has (h : g.IsMember tag a id) : g.has id = true := by
  obtain ⟨d, hd, -⟩ := h
  exact has_iff.2 (mem_ids.2 ⟨d, mem_of_find? hd⟩)

theorem LeadsTo.has (h : g.LeadsTo d b) : g.has b = true := by
  rcases h with ⟨_, _, _, h⟩ | ⟨_, _, h⟩
  · exact h
  · exact h.has

theorem IsRoot.has (h : g.IsRoot id) : g.has id = true := by
  obtain ⟨d, hd, -⟩ := h
  exact has_iff.2 (mem_ids.2 ⟨d, mem_of_find? hd⟩)

theorem Reached.has (h : g.Reached id) : g.has id = true := by
  cases h with
  | root h => exact h.has
  | step _ _ h => exact h.has

/-- What is reached in one graph is reached in another whose roots and steps are no fewer. -/
theorem Reached.transfer {g' : Graph} (h : g'.Reached id)
    (roots : ∀ id, g'.IsRoot id → g.IsRoot id)
    (steps : ∀ a d', g'.find? a = some d' → g.Reached a →
      ∃ d, g.find? a = some d ∧ ∀ b, g'.LeadsTo d' b → g.LeadsTo d b) : g.Reached id := by
  induction h with
  | root h => exact .root (roots _ h)
  | step _ hd hb ih =>
    obtain ⟨d, hd', leads⟩ := steps _ _ hd ih
    exact .step ih hd' (leads _ hb)

/-- The definition of `a` leads to `b`. -/
def Step (g : Graph) (a b : String) : Prop := ∃ d, g.find? a = some d ∧ g.LeadsTo d b

/-- Both graphs have the same roots, and steps from the same to the same. -/
structure SameWays (g g' : Graph) : Prop where
  roots : ∀ id, g'.IsRoot id ↔ g.IsRoot id
  steps : ∀ a b, g'.Step a b ↔ g.Step a b

namespace SameWays

variable {g' g'' : Graph}

theorem symm (h : SameWays g g') : SameWays g' g where
  roots id := (h.roots id).symm
  steps a b := (h.steps a b).symm

theorem trans (h : SameWays g g') (h' : SameWays g' g'') : SameWays g g'' where
  roots id := (h'.roots id).trans (h.roots id)
  steps a b := (h'.steps a b).trans (h.steps a b)

theorem reached (h : SameWays g g') (reached : g'.Reached id) : g.Reached id := by
  induction reached with
  | root hroot => exact .root ((h.roots _).1 hroot)
  | step _ hd hb ih =>
    obtain ⟨d, hd, hb⟩ := (h.steps _ _).1 ⟨_, hd, hb⟩
    exact .step ih hd hb

theorem reached_iff (h : SameWays g g') : g'.Reached id ↔ g.Reached id :=
  ⟨h.reached, h.symm.reached⟩

end SameWays

section Changes

variable {g' : Graph} {R : Definition → Definition → Prop}

/-- The definitions that pass a test are the same where the test does not tell what is changed. -/
theorem Changed.filtered (h : Changed R g g') {p : Definition → Bool}
    (agree : ∀ d d', R d d' → d'.id = d.id → p d' = p d) :
    (g'.definitions.filter p).map (·.id) = (g.definitions.filter p).map (·.id) :=
  (forall₂_map_eq.1 ((forall₂_filter h.definitions fun d d' hd =>
    (agree d d' hd.2 hd.1).symm).imp fun _ _ hd => hd.1.symm)).symm

/-- Roots stay roots where the visibility of definitions stays as it is. -/
theorem Changed.isRoot_iff (h : Changed R g g')
    (kept : ∀ d d', R d d' → d'.isAbstract = d.isAbstract ∧ d'.isPublic = d.isPublic) :
    g'.IsRoot id ↔ g.IsRoot id := by
  unfold IsRoot
  rw [h.aliases_eq, h.resolveAlias_eq]
  constructor
  · rintro ⟨d', hd', concrete, why⟩
    obtain ⟨d, hd, hR⟩ := h.find?_old hd'
    obtain ⟨ea, ep⟩ := kept d d' hR
    exact ⟨d, hd, ea ▸ concrete, ep ▸ why⟩
  · rintro ⟨d, hd, concrete, why⟩
    obtain ⟨d', hd', hR⟩ := h.find?_new hd
    obtain ⟨ea, ep⟩ := kept d d' hR
    exact ⟨d', hd', ea ▸ concrete, ep ▸ why⟩

/-- What is under a tag stays so where the tags of definitions stay as they are. -/
theorem Changed.isMember_iff (h : Changed R g g')
    (kept : ∀ d d', R d d' → d'.isAbstract = d.isAbstract ∧ d'.tags = d.tags) :
    g'.IsMember tag a id ↔ g.IsMember tag a id := by
  unfold IsMember Definition.Carries
  constructor
  · rintro ⟨d', hd', ne, carried⟩
    obtain ⟨d, hd, hR⟩ := h.find?_old hd'
    obtain ⟨ea, et⟩ := kept d d' hR
    exact ⟨d, hd, ne, ea ▸ et ▸ carried⟩
  · rintro ⟨d, hd, ne, carried⟩
    obtain ⟨d', hd', hR⟩ := h.find?_new hd
    obtain ⟨ea, et⟩ := kept d d' hR
    exact ⟨d', hd', ne, ea ▸ et ▸ carried⟩

/-- A definition leads to the same before and after a change that keeps tags. -/
theorem Changed.leadsTo_iff (h : Changed R g g')
    (kept : ∀ d d', R d d' → d'.isAbstract = d.isAbstract ∧ d'.tags = d.tags) :
    g'.LeadsTo d b ↔ g.LeadsTo d b := by
  unfold LeadsTo
  rw [h.resolveAlias_eq, h.has_eq]
  simp only [h.isMember_iff kept]

/-- The ways stay the same where each definition leads to what it led to. -/
theorem Changed.sameWays (h : Changed R g g')
    (kept : ∀ d d', R d d' → d'.isAbstract = d.isAbstract ∧ d'.isPublic = d.isPublic)
    (leads : ∀ d ∈ g.definitions, ∀ d', R d d' → ∀ b, g'.LeadsTo d' b ↔ g.LeadsTo d b) :
    SameWays g g' where
  roots _ := h.isRoot_iff kept
  steps a b := by
    constructor
    · rintro ⟨d', hd', hb⟩
      obtain ⟨d, hd, hR⟩ := h.find?_old hd'
      exact ⟨d, hd, (leads d (mem_of_find? hd).1 d' hR b).1 hb⟩
    · rintro ⟨d, hd, hb⟩
      obtain ⟨d', hd', hR⟩ := h.find?_new hd
      exact ⟨d', hd', (leads d (mem_of_find? hd).1 d' hR b).2 hb⟩

end Changes

/-! ## Roots -/

theorem mem_rootIds (unique : g.ids.Nodup) {roots : List String} (h : g.rootIds = .ok roots) :
    id ∈ roots ↔ g.IsRoot id := by
  obtain ⟨found, hf, h⟩ := bind_eq_ok.1 h
  obtain ⟨targets, ht, hf⟩ := bind_eq_ok.1 hf
  obtain rfl := pure_eq_ok.1 h
  obtain rfl := pure_eq_ok.1 hf
  have ht := mapM_eq_ok.1 ht
  rw [List.mem_eraseDups, List.mem_append, List.mem_filter]
  constructor
  · rintro (h | ⟨h, concrete⟩)
    · obtain ⟨d, hd, rfl⟩ := List.mem_map.1 h
      obtain ⟨hd, hp⟩ := List.mem_filter.1 hd
      simp only [Bool.and_eq_true, Bool.not_eq_true'] at hp
      exact ⟨d, find?_of_mem unique hd, hp.2, .inl hp.1⟩
    · obtain ⟨a, ha, hr⟩ := forall₂_mem_right ht h
      obtain ⟨ha, hp⟩ := List.mem_filter.1 ha
      cases hf : g.find? id with
      | none => simp [hf] at concrete
      | some d => exact ⟨d, hf, by simpa [hf] using concrete, .inr ⟨a, ha, hp, hr⟩⟩
  · rintro ⟨d, hd, concrete, hp | ⟨a, ha, hp, hr⟩⟩
    · refine .inl (List.mem_map.2 ⟨d, List.mem_filter.2 ⟨(mem_of_find? hd).1, ?_⟩,
        (mem_of_find? hd).2⟩)
      simp [hp, concrete]
    · obtain ⟨t, ht, hr'⟩ := forall₂_mem_left ht (List.mem_filter.2 ⟨ha, hp⟩)
      obtain rfl := Except.ok.inj (hr'.symm.trans hr)
      exact .inr ⟨ht, by simp [hd, concrete]⟩

/-- The roots can be told if and only if all public aliases lead somewhere. -/
theorem rootIds_succeeds : (∃ roots, g.rootIds = .ok roots) ↔
    ∀ a ∈ g.aliases, a.isPublic = true → ∃ t, g.resolveAlias a.id = .ok t := by
  have listed : (∃ targets, (g.aliases.filter (·.isPublic)).mapM (fun a => g.resolveAlias a.id) =
      .ok targets) ↔ _ := mapM_succeeds
  simp only [List.mem_filter, and_imp] at listed
  rw [← listed]
  constructor
  · rintro ⟨roots, h⟩
    obtain ⟨_, hf, -⟩ := bind_eq_ok.1 h
    obtain ⟨targets, ht, -⟩ := bind_eq_ok.1 hf
    exact ⟨targets, ht⟩
  · rintro ⟨targets, ht⟩
    exact ⟨_, bind_eq_ok.2 ⟨_, bind_eq_ok.2 ⟨targets, ht, rfl⟩, rfl⟩⟩

/-- The roots are the same, in the same order, where visibility stays as it is. -/
theorem Changed.rootIds_eq {g' : Graph} {R : Definition → Definition → Prop} (h : Changed R g g')
    (kept : ∀ d d', R d d' → d'.isAbstract = d.isAbstract ∧ d'.isPublic = d.isPublic) :
    g'.rootIds = g.rootIds := by
  have concrete (t : String) : ((g'.find? t).map fun d => !d.isAbstract).getD false =
      ((g.find? t).map fun d => !d.isAbstract).getD false := by
    have found := h.find?_rel t
    revert found
    cases g.find? t <;> cases g'.find? t <;> rintro ⟨⟩
    · rfl
    · next d d' hd => simp [(kept d d' hd.2).1]
  have shown : g'.publicIds = g.publicIds := h.filtered fun d d' hR _ => by
    rw [(kept d d' hR).1, (kept d d' hR).2]
  unfold rootIds aliasRoots
  simp only [shown, h.aliases_eq, h.resolveAlias_eq, concrete]

/-! ## Successors -/

/-- Where labels are tags, it can be told whether a definition carries one. -/
theorem hasTag_eq (labels : ∀ l ∈ d.tags, l.IsTag) (tag : String) :
    d.hasTag tag = .ok (d.tags.any fun l => l.name? == some tag) := by
  unfold Recipe.hasTag
  generalize d.tags = ls at labels
  induction ls with
  | nil => rfl
  | cons l ls ih =>
    obtain ⟨t, rfl, -⟩ := labels l List.mem_cons_self
    have ih := ih fun l hl => labels l (List.mem_cons_of_mem _ hl)
    have head : (do return (← (Label.tag t).name) == tag : Except Failure Bool) =
        .ok (t.name == tag) := rfl
    rw [List.anyM_cons, head, ok_bind, ih, List.any_cons]
    show _ = Except.ok ((some t.name == some tag) || _)
    by_cases e : t.name = tag <;> simp [e]

theorem any_name_iff (labels : ∀ l ∈ d.tags, l.IsTag) (tag : String) :
    (d.tags.any fun l => l.name? == some tag) = true ↔ ∃ t, .tag t ∈ d.tags ∧ t.name = tag := by
  rw [List.any_eq_true]
  constructor
  · rintro ⟨l, hl, h⟩
    obtain ⟨t, rfl, -⟩ := labels l hl
    exact ⟨t, hl, Option.some.inj (beq_iff_eq.1 h)⟩
  · rintro ⟨t, ht, rfl⟩
    exact ⟨.tag t, ht, beq_iff_eq.2 rfl⟩

/-- Where labels are tags, the members of a tag are told by a test of each definition. -/
theorem tagMembers_filter (tidy : g.Tidy) (tag consumer : String) :
    g.tagMembers tag consumer = .ok ((g.definitions.filter fun d =>
      (!d.isAbstract && !(d.id == consumer)) && d.tags.any fun l => l.name? == some tag).map
        (·.id)) := by
  rw [← List.filter_filter]
  exact bind_eq_ok.2 ⟨_, filterM_of_ok fun d hd => hasTag_eq (tidy.labels d hd) tag, rfl⟩

theorem tagMembers_eq (tidy : g.Tidy) (tag consumer : String) :
    ∃ members, g.tagMembers tag consumer = .ok members ∧
      ∀ id, id ∈ members ↔ g.IsMember tag consumer id := by
  refine ⟨_, tagMembers_filter tidy tag consumer, fun id => ?_⟩
  simp only [List.mem_map, List.mem_filter, Bool.and_eq_true, Bool.not_eq_true',
    beq_eq_false_iff_ne]
  constructor
  · rintro ⟨d, ⟨hd, ⟨concrete, ne⟩, ht⟩, rfl⟩
    exact ⟨d, find?_of_mem tidy.unique hd, ne, concrete, (any_name_iff (tidy.labels d hd) tag).1 ht⟩
  · rintro ⟨d, hd, ne, concrete, ht⟩
    obtain ⟨hmem, rfl⟩ := mem_of_find? hd
    exact ⟨d, ⟨hmem, ⟨concrete, ne⟩, (any_name_iff (tidy.labels d hmem) tag).2 ht⟩, rfl⟩

theorem mem_successors (tidy : g.Tidy) (plain : Definition.Plain d) {found : List String}
    (h : g.successors d = .ok found) : b ∈ found ↔ g.LeadsTo d b := by
  obtain ⟨targets, ht, h⟩ := bind_eq_ok.1 h
  obtain ⟨members, hm, h⟩ := bind_eq_ok.1 h
  obtain rfl := pure_eq_ok.1 h
  rw [Definition.eachReference_of_plain plain, mapM_eq_ok] at ht
  have hm := mapM_eq_ok.1 hm
  rw [List.mem_append, List.mem_filter, List.mem_flatten]
  refine or_congr ?_ ?_
  · constructor
    · rintro ⟨hb, hg⟩
      obtain ⟨r, hr, h⟩ := forall₂_mem_right ht hb
      exact ⟨r, hr, h, hg⟩
    · rintro ⟨r, hr, h, hg⟩
      obtain ⟨t, ht, h'⟩ := forall₂_mem_left ht hr
      exact ⟨Except.ok.inj (h'.symm.trans h) ▸ ht, hg⟩
  · constructor
    · rintro ⟨ids, hi, hb⟩
      obtain ⟨a, ha, h⟩ := forall₂_mem_right hm hi
      cases a with
      | tagged tag =>
        obtain ⟨_, ht, hmem⟩ := tagMembers_eq tidy tag d.id
        obtain rfl := Except.ok.inj (ht.symm.trans h)
        exact ⟨tag, ha, (hmem b).1 hb⟩
      | _ =>
        obtain rfl := Except.ok.inj h
        cases hb
    · rintro ⟨tag, ha, hb⟩
      obtain ⟨ids, hi, h⟩ := forall₂_mem_left hm ha
      obtain ⟨_, ht, hmem⟩ := tagMembers_eq tidy tag d.id
      obtain rfl := Except.ok.inj (ht.symm.trans h)
      exact ⟨_, hi, (hmem b).2 hb⟩

/-- What a definition leads to can be told if and only if its references lead somewhere. -/
theorem successors_succeeds (tidy : g.Tidy) (plain : Definition.Plain d) :
    (∃ found, g.successors d = .ok found) ↔
      ∀ r ∈ Definition.references d, ∃ t, g.resolveAlias r.id = .ok t := by
  rw [← mapM_succeeds (f := fun r : Reference => g.resolveAlias r.id),
    ← Definition.eachReference_of_plain plain]
  constructor
  · rintro ⟨found, h⟩
    obtain ⟨targets, ht, -⟩ := bind_eq_ok.1 h
    exact ⟨targets, ht⟩
  rintro ⟨targets, ht⟩
  refine ⟨_, bind_eq_ok.2 ⟨targets, ht, bind_eq_ok.2 ⟨_, (mapM_succeeds.2 ?_).choose_spec, rfl⟩⟩⟩
  intro a _
  cases a with
  | tagged tag =>
    obtain ⟨ids, h, -⟩ := tagMembers_eq tidy tag d.id
    exact ⟨ids, h⟩
  | _ => exact ⟨[], rfl⟩

/-- A definition leads to the same, in the same order, before and after a change that keeps tags. -/
theorem Changed.successors_eq {g' : Graph} {R : Definition → Definition → Prop}
    (h : Changed R g g') (tidy : g.Tidy) (tidy' : g'.Tidy)
    (kept : ∀ d d', R d d' → d'.isAbstract = d.isAbstract ∧ d'.tags = d.tags) (d : Definition) :
    g'.successors d = g.successors d := by
  have members (tag consumer : String) : g'.tagMembers tag consumer = g.tagMembers tag consumer := by
    rw [tagMembers_filter tidy', tagMembers_filter tidy]
    congr 1
    exact h.filtered fun d d' hR e => by rw [(kept d d' hR).1, (kept d d' hR).2, e]
  unfold successors
  simp only [members, h.resolveAlias_eq, h.has_eq]

/-! ## The walk -/

/-- The walk finds all that is reached, and nothing else. -/
theorem mem_reachableIds (tidy : g.Tidy) (plain : g.Plain) {out : List String}
    (h : g.reachableIds = .ok out) : id ∈ out ↔ g.Reached id := by
  obtain ⟨roots, hr, h⟩ := bind_eq_ok.1 h
  have walk := Walk.travels_of_except h
  have visit {a found} (hv : (do g.successors (← g.get a)) = .ok found) :
      ∃ d, g.find? a = some d ∧ ∀ b, b ∈ found ↔ g.LeadsTo d b := by
    obtain ⟨d, hd, hs⟩ := bind_eq_ok.1 hv
    have hd := get_ok.1 hd
    exact ⟨d, hd, fun b => mem_successors tidy (plain d (mem_of_find? hd).1) hs⟩
  have reached := walk.sound (P := g.Reached)
    (fun a ha => .root ((mem_rootIds tidy.unique hr).1 ha)) (by simp)
    fun _ a found _ ha hv b hb => by
      obtain ⟨d, hd, hf⟩ := visit hv
      exact .step ha hd ((hf b).1 hb)
  obtain ⟨roots_in, closed⟩ := walk.closed (U := g.ids)
    (Q := fun a found _ => (do g.successors (← g.get a)) = .ok found)
    (fun _ _ _ _ hv => hv) (fun _ _ _ _ _ _ _ hv _ => hv)
    (fun _ a found _ hv b hb => by
      obtain ⟨d, hd, hf⟩ := visit hv
      exact has_iff.1 ((hf b).1 hb).has)
    (fun a ha => has_iff.1 ((mem_rootIds tidy.unique hr).1 ha).has) (by simp) .nil
    (by simp [ids]) (by simp)
  refine ⟨reached id, fun h => ?_⟩
  induction h with
  | root h => exact roots_in _ ((mem_rootIds tidy.unique hr).2 h)
  | step _ hd hb ih =>
    obtain ⟨found, hv, hin⟩ := closed _ ih
    obtain ⟨d', hd', hf⟩ := visit hv
    obtain rfl := Option.some.inj (hd.symm.trans hd')
    exact hin _ ((hf _).2 hb)

/-- The walk succeeds if all aliases and references stand for something. -/
theorem reachableIds_succeeds (tidy : g.Tidy) (plain : g.Plain)
    (aliases : ∀ a ∈ g.aliases, ∃ t, g.resolveAlias a.id = .ok t)
    (references : ∀ d ∈ g.definitions, ∀ r ∈ Definition.references d,
      ∃ t, g.resolveAlias r.id = .ok t) : ∃ out, g.reachableIds = .ok out := by
  obtain ⟨roots, hr⟩ := rootIds_succeeds.2 fun a ha _ => aliases a ha
  obtain ⟨out, h⟩ := Walk.breadthFirst_ok (P := fun a => g.has a = true)
    (fun a ha => ((mem_rootIds tidy.unique hr).1 ha).has) fun a ha => by
      obtain ⟨d, hd⟩ := exists_find? (has_iff.1 ha)
      have hmem := (mem_of_find? hd).1
      obtain ⟨found, hf⟩ := (successors_succeeds tidy (plain d hmem)).2 (references d hmem)
      exact ⟨found, bind_eq_ok.2 ⟨d, get_ok.2 hd, hf⟩, fun b hb =>
        ((mem_successors tidy (plain d hmem) hf).1 hb).has⟩
  exact ⟨out, bind_eq_ok.2 ⟨roots, hr, h⟩⟩

end Wiring.Graph
