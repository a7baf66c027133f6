import Wiring.Proofs.Graph.Reach

/-!
# Graphs in another order

Graphs that hold the same definitions and aliases in different orders find the same things under
each identifier, so references stand for the same and the same is reached. A change that goes by one
definition at a time can be made in either.
-/

namespace Wiring

section Lists

variable {ε α β : Type}

/-- Where a list holds one entry at most that passes a test, the order does not count. -/
theorem find?_perm {p : α → Bool} {as bs : List α} (perm : as.Perm bs)
    (one : ∀ a ∈ as, ∀ b ∈ as, p a = true → p b = true → a = b) : bs.find? p = as.find? p := by
  cases h : as.find? p with
  | none =>
    rw [List.find?_eq_none] at h ⊢
    exact fun b hb => h b (perm.mem_iff.2 hb)
  | some a =>
    have ha := List.mem_of_find?_eq_some h
    have passes := List.find?_some h
    cases h' : bs.find? p with
    | none => exact absurd passes (List.find?_eq_none.1 h' a (perm.mem_iff.1 ha))
    | some b =>
      rw [one b (perm.mem_iff.2 (List.mem_of_find?_eq_some h')) a ha (List.find?_some h') passes]

/-- Lists side by side can be put in the order of another that the first is shuffled to. -/
theorem forall₂_perm {R : α → β → Prop} {as as' : List α} {bs : List β} (h : List.Forall₂ R as bs)
    (perm : as.Perm as') : ∃ bs', List.Forall₂ R as' bs' ∧ bs.Perm bs' := by
  obtain ⟨bs', h', perm'⟩ := List.perm_comp_forall₂ perm.symm h
  exact ⟨bs', h', perm'.symm⟩

/-- What can be worked through in one order can be in another. -/
theorem mapM_perm {f : α → Except ε β} {as as' : List α} {bs : List β} (perm : as.Perm as')
    (h : as.mapM f = .ok bs) : ∃ bs', as'.mapM f = .ok bs' ∧ bs.Perm bs' := by
  obtain ⟨bs', h', perm'⟩ := forall₂_perm (mapM_eq_ok.1 h) perm
  exact ⟨bs', mapM_eq_ok.2 h', perm'⟩

end Lists

namespace Graph

variable {g g' g₁ : Graph} {id a b tag : String} {d : Definition}

/-- The graphs hold the same definitions and aliases, in whatever order. -/
structure Shuffled (g g' : Graph) : Prop where
  definitions : g.definitions.Perm g'.definitions
  aliases : g.aliases.Perm g'.aliases
  twins_eq : g'.twins = g.twins

/-- In whatever order there are the same definitions, the same is found. -/
theorem find?_eq_of_perm (unique : g.ids.Nodup) (perm : g.definitions.Perm g'.definitions) :
    g'.find? = g.find? := by
  funext id
  refine find?_perm perm fun d hd e he hd' he' => eq_of_id_eq unique hd he ?_
  rw [beq_iff_eq.1 hd', beq_iff_eq.1 he']

namespace Shuffled

theorem refl (g : Graph) : Shuffled g g := ⟨.refl _, .refl _, rfl⟩

theorem symm (h : Shuffled g g') : Shuffled g' g :=
  ⟨h.definitions.symm, h.aliases.symm, h.twins_eq.symm⟩

theorem ids (h : Shuffled g g') : g.ids.Perm g'.ids := h.definitions.map _

theorem aliasIds (h : Shuffled g g') : g.aliasIds.Perm g'.aliasIds := h.aliases.map _

theorem mem_iff (h : Shuffled g g') : d ∈ g'.definitions ↔ d ∈ g.definitions :=
  h.definitions.mem_iff.symm

theorem tidy (h : Shuffled g g') (tidy : g.Tidy) : g'.Tidy where
  unique := h.ids.nodup_iff.1 tidy.unique
  uniqueAliases := h.aliasIds.nodup_iff.1 tidy.uniqueAliases
  apart id hid hids := tidy.apart id (h.aliasIds.mem_iff.2 hid) (h.ids.mem_iff.2 hids)
  labels d hd := tidy.labels d (h.mem_iff.1 hd)
  alone := h.twins_eq.trans tidy.alone

theorem holds {P : Argument → Prop} (h : Shuffled g g') (holds : g.Holds P) : g'.Holds P :=
  fun d hd => holds d (h.mem_iff.1 hd)

theorem flat (h : Shuffled g g') (flat : g.Flat) : g'.Flat := fun d hd => flat d (h.mem_iff.1 hd)

theorem registered (h : Shuffled g g') (hg : g.Registered) : g'.Registered :=
  ⟨h.tidy hg.toTidy, h.holds hg.declared⟩

/-! ## What is found -/

theorem has_eq (h : Shuffled g g') : g'.has = g.has := by
  funext id
  rw [Bool.eq_iff_iff, has_iff, has_iff, h.ids.mem_iff]

section Tidy

variable (h : Shuffled g g') (tidy : g.Tidy)

include h tidy

theorem find?_eq : g'.find? = g.find? := find?_eq_of_perm tidy.unique h.definitions

theorem findAlias?_eq : g'.findAlias? = g.findAlias? := by
  funext id
  refine find?_perm h.aliases fun a ha b hb ha' hb' => ?_
  have found := findAlias?_of_mem tidy.uniqueAliases ha
  rw [(beq_iff_eq.1 ha').trans (beq_iff_eq.1 hb').symm] at found
  exact Option.some.inj (found.symm.trans (findAlias?_of_mem tidy.uniqueAliases hb))

theorem resolveAlias_eq : g'.resolveAlias = g.resolveAlias :=
  resolveAlias_of_found (fun id => by rw [h.findAlias?_eq tidy]) h.aliases.length_eq.symm

theorem leads_iff : g'.Leads a b ↔ g.Leads a b := by
  rw [← resolveAlias_ok, ← resolveAlias_ok, h.resolveAlias_eq tidy]

/-! ## What is reached -/

theorem isRoot_iff : g'.IsRoot id ↔ g.IsRoot id := by
  unfold IsRoot
  rw [h.find?_eq tidy, h.resolveAlias_eq tidy]
  simp only [h.aliases.mem_iff]

theorem isMember_iff : g'.IsMember tag a id ↔ g.IsMember tag a id := by
  unfold IsMember
  rw [h.find?_eq tidy]

theorem leadsTo_iff : g'.LeadsTo d b ↔ g.LeadsTo d b := by
  unfold LeadsTo
  rw [h.resolveAlias_eq tidy, h.has_eq]
  simp only [h.isMember_iff tidy]

theorem reached (reached : g.Reached id) : g'.Reached id :=
  reached.transfer (fun _ => (h.isRoot_iff tidy).2) fun a d hd _ =>
    ⟨d, by rw [h.find?_eq tidy, hd], fun _ => (h.leadsTo_iff tidy).2⟩

theorem reached_iff : g'.Reached id ↔ g.Reached id :=
  ⟨fun reached => reached.transfer (fun _ => (h.isRoot_iff tidy).1) fun a d hd _ =>
    ⟨d, by rw [← h.find?_eq tidy, hd], fun _ => (h.leadsTo_iff tidy).1⟩, h.reached tidy⟩

end Tidy

/-! ## Changes -/

/-- A change that goes by one definition at a time can be made in either order. -/
theorem changed {R : Definition → Definition → Prop} (h : Shuffled g g') (change : Changed R g g₁) :
    ∃ g₁', Changed R g' g₁' ∧ Shuffled g₁ g₁' := by
  obtain ⟨ds, changed, perm⟩ := forall₂_perm change.definitions h.definitions
  exact ⟨{ g' with definitions := ds }, ⟨rfl, changed⟩, perm, change.aliases_eq ▸ h.aliases,
    h.twins_eq.trans change.twins_eq.symm⟩

/-- Definitions are revised in either order alike, each by its own rule. -/
theorem reviseAll {rule rule' : Definition → Rule} (h : Shuffled g g') (flat : g.Flat)
    (alone : g.twins = []) (same : ∀ d ∈ g.definitions, rule' d = rule d)
    (run : g.reviseAll rule = (none, g₁)) :
    ∃ g₁', g'.reviseAll rule' = (none, g₁') ∧ Shuffled g₁ g₁' := by
  obtain ⟨g₁', changed, shuffled⟩ :=
    h.changed ((reviseAll_ok (flat.isShared_eq_false alone)).1 run)
  refine ⟨g₁', (reviseAll_ok ((h.flat flat).isShared_eq_false (h.twins_eq.trans alone))).2 ?_,
    shuffled⟩
  refine Revised.mono_mem (R := fun d a b => Argument.revise (rule d) d.id a = .ok b) changed ?_
  intro d hd a _ b hab
  rwa [same d (h.mem_iff.1 hd)]

end Shuffled

end Graph

end Wiring
