import Wiring.Graph.Basic
import Wiring.Proofs.Definition.Revision

/-!
# Looking things up in a graph

Definitions and aliases are found by their identifiers. A change of arguments, and any other change
that keeps the identifiers where they are, keeps what is found in its place.
-/

namespace Wiring.Graph

variable {g g' : Graph} {id target : String} {d d' : Definition}

/-! ## Definitions -/

theorem has_iff : g.has id = true ↔ id ∈ g.ids := by
  simp [has, ids]

theorem has_eq_false_iff : g.has id = false ↔ id ∉ g.ids := by
  rw [← has_iff, Bool.not_eq_true]

theorem mem_ids : id ∈ g.ids ↔ ∃ d ∈ g.definitions, d.id = id := by
  simp [ids]

theorem id_mem_ids (h : d ∈ g.definitions) : d.id ∈ g.ids :=
  mem_ids.2 ⟨d, h, rfl⟩

theorem mem_of_find? (h : g.find? id = some d) : d ∈ g.definitions ∧ d.id = id :=
  ⟨List.mem_of_find?_eq_some h, by simpa using List.find?_some h⟩

theorem find?_eq_none_iff : g.find? id = none ↔ id ∉ g.ids := by
  simp [find?, ids]

theorem exists_find? (h : id ∈ g.ids) : ∃ d, g.find? id = some d := by
  cases hf : g.find? id with
  | none => exact absurd h (find?_eq_none_iff.1 hf)
  | some d => exact ⟨d, rfl⟩

theorem get_ok : g.get id = .ok d ↔ g.find? id = some d := by
  unfold get
  cases g.find? id <;> simp

/-- Where no two definitions have one identifier, each is found by its own. -/
theorem find?_of_mem (unique : g.ids.Nodup) (h : d ∈ g.definitions) : g.find? d.id = some d :=
  find?_of_nodup unique h

theorem find?_eq_some_iff (unique : g.ids.Nodup) :
    g.find? id = some d ↔ d ∈ g.definitions ∧ d.id = id :=
  ⟨mem_of_find?, fun ⟨h, e⟩ => e ▸ find?_of_mem unique h⟩

theorem eq_of_id_eq (unique : g.ids.Nodup) (h : d ∈ g.definitions) (h' : d' ∈ g.definitions)
    (e : d.id = d'.id) : d = d' :=
  Option.some.inj ((find?_of_mem unique h).symm.trans (e ▸ find?_of_mem unique h'))

/-! ## Aliases -/

/-- Aliases of one identifier are one. -/
def aliasIds (g : Graph) : List String := g.aliases.map (·.id)

theorem hasAlias_iff : g.hasAlias id = true ↔ id ∈ g.aliasIds := by
  simp [hasAlias, aliasIds]

theorem mem_of_findAlias? {a : Alias} (h : g.findAlias? id = some a) : a ∈ g.aliases ∧ a.id = id :=
  ⟨List.mem_of_find?_eq_some h, by simpa using List.find?_some h⟩

theorem findAlias?_eq_none_iff : g.findAlias? id = none ↔ id ∉ g.aliasIds := by
  simp [findAlias?, aliasIds]

theorem findAlias?_of_mem {a : Alias} (unique : g.aliasIds.Nodup) (h : a ∈ g.aliases) :
    g.findAlias? a.id = some a := by
  unfold findAlias? aliasIds at *
  generalize g.aliases = as at unique h
  induction as with
  | nil => cases h
  | cons b bs ih =>
    rw [List.map_cons, List.nodup_cons] at unique
    rcases List.mem_cons.1 h with rfl | h
    · simp
    · have : b.id ≠ a.id := fun he => unique.1 (he ▸ List.mem_map_of_mem h)
      rw [List.find?_cons_of_neg (by simpa using this)]
      exact ih unique.2 h

section Following

variable {depth : Nat} {chain : List String}

theorem followAliases_none (h : g.findAlias? id = none) :
    g.followAliases depth chain id = .ok id := by
  cases depth <;> simp [followAliases, h]

theorem followAliases_zero {a : Alias} (h : g.findAlias? id = some a) :
    g.followAliases 0 chain id =
      if chain.contains id then .error (.aliasLoop (chain.drop (chain.idxOf id) ++ [id]))
      else .error .tooDeep := by
  simp [followAliases, h]

theorem followAliases_succ {a : Alias} (h : g.findAlias? id = some a) :
    g.followAliases (depth + 1) chain id =
      if chain.contains id then .error (.aliasLoop (chain.drop (chain.idxOf id) ++ [id]))
      else g.followAliases depth (chain ++ [id]) a.target := by
  simp [followAliases, h]

end Following

/-- Graphs in which as many aliases are found alike resolve them alike. -/
theorem resolveAlias_of_found (found : ∀ id, g'.findAlias? id = g.findAlias? id)
    (length : g'.aliases.length = g.aliases.length) : g'.resolveAlias = g.resolveAlias := by
  have follow (depth) : ∀ chain id,
      g'.followAliases depth chain id = g.followAliases depth chain id := by
    induction depth with
    | zero =>
      intro chain id
      cases hf : g.findAlias? id with
      | none => rw [followAliases_none hf, followAliases_none ((found id).trans hf)]
      | some a => rw [followAliases_zero hf, followAliases_zero ((found id).trans hf)]
    | succ depth ih =>
      intro chain id
      cases hf : g.findAlias? id with
      | none => rw [followAliases_none hf, followAliases_none ((found id).trans hf)]
      | some a => rw [followAliases_succ hf, followAliases_succ ((found id).trans hf), ih]
  funext id
  rw [resolveAlias, resolveAlias, length, follow]

/-- Graphs with the same aliases resolve them alike. -/
theorem resolveAlias_congr (h : g'.aliases = g.aliases) : g'.resolveAlias = g.resolveAlias :=
  resolveAlias_of_found (fun id => by rw [findAlias?, findAlias?, h]) (by rw [h])

/-- No collection in the graph was made by hand. -/
def Plain (g : Graph) : Prop := ∀ d ∈ g.definitions, Definition.Plain d

/-! ## Changes in place -/

/-- `g'` is `g` with its definitions changed in place, `R` between them, and nothing else. -/
structure Changed (R : Definition → Definition → Prop) (g g' : Graph) : Prop where
  frame : g' = { g with definitions := g'.definitions }
  definitions : List.Forall₂ (fun d d' => d'.id = d.id ∧ R d d') g.definitions g'.definitions

namespace Changed

variable {R S : Definition → Definition → Prop} {g'' : Graph}

theorem aliases_eq (h : Changed R g g') : g'.aliases = g.aliases := by rw [h.frame]
theorem parameters_eq (h : Changed R g g') : g'.parameters = g.parameters := by rw [h.frame]
theorem twins_eq (h : Changed R g g') : g'.twins = g.twins := by rw [h.frame]

theorem ids_eq (h : Changed R g g') : g'.ids = g.ids :=
  (forall₂_map_eq.1 (h.definitions.imp fun _ _ hd => hd.1.symm)).symm

theorem has_eq (h : Changed R g g') : g'.has = g.has := by
  funext id
  rw [Bool.eq_iff_iff, has_iff, has_iff, h.ids_eq]

theorem resolveAlias_eq (h : Changed R g g') : g'.resolveAlias = g.resolveAlias :=
  resolveAlias_congr h.aliases_eq

theorem aliasIds_eq (h : Changed R g g') : g'.aliasIds = g.aliasIds := by
  rw [aliasIds, h.aliases_eq, aliasIds]

theorem findAlias?_eq (h : Changed R g g') : g'.findAlias? = g.findAlias? := by
  funext id
  rw [findAlias?, h.aliases_eq, findAlias?]

theorem exists_old (h : Changed R g g') (hd : d' ∈ g'.definitions) :
    ∃ d ∈ g.definitions, d'.id = d.id ∧ R d d' :=
  forall₂_mem_right h.definitions hd

theorem exists_new (h : Changed R g g') (hd : d ∈ g.definitions) :
    ∃ d' ∈ g'.definitions, d'.id = d.id ∧ R d d' :=
  forall₂_mem_left h.definitions hd

theorem find?_rel (h : Changed R g g') (id : String) :
    Option.Rel (fun d d' => d'.id = d.id ∧ R d d') (g.find? id) (g'.find? id) :=
  forall₂_find? h.definitions fun d d' hd => by rw [hd.1]

theorem find?_new (h : Changed R g g') (hd : g.find? id = some d) :
    ∃ d', g'.find? id = some d' ∧ R d d' := by
  have found := h.find?_rel id
  rw [hd] at found
  cases hf : g'.find? id with
  | none => rw [hf] at found; cases found
  | some d' =>
    rw [hf] at found
    cases found with
    | some hR => exact ⟨d', rfl, hR.2⟩

theorem find?_old (h : Changed R g g') (hd : g'.find? id = some d') :
    ∃ d, g.find? id = some d ∧ R d d' := by
  have found := h.find?_rel id
  rw [hd] at found
  cases hf : g.find? id with
  | none => rw [hf] at found; cases found
  | some d =>
    rw [hf] at found
    cases found with
    | some hR => exact ⟨d, rfl, hR.2⟩

theorem refl (h : ∀ d, R d d) : Changed R g g :=
  ⟨rfl, List.forall₂_same.2 fun d _ => ⟨rfl, h d⟩⟩

theorem mono (h : Changed R g g') (imp : ∀ d d', d'.id = d.id → R d d' → S d d') :
    Changed S g g' :=
  ⟨h.frame, h.definitions.imp fun d d' hd => ⟨hd.1, imp d d' hd.1 hd.2⟩⟩

theorem trans (h : Changed R g g') (h' : Changed R g' g'')
    (comp : ∀ d d' d'', R d d' → R d' d'' → R d d'') : Changed R g g'' where
  frame := by rw [h'.frame, h.frame]
  definitions := (forall₂_comp h.definitions h'.definitions).imp fun _ _ ⟨_, hd, hd'⟩ =>
    ⟨hd'.1.trans hd.1, comp _ _ _ hd.2 hd'.2⟩

/-- Changes that leave no choice for any definition lead to one graph. -/
theorem unique (h : Changed R g g') (h' : Changed S g g'')
    (one : ∀ d ∈ g.definitions, ∀ e e', R d e → S d e' → e = e') : g' = g'' := by
  suffices same : g'.definitions = g''.definitions by rw [h.frame, h'.frame, same]
  rw [← List.forall₂_eq_eq_eq]
  have h₁ := forall₂_imp_mem h.definitions fun d hd e he => And.intro hd he.2
  refine (forall₂_comp h₁.flip h'.definitions).imp ?_
  rintro e e' ⟨d, ⟨hd, he⟩, -, he'⟩
  exact one d hd e e' he he'

end Changed

/-- What is left of the definitions of a graph is as visible as it was. -/
def Visible (g g' : Graph) : Prop :=
  ∀ d' ∈ g'.definitions, ∃ d ∈ g.definitions, d'.id = d.id ∧ d'.isPublic = d.isPublic

theorem Visible.trans {g'' : Graph} (h : Visible g g') (h' : Visible g' g'') : Visible g g'' :=
  fun d'' hd'' => by
    obtain ⟨d', hd', ids', same'⟩ := h' d'' hd''
    obtain ⟨d, hd, ids, same⟩ := h d' hd'
    exact ⟨d, hd, ids'.trans ids, same'.trans same⟩

theorem Changed.visible {R : Definition → Definition → Prop} (h : Changed R g g')
    (imp : ∀ d d', R d d' → d'.isPublic = d.isPublic) : Visible g g' := fun d' hd' => by
  obtain ⟨d, hd, ids, hR⟩ := h.exists_old hd'
  exact ⟨d, hd, ids, imp d d' hR⟩

/-- Where no definition is embedded, one is updated where it stands. -/
theorem update_eq (alone : g.twins = []) (change : Definition → Definition) :
    g.update id change =
      { g with definitions := g.definitions.map fun d => if d.id == id then change d else d } := by
  simp [update, alone]

theorem changed_update {R : Definition → Definition → Prop} (alone : g.twins = [])
    {change : Definition → Definition} (refl : ∀ d, R d d)
    (changed : ∀ d ∈ g.definitions, d.id = id → (change d).id = id ∧ R d (change d)) :
    Changed R g (g.update id change) := by
  rw [update_eq alone]
  refine ⟨rfl, ?_⟩
  rw [List.forall₂_map_right_iff]
  refine List.forall₂_same.2 fun d hd => ?_
  by_cases e : d.id = id
  · simpa [e] using changed d hd e
  · simpa [e] using refl d

/-- An update that keeps the identifier changes nothing but what is found for it. -/
theorem find?_update (alone : g.twins = []) (id : String) (change : Definition → Definition)
    (same : ∀ d, d.id = id → (change d).id = id) (other : String) :
    (g.update id change).find? other =
      (g.find? other).map fun d => if d.id == id then change d else d := by
  rw [update_eq alone]
  unfold find?
  rw [List.find?_map]
  congr 2
  funext d
  by_cases e : d.id = id
  · simp [e, same d e]
  · simp [e]

/-! ## Revision -/

theorem isShared_eq_false_iff :
    g.isShared = false ↔ g.twins = [] ∧ (g.embedded.map (·.1)).Nodup := by
  simp [isShared]

/-- `g'` is `g` with the arguments of its definitions replaced, `R` between them place by place. -/
abbrev Revised (R : Definition → Argument → Argument → Prop) (g g' : Graph) : Prop :=
  Changed (fun d d' => Recipe.Revised (R d) d d') g g'

theorem Revised.mono_mem {R S : Definition → Argument → Argument → Prop} (h : Revised R g g')
    (imp : ∀ d ∈ g.definitions, ∀ a ∈ d.allArguments, ∀ b, R d a b → S d a b) : Revised S g g' :=
  ⟨h.frame, forall₂_imp_mem h.definitions fun d hd _ hR => ⟨hR.1, hR.2.mono_mem (imp d hd)⟩⟩

/-- Where nothing is shared, a graph is revised if each definition is, each by its own rule. -/
theorem reviseAll_ok (alone : g.isShared = false) {rule : Definition → Rule} :
    g.reviseAll rule = (none, g') ↔
      Revised (fun d a b => Argument.revise (rule d) d.id a = .ok b) g g' := by
  unfold reviseAll
  simp only [alone, Bool.false_eq_true, if_false]
  constructor
  · intro h
    split at h
    next ds hds =>
      obtain ⟨-, rfl⟩ := Prod.mk.inj h
      refine ⟨rfl, (mapM_eq_ok.1 hds).imp fun _ _ hd => ?_⟩
      have := Definition.revise_eq_ok.1 hd
      exact ⟨this.id_eq, this⟩
    next => simp at h
  · intro h
    have hds : g.definitions.mapM (fun d => Definition.revise (rule d) d) = .ok g'.definitions :=
      mapM_eq_ok.2 (h.definitions.imp fun _ _ hd => Definition.revise_eq_ok.2 hd.2)
    rw [hds, h.frame]

/-- All arguments are of the kinds that compilation leaves, at every depth. -/
def Settled (g : Graph) : Prop := ∀ d ∈ g.definitions, Definition.Settled d

theorem Settled.plain (h : g.Settled) : g.Plain := fun d hd => (h d hd).plain

/-- Where nothing is shared and all arguments are settled, rules that leave references and literals
as they are leave the graph so. -/
theorem reviseAll_of_settled (alone : g.isShared = false) (settled : g.Settled)
    {rule : Definition → Rule}
    (refs : ∀ d ∈ g.definitions, ∀ r ∈ Definition.references d,
      rule d (.reference r) = .ok (.reference r))
    (literals : ∀ d ∈ g.definitions, ∀ v, rule d (.literal v) = .ok (.literal v)) :
    g.reviseAll rule = (none, g) :=
  (reviseAll_ok alone).2 ⟨rfl, List.forall₂_same.2 fun d hd => ⟨rfl, Definition.revise_eq_ok.1
    (Definition.revise_of_settled (settled d hd) (refs d hd) (literals d hd))⟩⟩

end Wiring.Graph
