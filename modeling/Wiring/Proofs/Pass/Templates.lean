import Wiring.Pass.Templates
import Wiring.Proofs.Graph.Registered

/-!
# What expanding templates keeps

A definition takes over arguments and tags from its parents. So what holds of all arguments before
holds of all arguments afterwards, and the same goes for tags. Graphs without parents stay as they
are.
-/

namespace Wiring

namespace Recipe

variable {α : Type} {parent child : Recipe α}

theorem mem_inherit {a : α} (h : a ∈ (inherit parent child).allArguments) :
    a ∈ parent.allArguments ∨ a ∈ child.allArguments := by
  simp only [allArguments, List.mem_append, List.mem_map] at h ⊢
  rcases h with h | ⟨k, hk, rfl⟩
  · rcases List.mem_append.1 h with h | h
    · exact .inr (.inl h)
    · exact .inl (.inl (List.mem_of_mem_drop h))
  · rcases Table.mem_merge hk with hk | hk
    · exact .inl (.inr ⟨k, hk, rfl⟩)
    · exact .inr (.inr ⟨k, hk, rfl⟩)

theorem mem_inherit_tags {l : Label} (h : l ∈ (inherit parent child).tags) :
    l ∈ parent.tags ∨ l ∈ child.tags :=
  (List.mem_append.1 h).imp_left fun h => (List.mem_filter.1 h).1

end Recipe

namespace Pass

open Graph

variable {Q : Definition → Prop} {g₀ g g' : Graph}

/-- The parent can be merged into the child: all tags have names, and all capabilities are fit to be
keys. -/
structure Mergeable (parent child : Definition) : Prop where
  named : (child.tags ++ parent.tags).forM (fun l => discard l.name) =
    (.ok () : Except Failure Unit)
  hashable : (parent.capabilities ++ child.capabilities).findSome? Value.unhashable? = none

theorem mergeParent_gives {parentId : String} {parent child : Definition}
    (run : Build.Gives (mergeParent parentId parent child) g () g') :
    Mergeable parent child ∧ g' = g.update child.id fun d => Recipe.inherit parent d := by
  obtain ⟨_, _, hc, run⟩ := Build.gives_bind run
  obtain ⟨named, rfl⟩ := Build.gives_check.1 hc
  cases hu : (parent.capabilities ++ child.capabilities).findSome? Value.unhashable? with
  | some =>
    simp only [hu] at run
    obtain ⟨_, _, -, run⟩ := Build.gives_bind run
    exact absurd run Build.gives_throw
  | none =>
    simp only [hu] at run
    obtain ⟨_, _, hc, run⟩ := Build.gives_bind run
    obtain rfl := Build.gives_change.1 hc
    exact ⟨⟨named, hu⟩, (Build.gives_note.1 run).symm⟩

theorem mergeParent_does {parentId : String} {parent child : Definition}
    (h : Mergeable parent child) : Build.Does (mergeParent parentId parent child) g ()
      (g.update child.id fun d => Recipe.inherit parent d) := by
  refine .bind (.check h.named) ?_
  rw [h.hashable]
  exact .bind (.change rfl) (.note _)

/-- What holds of a parent and of a child holds of the child with what it takes over. -/
def Inherited (Q : Definition → Prop) : Prop :=
  ∀ parent child, Q parent → Q child → Q (Recipe.inherit parent child)

/-- All arguments of the definition have the property, and its labels are tags. -/
def Written (P : Argument → Prop) (d : Definition) : Prop :=
  (∀ a ∈ d.allArguments, P a) ∧ ∀ l ∈ d.tags, l.IsTag

theorem inherited_written {P : Argument → Prop} : Inherited (Written P) :=
  fun _ _ hp hc => ⟨fun a ha => (Recipe.mem_inherit ha).elim (hp.1 a) (hc.1 a),
    fun l hl => (Recipe.mem_inherit_tags hl).elim (hp.2 l) (hc.2 l)⟩

/-- What expansion keeps: the place and visibility of each definition, and what is inherited. -/
structure Expanding (Q : Definition → Prop) (g₀ g : Graph) : Prop where
  place : Changed (fun d d' => d'.isPublic = d.isPublic) g₀ g
  each : ∀ d ∈ g.definitions, Q d

theorem Expanding.tidy (h : Expanding Q g₀ g) (tidy : g₀.Tidy)
    (labels : ∀ d, Q d → ∀ l ∈ d.tags, l.IsTag) : g.Tidy where
  unique := h.place.ids_eq ▸ tidy.unique
  uniqueAliases := by
    rw [aliasIds, h.place.aliases_eq]
    exact tidy.uniqueAliases
  apart := by
    rw [aliasIds, h.place.aliases_eq, h.place.ids_eq]
    exact tidy.apart
  labels d hd := labels d (h.each d hd)
  alone := h.place.twins_eq.trans tidy.alone

theorem Expanding.merge (alone : g₀.twins = []) (inherited : Inherited Q) (h : Expanding Q g₀ g)
    {parent child : Definition} (hp : Q parent) :
    Expanding Q g₀ (g.update child.id fun d => Recipe.inherit parent d) := by
  have alone : g.twins = [] := h.place.twins_eq.trans alone
  refine ⟨h.place.trans (changed_update alone (fun _ => rfl) fun d _ e => ⟨e, rfl⟩)
    fun _ _ _ same same' => same'.trans same, fun d' hd' => ?_⟩
  rw [update_eq alone] at hd'
  obtain ⟨d, hd, rfl⟩ := List.mem_map.1 hd'
  by_cases e : d.id = child.id
  · simpa [e] using inherited parent d hp (h.each d hd)
  · simpa [e] using h.each d hd

section Steps

variable {α β : Type} {ended ended' : List String}

theorem expansion_bind {x : Expansion α} {f : α → Expansion β} {b : β}
    (h : Build.Gives ((x >>= f).run ended) g (b, ended') g') :
    ∃ a mid g₁, Build.Gives (x.run ended) g (a, mid) g₁ ∧
      Build.Gives ((f a).run mid) g₁ (b, ended') g' := by
  rw [StateT.run_bind] at h
  obtain ⟨⟨a, mid⟩, g₁, hx, hf⟩ := Build.gives_bind h
  exact ⟨a, mid, g₁, hx, hf⟩

theorem expansion_lift {job : Build α} {a : α}
    (h : Build.Gives ((liftM job : Expansion α).run ended) g (a, ended') g') :
    Build.Gives job g a g' ∧ ended' = ended := by
  obtain ⟨b, g₁, hx, hf⟩ := Build.gives_bind h
  obtain ⟨e, rfl⟩ := Build.gives_pure.1 hf
  obtain ⟨rfl, rfl⟩ := Prod.mk.inj e
  exact ⟨hx, rfl⟩

theorem expansion_does {job : Build α} {a : α} (h : Build.Does job g a g') :
    Build.Does ((liftM job : Expansion α).run ended) g (a, ended) g' :=
  show Build.Does (job >>= fun a => pure (a, ended)) g (a, ended) g' from h.bind (.pure _)

theorem expansion_throw {e : Failure} {out : α × List String} :
    ¬ Build.Gives ((throw e : Expansion α).run ended) g out g' := fun h => by
  have h : Build.Gives ((throw e : Build α) >>= fun a => pure (a, ended)) g out g' := h
  obtain ⟨_, _, hx, _⟩ := Build.gives_bind h
  exact Build.gives_throw hx

end Steps

section Step

variable {above : List String → Definition → Expansion Unit} {chain ended ended' : List String}
  {d : Definition}

/-- All that the expansion of a definition can do when it succeeds: the definition extends nothing,
or is expanded already, or its parent is expanded and merged into it. -/
theorem expandAfter_cases
    (run : Build.Gives ((expandAfter above chain d).run ended) g ((), ended') g') :
    (d.parent = none ∧ ended' = d.id :: ended ∧ g' = g) ∨
    (d.id ∈ ended ∧ ended' = ended ∧ g' = g) ∨
    ∃ parentName parentId parent mid g₁, d.parent = some parentName ∧ d.id ∉ ended ∧
      d.id ∉ chain ∧ g.resolveAlias parentName = .ok parentId ∧ g.find? parentId = some parent ∧
      Build.Gives ((above (chain ++ [d.id]) parent).run ended) g ((), mid) g₁ ∧
      Mergeable ((g₁.find? parentId).getD parent) d ∧ ended' = d.id :: mid ∧
      g' = g₁.update d.id fun d => Recipe.inherit ((g₁.find? parentId).getD parent) d := by
  unfold expandAfter at run
  cases hp : d.parent with
  | none =>
    simp only [hp] at run
    obtain ⟨out, rfl⟩ := Build.gives_pure.1 run
    exact .inl ⟨rfl, (Prod.mk.inj out).2.symm, rfl⟩
  | some parentName =>
    simp only [hp] at run
    obtain ⟨_, _, _, hget, run⟩ := expansion_bind run
    obtain ⟨out, rfl⟩ := Build.gives_pure.1 hget
    obtain ⟨rfl, rfl⟩ := Prod.mk.inj out
    split at run
    next done =>
      obtain ⟨out, rfl⟩ := Build.gives_pure.1 run
      exact .inr (.inl ⟨by simpa using done, (Prod.mk.inj out).2.symm, rfl⟩)
    next new =>
    split at run
    · obtain ⟨_, _, _, hthrow, -⟩ := expansion_bind run
      exact absurd hthrow expansion_throw
    next apart =>
    obtain ⟨_, _, _, hg, run⟩ := expansion_bind run
    obtain ⟨hg', rfl⟩ := expansion_lift hg
    obtain ⟨rfl, rfl⟩ := Build.gives_graph.1 hg'
    obtain ⟨parentId, _, _, hc, run⟩ := expansion_bind run
    obtain ⟨hc', rfl⟩ := expansion_lift hc
    obtain ⟨leads, rfl⟩ := Build.gives_check.1 hc'
    cases hf : g.find? parentId with
    | none =>
      simp only [hf] at run
      exact absurd run expansion_throw
    | some parent =>
      simp only [hf] at run
      obtain ⟨_, mid, g₁, ha, run⟩ := expansion_bind run
      obtain ⟨_, _, _, hg, run⟩ := expansion_bind run
      obtain ⟨hg', rfl⟩ := expansion_lift hg
      obtain ⟨rfl, rfl⟩ := Build.gives_graph.1 hg'
      obtain ⟨_, _, g₂, hm, run⟩ := expansion_bind run
      obtain ⟨hm', rfl⟩ := expansion_lift hm
      obtain ⟨mergeable, rfl⟩ := mergeParent_gives hm'
      obtain ⟨out, rfl⟩ := Build.gives_pure.1 run
      exact .inr (.inr ⟨parentName, parentId, parent, _, _, rfl, by simpa using new,
        by simpa using apart, leads, hf, ha, mergeable, (Prod.mk.inj out).2.symm, rfl⟩)

theorem Expanding.after (alone : g₀.twins = []) (inherited : Inherited Q)
    (step : ∀ chain d ended ended' g g', Expanding Q g₀ g →
      Build.Gives ((above chain d).run ended) g ((), ended') g' → Expanding Q g₀ g')
    (h : Expanding Q g₀ g)
    (run : Build.Gives ((expandAfter above chain d).run ended) g ((), ended') g') :
    Expanding Q g₀ g' := by
  obtain ⟨-, -, rfl⟩ | ⟨-, -, rfl⟩ | ⟨_, parentId, parent, _, g₁, -, -, -, -, hf, run, -, -, merged⟩ :=
    expandAfter_cases run
  · exact h
  · exact h
  · have h₁ := step _ _ _ _ _ _ h run
    have found : Q ((g₁.find? parentId).getD parent) := by
      cases h₁f : g₁.find? parentId with
      | none => exact h.each _ (mem_of_find? hf).1
      | some p => exact h₁.each _ (mem_of_find? h₁f).1
    exact merged ▸ h₁.merge alone inherited found

end Step

theorem Expanding.from (alone : g₀.twins = []) (inherited : Inherited Q) {depth : Nat}
    {chain ended ended' : List String} {d : Definition} (h : Expanding Q g₀ g)
    (run : Build.Gives ((expandFrom depth chain d).run ended) g ((), ended') g') :
    Expanding Q g₀ g' := by
  induction depth generalizing chain ended ended' d g g' with
  | zero =>
    exact h.after alone inherited (fun _ _ _ _ _ _ _ hthrow => absurd hthrow expansion_throw) run
  | succ depth ih => exact h.after alone inherited (fun _ _ _ _ _ _ h run => ih h run) run

theorem Expanding.single (alone : g₀.twins = []) (inherited : Inherited Q) {depth : Nat}
    {id : String} {ended ended' : List String} (h : Expanding Q g₀ g)
    (run : Build.Gives ((expand depth id).run ended) g ((), ended') g') : Expanding Q g₀ g' := by
  obtain ⟨_, _, _, hg, run⟩ := expansion_bind run
  obtain ⟨rfl, rfl⟩ := Build.gives_graph.1 (expansion_lift hg).1
  cases hf : g.find? id with
  | none =>
    simp only [hf] at run
    exact (Build.gives_pure.1 run).2 ▸ h
  | some d =>
    simp only [hf] at run
    exact h.from alone inherited run

/-- The pass keeps the place of each definition, and what is inherited. -/
theorem expandTemplates_spec (alone : g.twins = []) (inherited : Inherited Q)
    (each : ∀ d ∈ g.definitions, Q d) {u : Unit} (h : Build.Gives expandTemplates g u g') :
    Expanding Q g g' := by
  have start : Expanding Q g g := ⟨.refl fun _ => rfl, each⟩
  obtain ⟨_, _, hg, run⟩ := Build.gives_bind h
  obtain ⟨rfl, rfl⟩ := Build.gives_graph.1 hg
  obtain ⟨⟨_, _⟩, run⟩ := Build.gives_discard.1 run
  have all (depth : Nat) (ids : List String) : ∀ ended ended' g₁, Expanding Q g g₁ →
      Build.Gives ((ids.forM (expand depth)).run ended) g₁ ((), ended') g' → Expanding Q g g' := by
    induction ids with
    | nil => exact fun _ _ _ h run => (Build.gives_pure.1 run).2 ▸ h
    | cons id ids ih =>
      intro ended ended' g₁ h run
      rw [forM_cons] at run
      obtain ⟨_, mid, g₂, hx, run⟩ := expansion_bind run
      exact ih mid ended' g₂ (h.single alone inherited hx) run
  exact all _ _ _ _ g start run

/-- A graph in which no definition extends another stays as it is. -/
theorem expandTemplates_does (done : ∀ d ∈ g.definitions, d.parent = none) :
    Build.Does expandTemplates g () g := by
  have single (depth id ended) :
      ∃ ended', Build.Does ((expand depth id).run ended) g ((), ended') g := by
    unfold expand
    rw [StateT.run_bind]
    cases hf : g.find? id with
    | none => exact ⟨ended, (expansion_does .graph).bind (by simp only [hf]; exact .pure _)⟩
    | some d =>
      refine ⟨d.id :: ended, (expansion_does .graph).bind ?_⟩
      have hp := done d (mem_of_find? hf).1
      simp only [hf]
      cases depth <;> (unfold expandFrom expandAfter; simp only [hp]; exact .pure _)
  have all (depth : Nat) (ids : List String) : ∀ ended,
      ∃ ended', Build.Does ((ids.forM (expand depth)).run ended) g ((), ended') g := by
    induction ids with
    | nil => exact fun ended => ⟨ended, .pure _⟩
    | cons id ids ih =>
      intro ended
      obtain ⟨mid, h₁⟩ := single depth id ended
      obtain ⟨ended', h₂⟩ := ih mid
      exact ⟨ended', by rw [forM_cons, StateT.run_bind]; exact h₁.bind h₂⟩
  obtain ⟨ended, h⟩ := all g.definitions.length g.ids []
  exact .bind .graph (.discard h)

end Pass

end Wiring
