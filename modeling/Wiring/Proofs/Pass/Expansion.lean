import Wiring.Proofs.Graph.Shuffled
import Wiring.Proofs.Graph.Validation
import Wiring.Proofs.Pass.Failing
import Wiring.Proofs.Ranks
import Wiring.Proofs.Tag.Autoconfiguration

/-!
# What templates expand to

`Expands` says what a definition expands to, without a bound on how many parents it has above it. The
pass makes that of each definition, whatever the order in which they are taken up, and it fails only
where a definition expands to nothing. What that is can be read off the line of its parents: a field
of the first one in the line that sets it, and their tags, each once.
-/

namespace Wiring.Pass

open Graph

variable {g g' g₁ g₂ : Graph} {d e e' p : Definition} {n m : Nat}

/-- `e` is what `d` expands to, with `n` parents above it. -/
inductive Expands (g : Graph) : (n : Nat) → (d e : Definition) → Prop
  | root {d : Definition} : d.parent = none → Expands g 0 d d
  | child {n : Nat} {d p e : Definition} {name parentId : String} :
    d.parent = some name → g.resolveAlias name = .ok parentId → g.find? parentId = some p →
      Expands g n p e → Mergeable e d → Expands g (n + 1) d (Recipe.inherit e d)

namespace Expands

theorem unique (h : Expands g n d e) (h' : Expands g m d e') : n = m ∧ e = e' := by
  induction h generalizing m e' with
  | root none =>
    cases h' with
    | root => exact ⟨rfl, rfl⟩
    | child some => simp [none] at some
  | child some leads found _ _ ih =>
    cases h' with
    | root none => simp [none] at some
    | child some' leads' found' h' _ =>
      obtain rfl := Option.some.inj (some.symm.trans some')
      obtain rfl := Except.ok.inj (leads.symm.trans leads')
      obtain rfl := Option.some.inj (found.symm.trans found')
      obtain ⟨rfl, rfl⟩ := ih h'
      exact ⟨rfl, rfl⟩

theorem parentless (h : Expands g n d e) : e.parent = none := by
  cases h with
  | root none => exact none
  | child => rfl

/-- Graphs in which the same is found expand alike. -/
theorem congr (h : Expands g n d e) (leads : g'.resolveAlias = g.resolveAlias)
    (found : g'.find? = g.find?) : Expands g' n d e := by
  induction h with
  | root none => exact .root none
  | child some hl hf _ mergeable ih =>
    exact .child some (by rw [leads, hl]) (by rw [found, hf]) ih mergeable

/-- A tag is one of the definition itself or of a parent. -/
theorem exists_tag (h : Expands g n d e) (hd : d ∈ g.definitions) {l : Label} (hl : l ∈ e.tags) :
    ∃ d' ∈ g.definitions, l ∈ d'.tags := by
  induction h with
  | root => exact ⟨_, hd, hl⟩
  | child _ _ found _ _ ih =>
    rcases Recipe.mem_inherit_tags hl with hl | hl
    · exact ih (mem_of_find? found).1 hl
    · exact ⟨_, hd, hl⟩

/-- The parents above a definition are different definitions. -/
theorem exists_line (h : Expands g n d e) (hd : g.find? d.id = some d) :
    ∃ line : List String, line.length = n + 1 ∧ line.Nodup ∧
      ∀ x ∈ line, ∃ d' m e', g.find? x = some d' ∧ Expands g m d' e' ∧ m ≤ n := by
  induction h with
  | @root d none =>
    refine ⟨[d.id], rfl, by simp, fun x hx => ?_⟩
    exact List.mem_singleton.1 hx ▸ ⟨d, 0, d, hd, .root none, le_rfl⟩
  | @child n d p e name parentId extends' leads found parent mergeable ih =>
    have hp : g.find? p.id = some p := (mem_of_find? found).2 ▸ found
    obtain ⟨line, length, nodup, inside⟩ := ih hp
    have h : Expands g (n + 1) d (Recipe.inherit e d) :=
      .child extends' leads found parent mergeable
    refine ⟨d.id :: line, by simp [length], List.nodup_cons.2 ⟨fun hx => ?_, nodup⟩, fun x hx => ?_⟩
    · obtain ⟨d', m, e', hd', h', below⟩ := inside _ hx
      obtain rfl := Option.some.inj (hd.symm.trans hd')
      have := (h.unique h').1
      omega
    · rcases List.mem_cons.1 hx with rfl | hx
      · exact ⟨d, n + 1, _, hd, h, le_rfl⟩
      · obtain ⟨d', m, e', hd', h', below⟩ := inside x hx
        exact ⟨d', m, e', hd', h', below.trans (Nat.le_succ n)⟩

theorem lt_length (h : Expands g n d e) (hd : g.find? d.id = some d) :
    n < g.definitions.length := by
  obtain ⟨line, length, nodup, inside⟩ := h.exists_line hd
  have inside : line ⊆ g.ids := fun x hx => by
    obtain ⟨d', -, -, hd', -⟩ := inside x hx
    exact mem_ids.2 ⟨d', mem_of_find? hd'⟩
  have := (List.subperm_of_subset nodup inside).length_le
  rw [length, ids, List.length_map] at this
  omega

end Expands

/-! ## Under way -/

/-- The definitions of `ended` are expanded, all others are as they were. -/
abbrev Expanded (g : Graph) (ended : List String) (g₁ : Graph) : Prop :=
  Changed (fun d e => (d.id ∈ ended → ∃ n, Expands g n d e) ∧ (d.id ∉ ended → e = d)) g g₁

/-- The definitions of `chain` extend parents and are not expanded yet. -/
def Waiting (g : Graph) (chain ended : List String) : Prop :=
  ∀ x ∈ chain, x ∉ ended ∧ ∀ d, g.find? x = some d → d.parent ≠ none

theorem Waiting.nil {g : Graph} (ended : List String) : Waiting g [] ended := by
  simp [Waiting]

/-- More is expanded, but nothing of `chain`. -/
structure Descends (g : Graph) (chain ended ended' : List String) (g' : Graph) : Prop where
  expanded : Expanded g ended' g'
  more : ∀ x ∈ ended, x ∈ ended'
  waiting : ∀ x ∈ chain, x ∉ ended'

section Steps

variable {ended ended' chain : List String} {above : List String → Definition → Expansion Unit}

theorem Expanded.start (g : Graph) : Expanded g [] g :=
  ⟨rfl, List.forall₂_same.2 fun _ _ => ⟨rfl, by simp, by simp⟩⟩

/-- What is found is expanded, or as it was. -/
theorem Expanded.found (inv : Expanded g ended g₁) (found : g₁.find? d.id = some d) :
    ∃ d₀, g.find? d.id = some d₀ ∧ (d.id ∈ ended → ∃ n, Expands g n d₀ d) ∧
      (d.id ∉ ended → d = d₀) := by
  obtain ⟨d₀, hd₀, expands, same⟩ := inv.find?_old found
  have hid := (mem_of_find? hd₀).2
  exact ⟨d₀, hd₀, fun h => expands (hid.symm ▸ h), fun h => same (hid.symm ▸ h)⟩

theorem Expanded.mark (inv : Expanded g ended g₁) (unique : g.ids.Nodup)
    (found : g₁.find? d.id = some d) (parentless : d.parent = none) :
    Expanded g (d.id :: ended) g₁ := by
  obtain ⟨d₀, hd₀, expands, same⟩ := inv.found found
  refine ⟨inv.frame, forall₂_imp_mem inv.definitions fun x hx e ⟨ids, he, hs⟩ => ⟨ids, fun hid => ?_,
    fun hid => hs fun h => hid (List.mem_cons_of_mem _ h)⟩⟩
  by_cases old : x.id ∈ ended
  · exact he old
  · have hid := (List.mem_cons.1 hid).resolve_right old
    obtain rfl := same (hid ▸ old)
    obtain rfl := eq_of_id_eq unique hx (mem_of_find? hd₀).1 hid
    exact ⟨0, by rw [hs old]; exact .root parentless⟩

theorem Expanded.merge (inv : Expanded g ended g₁) (tidy : g.Tidy) (hd : d ∈ g.definitions)
    (new : d.id ∉ ended) (h : Expands g n d (Recipe.inherit e d)) :
    Expanded g (d.id :: ended) (g₁.update d.id fun d => Recipe.inherit e d) := by
  rw [update_eq (inv.twins_eq.trans tidy.alone)]
  refine ⟨by rw [inv.frame], ?_⟩
  rw [List.forall₂_map_right_iff]
  refine forall₂_imp_mem inv.definitions fun x hx x' ⟨ids, expands, same⟩ => ?_
  by_cases hid : x.id = d.id
  · obtain rfl := eq_of_id_eq tidy.unique hx hd hid
    obtain rfl := same new
    rw [if_pos (beq_self_eq_true _)]
    exact ⟨rfl, fun _ => ⟨n, h⟩, fun gone => absurd List.mem_cons_self gone⟩
  · simpa [ids, hid] using And.intro expands same

theorem expandAfter_sound (tidy : g.Tidy)
    (step : ∀ chain d ended ended' g₁ g₂, Expanded g ended g₁ → Waiting g chain ended →
      g₁.find? d.id = some d → Build.Gives ((above chain d).run ended) g₁ ((), ended') g₂ →
      Descends g chain ended ended' g₂ ∧ d.id ∈ ended')
    (inv : Expanded g ended g₁) (waiting : Waiting g chain ended) (found : g₁.find? d.id = some d)
    (run : Build.Gives ((expandAfter above chain d).run ended) g₁ ((), ended') g₂) :
    Descends g chain ended ended' g₂ ∧ d.id ∈ ended' := by
  obtain ⟨d₀, hd₀, -, same⟩ := inv.found found
  obtain ⟨parentless, rfl, rfl⟩ | ⟨done, rfl, rfl⟩ | ⟨parentName, parentId, parent, mid, g₃, extends',
    new, apart, leads, hf, inner, mergeable, rfl, rfl⟩ := expandAfter_cases run
  · refine ⟨⟨inv.mark tidy.unique found parentless, fun _ => List.mem_cons_of_mem _, fun x hx h => ?_⟩,
      List.mem_cons_self⟩
    refine (List.mem_cons.1 h).elim (fun e => ?_) (waiting x hx).1
    obtain rfl := same (e ▸ (waiting x hx).1)
    exact (waiting x hx).2 d (e ▸ hd₀) parentless
  · exact ⟨⟨inv, fun _ h => h, fun x hx => (waiting x hx).1⟩, done⟩
  · obtain rfl := same new
    have waiting' : Waiting g (chain ++ [d.id]) ended := fun x hx => by
      rcases List.mem_append.1 hx with hx | hx
      · exact waiting x hx
      · obtain rfl := List.mem_singleton.1 hx
        refine ⟨new, fun d' hd' => ?_⟩
        obtain rfl := Option.some.inj (hd₀.symm.trans hd')
        simp [extends']
    have hid := (mem_of_find? hf).2
    obtain ⟨⟨inv', more, still⟩, ended⟩ := step _ _ _ _ _ _ inv waiting' (hid ▸ hf) inner
    obtain ⟨p, hp, -⟩ := inv.find?_old hf
    obtain ⟨e, he, expands, -⟩ := inv'.find?_new hp
    rw [he, Option.getD_some] at mergeable ⊢
    obtain ⟨n, expands⟩ := expands ((mem_of_find? hp).2 ▸ hid ▸ ended)
    rw [inv.resolveAlias_eq] at leads
    refine ⟨⟨?_, fun x hx => List.mem_cons_of_mem _ (more x hx), fun x hx h => ?_⟩,
      List.mem_cons_self⟩
    · exact inv'.merge tidy (mem_of_find? hd₀).1 (still _ (by simp))
        (.child extends' leads hp expands mergeable)
    · refine (List.mem_cons.1 h).elim (fun e => apart (e ▸ hx)) ?_
      exact still x (List.mem_append_left _ hx)

theorem expandFrom_sound (tidy : g.Tidy) {depth : Nat} (inv : Expanded g ended g₁)
    (waiting : Waiting g chain ended) (found : g₁.find? d.id = some d)
    (run : Build.Gives ((expandFrom depth chain d).run ended) g₁ ((), ended') g₂) :
    Descends g chain ended ended' g₂ ∧ d.id ∈ ended' := by
  induction depth generalizing chain ended ended' d g₁ g₂ with
  | zero =>
    exact expandAfter_sound tidy (fun _ _ _ _ _ _ _ _ _ run => absurd run expansion_throw) inv waiting
      found run
  | succ depth ih =>
    exact expandAfter_sound tidy (fun _ _ _ _ _ _ inv waiting found run => ih inv waiting found run)
      inv waiting found run

/-! ## What can be expanded is -/

/-- A definition without a parent is done. -/
theorem expandAfter_parentless (none : d.parent = none) :
    Build.Does ((expandAfter above chain d).run ended) g ((), d.id :: ended) g := by
  unfold expandAfter
  simp only [none]
  exact .pure _

/-- Once its parent is expanded, a definition can be merged with it. -/
theorem expandAfter_merges {parentName parentId : String} {mid : List String}
    (extends' : d.parent = some parentName) (new : d.id ∉ ended) (apart : d.id ∉ chain)
    (leads : g.resolveAlias parentName = .ok parentId) (found : g.find? parentId = some p)
    (run : Build.Does ((above (chain ++ [d.id]) p).run ended) g ((), mid) g₁)
    (found' : g₁.find? parentId = some e) (mergeable : Mergeable e d) :
    Build.Does ((expandAfter above chain d).run ended) g ((), d.id :: mid)
      (g₁.update d.id fun d => Recipe.inherit e d) := by
  unfold expandAfter
  simp only [extends']
  rw [StateT.run_bind]
  refine .bind (.pure (ended, ended)) ?_
  dsimp only
  rw [if_neg (by simpa using new), if_neg (by simpa using apart), StateT.run_bind]
  refine (expansion_does .graph).bind ?_
  dsimp only
  rw [StateT.run_bind]
  refine (expansion_does (.check leads)).bind ?_
  simp only [found]
  rw [StateT.run_bind]
  refine run.bind ?_
  dsimp only
  rw [StateT.run_bind]
  refine (expansion_does .graph).bind ?_
  simp only [found', Option.getD_some]
  rw [StateT.run_bind]
  exact (expansion_does (mergeParent_does mergeable)).bind (.pure _)

/-- What is found has no parent any more, or is as it was. -/
theorem Expanded.parentless_or {d₀ : Definition} (inv : Expanded g ended g₁)
    (hd₀ : g.find? d₀.id = some d₀) (found : g₁.find? d₀.id = some d) :
    d.parent = none ∨ d₀.id ∉ ended ∧ d = d₀ := by
  have hid := (mem_of_find? found).2
  obtain ⟨d₁, hd₁, done, same⟩ := inv.found (hid.symm ▸ found)
  rw [hid, hd₀] at hd₁
  obtain rfl := Option.some.inj hd₁
  by_cases h : d.id ∈ ended
  · obtain ⟨n, expands⟩ := done h
    exact .inl expands.parentless
  · exact .inr ⟨hid ▸ h, same h⟩

theorem expandFrom_does (tidy : g.Tidy) {depth : Nat} {d₀ : Definition} (expands : Expands g n d₀ e)
    (enough : n ≤ depth) (hd₀ : g.find? d₀.id = some d₀)
    (below : ∀ x ∈ chain, ∀ d m e, g.find? x = some d → Expands g m d e → n < m)
    (inv : Expanded g ended g₁) (waiting : Waiting g chain ended)
    (found : g₁.find? d₀.id = some d) :
    ∃ ended' g₂, Build.Does ((expandFrom depth chain d).run ended) g₁ ((), ended') g₂ := by
  induction expands generalizing depth chain ended g₁ d with
  | root parentless =>
    have none : d.parent = none := (inv.parentless_or hd₀ found).elim id fun h => h.2 ▸ parentless
    exact ⟨_, _, by cases depth <;> exact expandAfter_parentless none⟩
  | @child n d₀ p e parentName parentId extends' leads hp parent mergeable ih =>
    obtain none | ⟨new, rfl⟩ := inv.parentless_or hd₀ found
    · exact ⟨_, _, by cases depth <;> exact expandAfter_parentless none⟩
    obtain ⟨depth, rfl⟩ : ∃ k, depth = k + 1 := ⟨depth - 1, by omega⟩
    have expands : Expands g (n + 1) d (Recipe.inherit e d) :=
      .child extends' leads hp parent mergeable
    have apart : d.id ∉ chain := fun h => absurd (below _ h _ _ _ hd₀ expands) (by omega)
    have hid := (mem_of_find? hp).2
    have waiting' : Waiting g (chain ++ [d.id]) ended := fun x hx => by
      rcases List.mem_append.1 hx with hx | hx
      · exact waiting x hx
      · obtain rfl := List.mem_singleton.1 hx
        refine ⟨new, fun d' hd' => ?_⟩
        obtain rfl := Option.some.inj (hd₀.symm.trans hd')
        simp [extends']
    obtain ⟨p', hp', -⟩ := inv.find?_new hp
    -- the parent first
    have enough' : n ≤ depth := by omega
    obtain ⟨mid, g₂, does⟩ := ih enough' (hid.symm ▸ hp)
      (fun x hx d' m e' hd' h' => by
        rcases List.mem_append.1 hx with hx | hx
        · have := below x hx d' m e' hd' h'
          omega
        · obtain rfl := List.mem_singleton.1 hx
          obtain rfl := Option.some.inj (hd₀.symm.trans hd')
          have := (expands.unique h').1
          omega) inv waiting' (hid.symm ▸ hp')
    obtain ⟨⟨inv', -, -⟩, ended⟩ :=
      expandFrom_sound tidy inv waiting' ((mem_of_find? hp').2.symm ▸ hp') does.gives
    obtain ⟨e', he', done, -⟩ := inv'.find?_new hp
    obtain ⟨m, expands'⟩ := done (hid ▸ (mem_of_find? hp').2 ▸ ended)
    obtain ⟨-, rfl⟩ := parent.unique expands'
    refine ⟨_, _, expandAfter_merges extends' new apart ?_ hp' does he' mergeable⟩
    rw [inv.resolveAlias_eq, leads]

end Steps

/-! ## The pass -/

section Pass

variable {ended ended' : List String} (tidy : g.Tidy)

include tidy

theorem expandAll_sound {depth : Nat} {ids : List String} (inside : ids ⊆ g.ids)
    (inv : Expanded g ended g₁)
    (run : Build.Gives ((ids.forM (expand depth)).run ended) g₁ ((), ended') g₂) :
    Expanded g ended' g₂ ∧ (∀ x ∈ ended, x ∈ ended') ∧ ids ⊆ ended' := by
  induction ids generalizing ended g₁ with
  | nil =>
    obtain ⟨out, rfl⟩ := Build.gives_pure.1 run
    obtain ⟨-, rfl⟩ := Prod.mk.inj out
    exact ⟨inv, fun _ h => h, List.nil_subset _⟩
  | cons id ids ih =>
    obtain ⟨hid, inside'⟩ := List.cons_subset.1 inside
    rw [forM_cons] at run
    obtain ⟨_, mid, g₃, first, rest⟩ := expansion_bind run
    obtain ⟨_, _, _, hg, first⟩ := expansion_bind first
    obtain ⟨hg', rfl⟩ := expansion_lift hg
    obtain ⟨rfl, rfl⟩ := Build.gives_graph.1 hg'
    obtain ⟨d, hd⟩ := exists_find? (inv.ids_eq ▸ hid : id ∈ g₁.ids)
    obtain rfl := (mem_of_find? hd).2
    simp only [hd] at first
    obtain ⟨⟨inv', more, -⟩, done⟩ := expandFrom_sound tidy inv (.nil _) hd first
    obtain ⟨inv', more', all⟩ := ih inside' inv' rest
    exact ⟨inv', fun x hx => more' x (more x hx), List.cons_subset.2 ⟨more' _ done, all⟩⟩

/-- Each definition becomes what it expands to. -/
theorem expandTemplates_gives (run : Build.Gives expandTemplates g () g') :
    Changed (fun d e => ∃ n, Expands g n d e) g g' := by
  obtain ⟨_, _, hg, run⟩ := Build.gives_bind run
  obtain ⟨rfl, rfl⟩ := Build.gives_graph.1 hg
  obtain ⟨⟨_, ended⟩, run⟩ := Build.gives_discard.1 run
  obtain ⟨inv, -, all⟩ := expandAll_sound tidy (fun _ h => h) (.start g) run
  exact ⟨inv.frame, forall₂_imp_mem inv.definitions fun d hd _ h =>
    ⟨h.1, h.2.1 (all (id_mem_ids hd))⟩⟩

theorem expandAll_does {ids : List String} (inside : ids ⊆ g.ids)
    (all : ∀ d ∈ g.definitions, ∃ n e, Expands g n d e) (inv : Expanded g ended g₁) :
    ∃ ended' g₂, Build.Does ((ids.forM (expand g.definitions.length)).run ended) g₁ ((), ended') g₂ := by
  induction ids generalizing ended g₁ with
  | nil => exact ⟨ended, g₁, .pure _⟩
  | cons id ids ih =>
    obtain ⟨hid, inside'⟩ := List.cons_subset.1 inside
    obtain ⟨d₀, hd₀⟩ := exists_find? hid
    obtain ⟨hmem, rfl⟩ := mem_of_find? hd₀
    obtain ⟨n, e, expands⟩ := all d₀ hmem
    obtain ⟨d, hd, -⟩ := inv.find?_new hd₀
    obtain ⟨mid, g₃, first⟩ := expandFrom_does tidy expands (expands.lt_length hd₀).le hd₀
      (by simp) inv (.nil _) hd
    have found : g₁.find? d.id = some d := (mem_of_find? hd).2.symm ▸ hd
    obtain ⟨⟨inv', -, -⟩, -⟩ := expandFrom_sound tidy inv (.nil _) found first.gives
    obtain ⟨ended', g₂, rest⟩ := ih inside' inv'
    have visit : Build.Does ((expand g.definitions.length d₀.id).run ended) g₁ ((), mid) g₃ := by
      unfold expand
      rw [StateT.run_bind]
      refine (expansion_does .graph).bind ?_
      simp only [hd]
      exact first
    exact ⟨ended', g₂, by rw [forM_cons, StateT.run_bind]; exact visit.bind rest⟩

/-- Where each definition expands to something, the pass succeeds. -/
theorem expandTemplates_expands (all : ∀ d ∈ g.definitions, ∃ n e, Expands g n d e) :
    ∃ g', Build.Does expandTemplates g () g' := by
  obtain ⟨ended, g', does⟩ := expandAll_does tidy (fun _ h => h) all (.start g)
  exact ⟨g', .bind .graph (.discard does)⟩

theorem expandTemplates_shuffled (h : Shuffled g g')
    (run : Build.Gives expandTemplates g () g₁) :
    ∃ g₁', Build.Does expandTemplates g' () g₁' ∧ Shuffled g₁ g₁' := by
  have changed := expandTemplates_gives tidy run
  have expands {n : Nat} {d e : Definition} (hn : Expands g n d e) : Expands g' n d e :=
    hn.congr (h.resolveAlias_eq tidy) (h.find?_eq tidy)
  obtain ⟨g₁', does⟩ := expandTemplates_expands (h.tidy tidy) fun d hd => by
    obtain ⟨e, -, -, n, hn⟩ := changed.exists_new (h.mem_iff.1 hd)
    exact ⟨n, e, expands hn⟩
  have changed' := expandTemplates_gives (h.tidy tidy) does.gives
  obtain ⟨g₂, changed₂, shuffled⟩ := h.changed changed
  have same : g₁' = g₂ := changed'.unique changed₂ fun d hd e e' ⟨n, hn⟩ ⟨m, hm⟩ =>
    ((expands hm).unique hn).2.symm
  exact ⟨g₁', does, same ▸ shuffled⟩

end Pass

/-! ## Lines of parents -/

/-- `p` is the parent of `d`, found over aliases. -/
def Extends (g : Graph) (d p : Definition) : Prop :=
  ∃ name id, d.parent = some name ∧ g.resolveAlias name = .ok id ∧ g.find? id = some p

/-- A definition and the parents above it, up to one that has none. -/
inductive Lineage (g : Graph) : Definition → List Definition → Prop
  | root {d : Definition} : d.parent = none → Lineage g d [d]
  | child {d p : Definition} {line : List Definition} :
    Extends g d p → Lineage g p line → Lineage g d (d :: line)

/-- The parent of a definition cannot be found: aliases lead into a loop, or to nothing. -/
def Severed (g : Graph) (d : Definition) : Prop := ∃ name, d.parent = some name ∧
  ((∃ x, Relation.ReflTransGen g.Aliases name x ∧ Relation.TransGen g.Aliases x x) ∨
    ∃ id, g.resolveAlias name = .ok id ∧ g.find? id = none)

/-- Above a definition is one whose parent cannot be found, or that extends itself. -/
def Broken (g : Graph) (d : Definition) : Prop := ∃ p, Relation.ReflTransGen (Extends g) d p ∧
  (Severed g p ∨ Relation.TransGen (Extends g) p p)

/-- The tags along a line: of a parent only those of names that are not used below it. -/
def lineTags : List Definition → List Label
  | [] => []
  | d :: line => (lineTags line).filter (fun l => !d.tags.any fun own => own.name? == l.name?) ++ d.tags

/-- The keyword arguments have different names. -/
def Keyed (d : Definition) : Prop := (Table.names d.keywords).Nodup

/-- `e` is made of a line of definitions, of which `d` is the first: what the first has that has it,
all that any has together, and what `d` says itself. -/
structure Merged (line : List Definition) (d e : Definition) : Prop where
  id_eq : e.id = d.id
  isPublic_eq : e.isPublic = d.isPublic
  isShared_eq : e.isShared = d.isShared
  isAbstract_eq : e.isAbstract = d.isAbstract
  defaultFor_eq : e.defaultFor = d.defaultFor
  parent_eq : e.parent = none
  factory : e.factory = line.findSome? (·.factory)
  arguments (i : Nat) : e.arguments[i]? = line.findSome? fun p => p.arguments[i]?
  keywords (name : String) : Table.get? e.keywords name =
    line.findSome? fun p => Table.get? p.keywords name
  /-- The names of the root come first. -/
  names : Table.names e.keywords = (line.reverse.flatMap fun p => Table.names p.keywords).eraseDups
  tags : e.tags = lineTags line
  capabilities : e.capabilities = if d.parent = none then d.capabilities
    else Value.distinct (line.reverse.flatMap (·.capabilities))
  autowired : e.autowired = line.any (·.autowired)
  isLazy : e.isLazy = line.any (·.isLazy)

theorem eraseDups_of_nodup {α : Type} [BEq α] [LawfulBEq α] {as : List α} (h : as.Nodup) :
    as.eraseDups = as := by
  induction as with
  | nil => rfl
  | cons a as ih =>
    obtain ⟨new, rest⟩ := List.nodup_cons.1 h
    rw [List.eraseDups_cons, List.filter_eq_self.2 fun b hb => ?_, ih rest]
    simpa using ne_of_mem_of_not_mem hb new

theorem findSome?_cons_eq {α β : Type} {f : α → Option β} {a : α} {as : List α} :
    (a :: as).findSome? f = (f a).or (as.findSome? f) := by
  rw [List.findSome?_cons]
  cases f a <;> rfl

theorem Merged.root (none : d.parent = none) (keyed : Keyed d) : Merged [d] d d where
  id_eq := rfl
  isPublic_eq := rfl
  isShared_eq := rfl
  isAbstract_eq := rfl
  defaultFor_eq := rfl
  parent_eq := none
  factory := by simp [findSome?_cons_eq]
  arguments i := by simp [findSome?_cons_eq]
  keywords name := by simp [findSome?_cons_eq]
  names := by simp [eraseDups_of_nodup keyed]
  tags := by simp [lineTags]
  capabilities := by simp [none]
  autowired := by simp
  isLazy := by simp

/-- A definition inherits from what is made of the line above it. -/
theorem Merged.child {line : List Definition} (h : Merged line p e) (lineage : Lineage g p line)
    (some : d.parent ≠ none) (keyed : Keyed d) :
    Merged (d :: line) d (Recipe.inherit e d) where
  id_eq := rfl
  isPublic_eq := rfl
  isShared_eq := rfl
  isAbstract_eq := rfl
  defaultFor_eq := rfl
  parent_eq := rfl
  factory := by
    rw [findSome?_cons_eq, ← h.factory]
    rfl
  arguments i := by
    show (d.arguments ++ e.arguments.drop d.arguments.length)[i]? = _
    rw [findSome?_cons_eq, ← h.arguments i, List.getElem?_append]
    split
    next here => simp [here]
    next beyond =>
      have le := Nat.le_of_not_lt beyond
      rw [List.getElem?_drop, Nat.add_sub_cancel' le, List.getElem?_eq_none le, Option.none_or]
  keywords name := by
    rw [findSome?_cons_eq, ← h.keywords name]
    exact Table.get?_merge keyed
  names := by
    have joined := Table.names_merge (t := e.keywords) (u := d.keywords) keyed
    have new : (Table.names d.keywords).removeAll
          (line.reverse.flatMap fun p => Table.names p.keywords) =
        (Table.names d.keywords).filter fun n => !(Table.names e.keywords).contains n :=
      List.filter_congr fun n _ => by simp [h.names]
    refine joined.trans ?_
    rw [List.reverse_cons, List.flatMap_append, List.flatMap_singleton, List.eraseDups_append, new,
      ← h.names, eraseDups_of_nodup (keyed.filter _)]
  tags := by
    rw [lineTags, ← h.tags]
    rfl
  capabilities := by
    show Value.distinct (e.capabilities ++ d.capabilities) = _
    rw [if_neg some, List.reverse_cons, List.flatMap_append, List.flatMap_singleton, h.capabilities]
    cases lineage with
    | root none => simp [none]
    | child extends' _ =>
      obtain ⟨name, _, some', -, -⟩ := extends'
      rw [if_neg (by simp [some']), Value.distinct_append]
  autowired := by
    rw [List.any_cons, ← h.autowired]
    rfl
  isLazy := by
    rw [List.any_cons, ← h.isLazy]
    rfl

theorem Expands.exists_line_merged (h : Expands g n d e) (hd : d ∈ g.definitions)
    (keyed : ∀ d ∈ g.definitions, Keyed d) : ∃ line, Lineage g d line ∧ Merged line d e := by
  induction h with
  | root none => exact ⟨_, .root none, .root none (keyed _ hd)⟩
  | child some leads found _ _ ih =>
    obtain ⟨line, lineage, merged⟩ := ih (mem_of_find? found).1
    exact ⟨_, .child ⟨_, _, some, leads, found⟩ lineage,
      merged.child lineage (by simp [some]) (keyed _ hd)⟩

/-! ## Broken lines -/

namespace Extends

theorem unique {p' : Definition} (h : Extends g d p) (h' : Extends g d p') : p' = p := by
  obtain ⟨name, id, some, leads, found⟩ := h
  obtain ⟨name', id', some', leads', found'⟩ := h'
  obtain rfl := Option.some.inj (some.symm.trans some')
  obtain rfl := Except.ok.inj (leads.symm.trans leads')
  exact Option.some.inj (found'.symm.trans found)

theorem mem (h : Extends g d p) : p ∈ g.definitions := by
  obtain ⟨_, _, -, -, found⟩ := h
  exact (mem_of_find? found).1

end Extends

namespace Expands

theorem not_severed (h : Expands g n d e) : ¬ Severed g d := by
  rintro ⟨name, some, broken⟩
  cases h with
  | root none => cases none.symm.trans some
  | child some' leads found =>
    obtain rfl := Option.some.inj (some'.symm.trans some)
    rcases broken with loop | ⟨id, leads', missing⟩
    · obtain ⟨_, failed⟩ := resolveAlias_error_iff.2 loop
      cases failed.symm.trans leads
    · obtain rfl := Except.ok.inj (leads.symm.trans leads')
      cases missing.symm.trans found

theorem above (h : Expands g n d e) (extends' : Extends g d p) :
    ∃ m e', Expands g m p e' ∧ n = m + 1 := by
  cases h with
  | root none =>
    obtain ⟨_, _, some, -, -⟩ := extends'
    cases none.symm.trans some
  | child some leads found rest =>
    obtain rfl := extends'.unique ⟨_, _, some, leads, found⟩
    exact ⟨_, _, rest, rfl⟩

theorem further (h : Expands g n d e) (path : Relation.TransGen (Extends g) d p) :
    ∃ m e', Expands g m p e' ∧ m < n := by
  induction path with
  | single step =>
    obtain ⟨m, e', h', rfl⟩ := h.above step
    exact ⟨m, e', h', Nat.lt_succ_self m⟩
  | tail _ step ih =>
    obtain ⟨m, e', h', lt⟩ := ih
    obtain ⟨k, e'', h'', rfl⟩ := h'.above step
    exact ⟨k, e'', h'', Nat.lt_of_succ_lt lt⟩

/-- What expands has no broken line above it. -/
theorem not_broken (h : Expands g n d e) : ¬ Broken g d := by
  rintro ⟨p, path, broken⟩
  obtain ⟨m, e', h'⟩ : ∃ m e', Expands g m p e' := by
    rcases Relation.reflTransGen_iff_eq_or_transGen.1 path with rfl | path
    · exact ⟨n, e, h⟩
    · obtain ⟨m, e', h', -⟩ := h.further path
      exact ⟨m, e', h'⟩
  rcases broken with severed | loop
  · exact h'.not_severed severed
  · obtain ⟨k, e'', h'', lt⟩ := h'.further loop
    exact Nat.ne_of_lt lt (h''.unique h').1

theorem presentable (h : Expands g n d e) (hd : d ∈ g.definitions)
    (all : ∀ d ∈ g.definitions, Presentable d) : Presentable e := by
  induction h with
  | root => exact all _ hd
  | child _ _ found _ _ ih =>
    exact inherited_presentable _ _ (ih (mem_of_find? found).1) (all _ hd)

end Expands

/-- Where no line is broken, each definition expands. -/
theorem expands_of_whole (all : ∀ d ∈ g.definitions, Presentable d)
    (whole : ∀ d ∈ g.definitions, ¬ Broken g d) : ∀ d ∈ g.definitions, ∃ n e, Expands g n d e := by
  have acyclic (a b : Definition) (step : a ∈ g.definitions ∧ Extends g a b) :
      ¬ Relation.ReflTransGen (fun a b => a ∈ g.definitions ∧ Extends g a b) b a := fun back =>
    whole a step.1 ⟨a, .refl, .inr (.head' step.2 (Relation.ReflTransGen.mono (fun _ _ h => h.2) _ _ back))⟩
  obtain ⟨rank, -, falls⟩ := exists_rank acyclic g.definitions
  intro d hd
  induction hr : rank d using Nat.strong_induction_on generalizing d with
  | _ r ih =>
    subst hr
    cases some : d.parent with
    | none => exact ⟨0, d, .root some⟩
    | some name =>
      have whole := whole d hd
      cases leads : g.resolveAlias name with
      | error e =>
        have loop := resolveAlias_error_iff.1 ⟨e, leads⟩
        exact absurd ⟨d, .refl, .inl ⟨name, some, .inl loop⟩⟩ whole
      | ok id =>
        cases found : g.find? id with
        | none => exact absurd ⟨d, .refl, .inl ⟨name, some, .inr ⟨id, leads, found⟩⟩⟩ whole
        | some p =>
          have hp := (mem_of_find? found).1
          obtain ⟨n, e, expands⟩ :=
            ih _ (falls d p ⟨hd, name, id, some, leads, found⟩ hp) p hp rfl
          have mergeable := (expands.presentable hp all).mergeable (all d hd)
          exact ⟨_, _, .child some leads found expands mergeable⟩

/-- A cat extends a mammal, which it knows as a pet, and mammals extend animals. -/
def household : Graph where
  definitions := [
    { id := "cat", parent := some "pet", arguments := [.literal (.str "Tom")]
      tags := [.tag ⟨"fed", [("meals", .int 2)]⟩], capabilities := [.str "purr", .str "move"] },
    { id := "mammal", isAbstract := true, parent := some "animal", isShared := false
      keywords := [("warm", .literal (.bool true))], capabilities := [.str "drink"] },
    { id := "animal", isAbstract := true, isLazy := true
      arguments := [.literal (.str "anyone"), .literal (.int 4)]
      keywords := [("legs", .literal .null), ("warm", .literal (.bool false))]
      tags := [.tag ⟨"seen", []⟩, .tag ⟨"fed", []⟩], capabilities := [.str "move"] }]
  aliases := [{ id := "pet", target := "mammal" }]

/-- The cat, once the templates of its household are expanded. -/
def expandedCat? : Option Definition :=
  match expandTemplates ⟨household, []⟩ with
  | .ok _ w => w.graph.find? "cat"
  | .error _ _ => none

/-- What becomes of the cat. -/
def wholeCat : Definition where
  id := "cat"
  arguments := [.literal (.str "Tom"), .literal (.int 4)]
  keywords := [("legs", .literal .null), ("warm", .literal (.bool true))]
  tags := [.tag ⟨"seen", []⟩, .tag ⟨"fed", [("meals", .int 2)]⟩]
  capabilities := [.str "move", .str "drink", .str "purr"]
  isLazy := true

end Wiring.Pass
