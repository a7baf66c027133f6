import Wiring.Proofs.Pass.Candidates

/-!
# Inlining

A round embeds the candidates in the definitions that are none. Every round takes definitions out, so
rounds end, and no candidates are left then.
-/

namespace Wiring.Pass

open Graph Definition Argument

variable {p g g' : Graph} {c d : Definition} {u : Unit}

/-! ## Rounds -/

/-- A round takes the candidates out, and the others have them embedded. -/
structure Round (g g' : Graph) : Prop where
  clear : Clear g
  definitions_eq : g'.definitions = (others g).map (whole g)
  aliases_eq : g'.aliases = g.aliases
  parameters_eq : g'.parameters = g.parameters
  nextMark_eq : g'.nextMark = g.nextMark + (candidates g).length
  alone : g'.twins = []

namespace Round

variable (h : Round g g') (hg : g.Layered)

include h

theorem exists_old (hd : d ∈ g'.definitions) : ∃ d₀ ∈ others g, d = whole g d₀ := by
  rw [h.definitions_eq] at hd
  obtain ⟨d₀, hd₀, rfl⟩ := List.mem_map.1 hd
  exact ⟨d₀, hd₀, rfl⟩

include hg

theorem revised (hd : d ∈ others g) : Recipe.Revised Regrafted d (whole g d) :=
  whole_revised hg h.clear (mem_parts_of_definition (List.mem_filter.1 hd).1)

theorem ids_eq : g'.ids = (others g).map (·.id) := by
  rw [Graph.ids, h.definitions_eq, List.map_map]
  exact List.map_congr_left fun d hd => (h.revised hg hd).id_eq

theorem mem_ids {id : String} :
    id ∈ g'.ids ↔ id ∈ g.ids ∧ findCandidate? (candidates g) id = none := by
  rw [h.ids_eq hg, List.mem_map]
  constructor
  · rintro ⟨d, hd, rfl⟩
    obtain ⟨hd, none⟩ := List.mem_filter.1 hd
    exact ⟨id_mem_ids hd, Option.isNone_iff_eq_none.1 none⟩
  · rintro ⟨there, none⟩
    obtain ⟨d, hd, rfl⟩ := Graph.mem_ids.1 there
    exact ⟨d, List.mem_filter.2 ⟨hd, Option.isNone_iff_eq_none.2 none⟩, rfl⟩

/-- All that was embedded still is, and each candidate is embedded once. -/
theorem stamps_perm : g'.stamps.Perm ((candidates g).map (fun e => (e.1, e.2.id)) ++ g.stamps) := by
  have := Pass.stamps_perm hg h.clear
  rwa [Graph.stamps, h.definitions_eq, List.flatMap_map]

/-- The references that are left are those to no candidates. -/
theorem references_perm : g'.allReferences.Perm
    (g.allReferences.filter fun r => (findCandidate? (candidates g) r.id).isNone) := by
  have := Pass.references_perm hg h.clear
  rwa [Graph.allReferences, h.definitions_eq, List.flatMap_map]

/-- Definitions are taken out. -/
theorem fewer (some : candidates g ≠ []) : g'.definitions.length < g.definitions.length := by
  have split := (definitions_perm hg.alone hg.unique).length_eq
  rw [List.length_append, List.length_map] at split
  have := List.length_pos_iff.2 some
  rw [h.definitions_eq, List.length_map]
  omega

/-- What a reference leads to it led to before, from something embedded in the definition now. -/
theorem arc {isLazy : Bool} {a b : String} (arc : g'.Arc isLazy a b) :
    ∃ c, Relation.ReflTransGen (g.Arc false) a c ∧ g.Arc isLazy c b := by
  have before {id : String} {d : Definition} (found : g'.find? id = some d) :
      ∃ d₀ ∈ g.definitions, g.find? id = some d₀ ∧ d = whole g d₀ ∧ d.isLazy = d₀.isLazy := by
    obtain ⟨hd, rfl⟩ := mem_of_find? found
    obtain ⟨d₀, hd₀, rfl⟩ := h.exists_old hd
    have same := h.revised hg hd₀
    have hd₀ := (List.mem_filter.1 hd₀).1
    exact ⟨d₀, hd₀, same.id_eq ▸ find?_of_mem hg.unique hd₀, rfl, same.isLazy_eq⟩
  obtain ⟨d, d', hd, hd', r, hr, resolves, hl⟩ := arc
  obtain ⟨d₀, hd₀, found, rfl, -⟩ := before hd
  obtain ⟨d₀', -, found', rfl, isLazy⟩ := before hd'
  obtain ⟨-, c, below, hr⟩ := mem_references_whole hg h.clear hd₀ hr
  obtain ⟨hc, path, -⟩ := below.spec hg hd₀
  rw [resolveAlias_congr h.aliases_eq] at resolves
  refine ⟨c.id, (mem_of_find? found).2 ▸ path, c, d₀', find?_of_mem hg.unique hc, found', r, hr,
    resolves, ?_⟩
  rw [hl, isLazy]

/-- Nothing that a round makes is in its way the next time. -/
theorem layered : g'.Layered where
  unique := h.ids_eq hg ▸ hg.unique.sublist (List.filter_sublist.map _)
  alone := h.alone
  plain d hd q hq a ha := by
    obtain ⟨d₀, hd₀, rfl⟩ := h.exists_old hd
    obtain ⟨d₁, hd₁, q₀, hq₀, hR, -⟩ :=
      parts_whole hg h.clear (List.mem_filter.1 hd₀).1 hq
    obtain ⟨b, hb, regrafted⟩ := forall₂_mem_right hR.allArguments ha
    exact Regrafted.isMixture regrafted (hg.plain d₁ hd₁ q₀ hq₀ b hb)
  unaliased d hd r hr := by
    obtain ⟨d₀, hd₀, rfl⟩ := h.exists_old hd
    have hd₀ := (List.mem_filter.1 hd₀).1
    obtain ⟨-, c, below, hr⟩ := mem_references_whole hg h.clear hd₀ hr
    rw [aliasIds, h.aliases_eq]
    exact hg.unaliased c (below.spec hg hd₀).1 r hr
  cycles := hg.cycles.of_arcs fun _ _ _ arc => h.arc hg arc

/-- What is embedded now was embedded, or is a candidate. -/
theorem mem_embedded {e : Nat × Definition} (he : e ∈ g'.embedded) :
    ∃ q ∈ g.parts, ((e.1, q) ∈ g.embedded ∨ (e.1, q) ∈ candidates g) ∧ e.2 = whole g q := by
  obtain ⟨d, hd, he⟩ := List.mem_flatMap.1 he
  obtain ⟨d₀, hd₀, rfl⟩ := h.exists_old hd
  have hd₀ := (List.mem_filter.1 hd₀).1
  obtain ⟨d₁, q, below, from', same⟩ := mem_embedded_whole hg h.clear hd₀ he
  have hd₁ := (below.spec hg hd₀).1
  rcases from' with hq | ⟨hq, rfl⟩
  · exact ⟨q, mem_parts_of hd₁ (mem_parts_of_embedded hq), .inl (List.mem_flatMap.2 ⟨d₁, hd₁, hq⟩),
      same⟩
  · exact ⟨q, mem_parts_of_definition hd₁, .inr hq, same⟩

theorem stamped (stamped : g.Stamped) : g'.Stamped where
  coherent e he f hf same := by
    obtain ⟨m, r⟩ := e
    obtain ⟨m', r'⟩ := f
    obtain rfl : m = m' := same
    obtain ⟨q, -, hq, rfl⟩ := h.mem_embedded hg he
    obtain ⟨q', -, hq', rfl⟩ := h.mem_embedded hg hf
    have one : ((m, q) : Nat × Definition) = (m, q') := by
      rcases hq with hq | hq
      · rcases hq' with hq' | hq'
        · exact stamped.coherent _ hq _ hq' rfl
        · exact absurd (stamped.fresh _ hq) (candidates_mark hg.alone hq').1.not_gt
      · rcases hq' with hq' | hq'
        · exact absurd (stamped.fresh _ hq') (candidates_mark hg.alone hq).1.not_gt
        · exact candidates_coherent hg.alone _ hq _ hq' rfl
    rw [(Prod.mk.inj one).2]
  fresh e he := by
    rw [h.nextMark_eq]
    obtain ⟨q, -, hq | hq, -⟩ := h.mem_embedded hg he
    · exact Nat.lt_add_right _ (stamped.fresh (e.1, q) hq)
    · exact (candidates_mark hg.alone hq).2

end Round

/-- What a round makes of a graph in which nothing is shared. -/
theorem embed_ok (alone : g.isShared = false) (h : embed (candidates g) g = (none, g')) :
    ∃ ds former, Pass.embedded (candidates g) (others g) = .ok ds ∧
      g' = { g with
        definitions := ds
        nextMark := g.nextMark + (candidates g).length
        former } := by
  unfold embed at h
  simp only [alone, Bool.false_eq_true, if_false] at h
  split at h
  next ds hds =>
    split at h
    · exact ⟨ds, _, hds, (Prod.mk.inj h).2.symm⟩
    · exact ⟨ds, _, hds, (Prod.mk.inj h).2.symm⟩
  next => cases (Prod.mk.inj h).1

/-- Where nothing is shared, definitions are embedded by themselves. -/
theorem round_of_embedded (hg : g.Layered) (alone : g.isShared = false)
    (some : candidates g ≠ []) (h : embed (candidates g) g = (none, g')) : Round g g' := by
  obtain ⟨ds, former, hds, rfl⟩ := embed_ok alone h
  have clear := clear_of_embedded hg some hds
  exact ⟨clear, embedded_eq_map hg clear hds, rfl, rfl, rfl, hg.alone⟩

/-- A round embeds services in others. -/
theorem Round.embedding (round : Round g g') (h : Embedding p g) (hs : p.Sealed) (flat : p.Flat) :
    Embedding p g' := by
  have hg := (h.toSealed hs flat).toLayered
  have inside : ∀ d ∈ others g, d ∈ g.definitions := fun d hd => (List.mem_filter.1 hd).1
  have split := definitions_perm hg.alone hg.unique
  have stamps := round.stamps_perm hg
  refine {
    aliases_eq := round.aliases_eq.trans h.aliases_eq
    parameters_eq := round.parameters_eq.trans h.parameters_eq
    alone := round.alone
    grafts := fun q hq => ?grafts
    placed := ?placed
    marks := ?marks
    fresh := fun s hs => ?fresh
    hidden := fun d hd gone => ?hidden
    named := fun d hd r hr hp => ?named
    shared := fun d hd q hq isShared => ?shared }
  case grafts =>
    obtain ⟨d, hd, hq⟩ := mem_parts.1 hq
    obtain ⟨d₀, hd₀, rfl⟩ := round.exists_old hd
    obtain ⟨d₁, hd₁, q₀, hq₀, hR, -⟩ := parts_whole hg round.clear (inside d₀ hd₀) hq
    obtain ⟨e, he, hR₀⟩ := h.grafts q₀ (mem_parts_of hd₁ hq₀)
    refine ⟨e, he, (hR₀.comp hR).mono_mem fun a ha b related => ?_⟩
    obtain ⟨c, hac, hcb⟩ := related
    exact hac.regraft (Argument.ne_inlined (flat e he a ha)) hcb
  case placed =>
    have split := split.map (·.id)
    rw [List.map_append, List.map_map] at split
    have stamps := stamps.map Prod.snd
    rw [List.map_append, List.map_map] at stamps
    refine List.Perm.trans ?_ h.placed
    refine ((stamps.append_left _).trans ?_).trans (split.symm.append_right _)
    rw [round.ids_eq hg, List.append_assoc]
    rfl
  case marks =>
    refine (stamps.map Prod.fst).nodup_iff.2 ?_
    have marks : (candidates g).map (Prod.fst ∘ fun e => (e.1, e.2.id)) =
        List.range' g.nextMark (candidates g).length := candidates_marks hg.alone
    rw [List.map_append, List.map_map, marks, List.nodup_append]
    refine ⟨List.nodup_range', h.marks, fun m hm m' hm' e => ?_⟩
    obtain ⟨s, hs, rfl⟩ := List.mem_map.1 hm'
    have := h.fresh s hs
    have := (List.mem_range'_1.1 hm).1
    omega
  case fresh =>
    rw [Graph.stamps_eq] at hs
    obtain ⟨e, he, rfl⟩ := List.mem_map.1 hs
    exact (round.stamped hg h.stamped).fresh e he
  case hidden =>
    by_cases left : d.id ∈ g.ids
    · obtain ⟨c, hc, same⟩ := Graph.mem_ids.1 left
      have mem := split.mem_iff.1 hc
      rw [round.ids_eq hg] at gone
      rcases List.mem_append.1 mem with hc' | hc'
      · exact absurd (same ▸ List.mem_map_of_mem hc') gone
      · obtain ⟨e, he, rfl⟩ := List.mem_map.1 hc'
        have candidate := (mem_candidates hg.alone he).2
        obtain ⟨d', hd', hR⟩ := h.exists_origin (mem_parts_of_definition hc) hs.unique
        obtain rfl : d' = d :=
          eq_of_id_eq hs.unique (mem_of_find? hd').1 hd ((mem_of_find? hd').2.trans same)
        refine ⟨hR.isPublic_eq ▸ candidate.isPublic, hR.isLazy_eq ▸ candidate.isLazy, ?_⟩
        rw [← h.aliases_eq, ← same]
        exact candidate.target
    · exact h.hidden d hd left
  case named =>
    obtain ⟨d₀, hd₀, rfl⟩ := round.exists_old hd
    obtain ⟨free, d₁, below, hr₁⟩ := mem_references_whole hg round.clear (inside d₀ hd₀) hr
    exact (round.mem_ids hg).2 ⟨h.named d₁ (below.spec hg (inside d₀ hd₀)).1 r hr₁ hp, free⟩
  case shared =>
    obtain ⟨d₀, hd₀, rfl⟩ := round.exists_old hd
    obtain ⟨d₁, hd₁, q₀, hq₀, hR, shared⟩ := parts_whole hg round.clear (inside d₀ hd₀) hq
    rw [(round.revised hg hd₀).isShared_eq]
    exact shared (h.shared d₁ hd₁ q₀ hq₀ (hR.isShared_eq ▸ isShared))

/-- A round embeds services in others, and takes definitions out. -/
theorem embedding_embed (h : Embedding p g) (hs : p.Sealed) (flat : p.Flat)
    (some : candidates g ≠ []) (he : embed (candidates g) g = (none, g')) :
    Embedding p g' ∧ g'.definitions.length < g.definitions.length := by
  have hg := (h.toSealed hs flat).toLayered
  have round := round_of_embedded hg h.isShared_eq_false some he
  exact ⟨round.embedding h hs flat, round.fewer hg some⟩

theorem requireReferences_ok (plain : d.Plain) : requireReferences d = .ok () := by
  refine bind_eq_ok.2 ⟨(), forM_eq_ok.2 fun a ha => ?_, forM_eq_ok.2 fun a ha => ?_⟩
  · cases a with
    | mixture tag members => cases plain d (self_mem_parts d) _ ha
    | _ => rfl
  · rw [referents_of_plain plain] at ha
    obtain ⟨r, -, rfl⟩ := List.mem_map.1 ha
    rfl

/-- Where there are candidates they are embedded and the next round follows, and that is all. -/
theorem gives_inlineRounds {rounds : Nat} {u : Unit}
    (run : Build.Gives (inlineRounds (rounds + 1)) g u g') :
    candidates g = [] ∧ g' = g ∨ candidates g ≠ [] ∧
      ∃ g₁, embed (candidates g) g = (none, g₁) ∧ Build.Gives (inlineRounds rounds) g₁ u g' := by
  obtain ⟨_, _, hgraph, run⟩ := Build.gives_bind run
  obtain ⟨rfl, rfl⟩ := Build.gives_graph.1 hgraph
  obtain ⟨_, _, hcheck, run⟩ := Build.gives_bind run
  obtain ⟨-, rfl⟩ := Build.gives_check.1 hcheck
  obtain ⟨_, _, hgraph, run⟩ := Build.gives_bind run
  obtain ⟨rfl, rfl⟩ := Build.gives_graph.1 hgraph
  dsimp only at run
  split at run
  next none =>
    obtain ⟨-, rfl⟩ := Build.gives_pure.1 run
    exact .inl ⟨List.isEmpty_iff.1 none, rfl⟩
  next some =>
    obtain ⟨_, g₁, change, run⟩ := Build.gives_bind run
    obtain ⟨_, g₂, notes, run⟩ := Build.gives_bind run
    obtain rfl := Build.gives_forM_note notes
    exact .inr ⟨mt List.isEmpty_iff.2 some, g₁, Build.gives_changeOrFail.1 change, run⟩

/-- Where rounds fail by `E` only and keep what holds of the graph, so does inlining, and it ends where
there are no candidates: each round takes definitions out. -/
theorem inlineRounds_ends {E : Failure → Prop} {I : Graph → Prop} (plain : ∀ g, I g → g.Plain)
    (round : ∀ g, I g → candidates g ≠ [] →
      (∀ e g', embed (candidates g) g = (some e, g') → E e) ∧
        ∀ g', embed (candidates g) g = (none, g') →
          I g' ∧ g'.definitions.length < g.definitions.length)
    (rounds : Nat) (h : I g) : Build.FailsBy E (inlineRounds rounds) g ∧
      ∀ u g', Build.Gives (inlineRounds rounds) g u g' →
        I g' ∧ (g.definitions.length ≤ rounds → candidates g' = []) := by
  induction rounds generalizing g with
  | zero =>
    refine ⟨.pure (), fun u g' run => ?_⟩
    obtain ⟨-, rfl⟩ := Build.gives_pure.1 run
    refine ⟨h, fun empty => ?_⟩
    have empty := List.length_eq_zero_iff.1 (Nat.le_zero.1 empty)
    simp [candidates, empty]
  | succ rounds ih =>
    constructor
    · refine .graph_bind (.check_bind (.of_ok ⟨(), forM_eq_ok.2 fun d hd =>
        requireReferences_ok (plain g h d hd)⟩) fun _ _ => .graph_bind ?_)
      dsimp only
      split
      · exact .pure ()
      next some =>
        obtain ⟨fails, gives⟩ := round g h (mt List.isEmpty_iff.2 some)
        refine .bind (.changeOrFail fails) fun _ g₁ change => ?_
        refine .bind (.forM (fun _ _ => True) trivial fun _ _ _ _ _ _ =>
          ⟨.note, fun _ _ => trivial⟩) fun _ g₂ notes => ?_
        obtain rfl := Build.gives_forM_note notes
        exact (ih (gives g₁ (Build.gives_changeOrFail.1 change)).1).1
    · intro u g' run
      obtain ⟨none, rfl⟩ | ⟨some, g₁, change, run⟩ := gives_inlineRounds run
      · exact ⟨h, fun _ => none⟩
      · obtain ⟨h₁, fewer⟩ := (round _ h some).2 g₁ change
        obtain ⟨h', none⟩ := (ih h₁).2 u g' run
        exact ⟨h', fun enough => none (by omega)⟩

theorem inlineServices_ends {E : Failure → Prop} {I : Graph → Prop} (plain : ∀ g, I g → g.Plain)
    (round : ∀ g, I g → candidates g ≠ [] →
      (∀ e g', embed (candidates g) g = (some e, g') → E e) ∧
        ∀ g', embed (candidates g) g = (none, g') →
          I g' ∧ g'.definitions.length < g.definitions.length)
    (h : I g) : Build.FailsBy E inlineServices g ∧
      ∀ u g', Build.Gives inlineServices g u g' → I g' ∧ candidates g' = [] := by
  obtain ⟨fails, gives⟩ := inlineRounds_ends plain round g.definitions.length h
  refine ⟨.graph_bind fails, fun u g' run => ?_⟩
  obtain ⟨_, _, hgraph, run⟩ := Build.gives_bind run
  obtain ⟨rfl, rfl⟩ := Build.gives_graph.1 hgraph
  obtain ⟨h', none⟩ := gives u g' run
  exact ⟨h', none le_rfl⟩

/-- Private services are embedded until none of them can be. -/
theorem inlineServices_spec (hs : p.Sealed) (flat : p.Flat)
    (run : Build.Gives inlineServices p u g') : Embedding p g' ∧ candidates g' = [] :=
  (inlineServices_ends (E := fun _ => True) (I := Embedding p)
    (fun _ h => (h.toSealed hs flat).plain)
    (fun _ h some => ⟨fun _ _ _ => trivial, fun _ he => embedding_embed h hs flat some he⟩)
    (.refl flat hs.alone)).2 u g' run

/-- Where there are no candidates, nothing is embedded. -/
theorem inlineServices_does (plain : g.Plain) (none : candidates g = []) :
    Build.Does inlineServices g () g := by
  refine .bind .graph ?_
  cases g.definitions.length with
  | zero => exact .pure ()
  | succ n =>
    have checked : g.definitions.forM requireReferences = .ok () :=
      forM_eq_ok.2 fun d hd => requireReferences_ok (plain d hd)
    refine .bind .graph (.bind (.check checked) (.bind .graph ?_))
    rw [none]
    exact .pure ()

end Wiring.Pass
