import Wiring.Proofs.Pass.Aliases
import Wiring.Proofs.Pass.Checks
import Wiring.Proofs.Pass.Inlining
import Wiring.Proofs.Pass.Removal
import Wiring.Proofs.Pass.Visibility

/-!
# Visibility from removal on

Private aliases go, then whatever the roots do not need, and at last what is embedded in others.
Public services are roots and stay, and templates are not reached.
-/

namespace Wiring

/-- A list that is filtered holds nothing new. -/
theorem mem_of_filterM {ε α : Type} {p : α → Except ε Bool} {as bs : List α}
    (h : as.filterM p = .ok bs) {b : α} (hb : b ∈ bs) : b ∈ as := by
  have aux (as acc out : List α) (h : as.filterAuxM p acc = .ok out) :
      ∀ b ∈ out, b ∈ as ∨ b ∈ acc := by
    induction as generalizing acc with
    | nil =>
      obtain rfl := Except.ok.inj h
      exact fun b hb => .inr hb
    | cons a as ih =>
      obtain ⟨keep, -, h⟩ := bind_eq_ok.1 h
      intro b hb
      rcases ih _ h b hb with hb | hb
      · exact .inl (List.mem_cons_of_mem a hb)
      · cases keep with
        | false => exact .inr hb
        | true =>
          rcases List.mem_cons.1 hb with rfl | hb
          · exact .inl List.mem_cons_self
          · exact .inr hb
  obtain ⟨out, hout, h⟩ := bind_eq_ok.1 h
  obtain rfl := pure_eq_ok.1 h
  exact (aux as [] out hout b (List.mem_reverse.1 hb)).resolve_right (by simp)

/-- Where something is done for each reference, all referents are references. -/
theorem Definition.eachReference_ok {α : Type} {d : Definition} {act : Reference → Except Failure α}
    {found : List α} (h : eachReference d act = .ok found) :
    (references d).mapM act = .ok found := by
  unfold eachReference at h
  split at h
  · exact h
  next all =>
    refine absurd (List.all_eq_true.2 fun a ha => ?_) all
    obtain ⟨_, -, hb⟩ := forall₂_mem_left (mapM_eq_ok.1 h) ha
    obtain ⟨r, hr, -⟩ := bind_eq_ok.1 hb
    cases a with
    | reference r => rfl
    | _ => cases hr

namespace Graph

variable {g g' g₀ f : Graph} {d : Definition} {id a b : String}

/-! ## What is reached -/

/-- What a definition leads to is the end of a reference, or no template. -/
theorem of_mem_successors {found : List String} (h : g.successors d = .ok found) (hb : b ∈ found) :
    (∃ r ∈ Definition.references d, g.Leads r.id b ∧ b ∈ g.ids) ∨
      ∃ e ∈ g.definitions, e.id = b ∧ e.isAbstract = false := by
  obtain ⟨targets, ht, h⟩ := bind_eq_ok.1 h
  obtain ⟨members, hm, h⟩ := bind_eq_ok.1 h
  obtain rfl := pure_eq_ok.1 h
  rcases List.mem_append.1 hb with hb | hb
  · obtain ⟨hb, there⟩ := List.mem_filter.1 hb
    obtain ⟨r, hr, leads⟩ :=
      forall₂_mem_right (mapM_eq_ok.1 (Definition.eachReference_ok ht)) hb
    exact .inl ⟨r, hr, resolveAlias_ok.1 leads, has_iff.1 there⟩
  · obtain ⟨ids, hi, hb⟩ := List.mem_flatten.1 hb
    obtain ⟨x, -, hx⟩ := forall₂_mem_right (mapM_eq_ok.1 hm) hi
    cases x with
    | tagged tag =>
      obtain ⟨tagged, ht, hx⟩ := bind_eq_ok.1 hx
      obtain rfl := pure_eq_ok.1 hx
      obtain ⟨e, he, rfl⟩ := List.mem_map.1 hb
      obtain ⟨he, concrete⟩ := List.mem_filter.1 he
      simp only [Bool.and_eq_true, Bool.not_eq_true'] at concrete
      exact .inr ⟨e, mem_of_filterM ht he, rfl, concrete.1⟩
    | _ =>
      obtain rfl := Except.ok.inj hx
      cases hb

theorem mem_ids_of_mem_successors {found : List String} (h : g.successors d = .ok found)
    (hb : b ∈ found) : b ∈ g.ids := by
  rcases of_mem_successors h hb with ⟨-, -, -, there⟩ | ⟨e, he, rfl, -⟩
  · exact there
  · exact id_mem_ids he

theorem exists_of_visit {found : List String} (h : (do g.successors (← g.get a)) = .ok found) :
    ∃ d, g.find? a = some d ∧ g.successors d = .ok found := by
  obtain ⟨d, hd, h⟩ := bind_eq_ok.1 h
  exact ⟨d, get_ok.1 hd, h⟩

/-- The roots are among what is reached. -/
theorem root_mem_reachableIds (unique : g.ids.Nodup) {out : List String}
    (h : g.reachableIds = .ok out) (root : g.IsRoot id) : id ∈ out := by
  obtain ⟨roots, hr, h⟩ := bind_eq_ok.1 h
  obtain ⟨roots_in, -⟩ := (Walk.travels_of_except h).closed (U := g.ids)
    (Q := fun a found _ => (do g.successors (← g.get a)) = .ok found)
    (fun _ _ _ _ hv => hv) (fun _ _ _ _ _ _ _ hv _ => hv)
    (fun _ a found _ hv b hb => by
      obtain ⟨d, -, hs⟩ := exists_of_visit hv
      exact mem_ids_of_mem_successors hs hb)
    (fun a ha => has_iff.1 ((mem_rootIds unique hr).1 ha).has) (by simp) .nil
    (by simp [ids]) (by simp)
  exact roots_in id ((mem_rootIds unique hr).2 root)

/-- No template is reached, where concrete definitions refer to none. -/
theorem concrete_of_reachable (unique : g.ids.Nodup)
    (concrete : ∀ d ∈ g.definitions, d.isAbstract = false → ∀ r ∈ Definition.references d,
      ∀ e, g.Leads r.id e.id → e ∈ g.definitions → e.isAbstract = false)
    {out : List String} (h : g.reachableIds = .ok out) (hd : d ∈ g.definitions) (hid : d.id ∈ out) :
    d.isAbstract = false := by
  obtain ⟨roots, hr, h⟩ := bind_eq_ok.1 h
  refine (Walk.travels_of_except h).sound
    (P := fun a => ∀ e ∈ g.definitions, e.id = a → e.isAbstract = false)
    (fun a ha e he same => ?_) (by simp) (fun _ a found _ ha hv b hb e he same => ?_) _ hid d hd rfl
  · obtain ⟨e', he', concrete, -⟩ := (mem_rootIds unique hr).1 ha
    obtain rfl := eq_of_id_eq unique he (mem_of_find? he').1 (same.trans (mem_of_find? he').2.symm)
    exact concrete
  · obtain ⟨c, hc, hs⟩ := exists_of_visit hv
    obtain ⟨there, rfl⟩ := mem_of_find? hc
    rcases of_mem_successors hs hb with ⟨r, hr, leads, -⟩ | ⟨e', he', same', concrete'⟩
    · exact concrete c there (ha c there rfl) r hr e (same ▸ leads) he
    · obtain rfl := eq_of_id_eq unique he he' (same.trans same'.symm)
      exact concrete'

/-! ## Removal -/

open Pass

theorem Leads.of_published (keyed : g.Keyed) (h : (published g).Leads a b) (there : b ∈ g.ids) :
    g.Leads a b := by
  induction h with
  | @here id => exact .here (findAlias?_eq_none_iff.2 fun hid => keyed.apart id hid there)
  | there found _ ih =>
    obtain ⟨hmem, rfl⟩ := mem_of_findAlias? found
    exact .there (findAlias?_of_mem keyed.uniqueAliases (List.mem_filter.1 hmem).1) (ih there)

/-- References of validated definitions lead to no template. -/
theorem concrete_of_checked (unique : g.ids.Nodup) (checked : checkReferences g = .ok ())
    (hd : d ∈ g.definitions) (concrete : d.isAbstract = false) {r : Reference}
    (hr : r ∈ Definition.references d) {e : Definition} (leads : g.Leads r.id e.id)
    (he : e ∈ g.definitions) : e.isAbstract = false := by
  obtain ⟨-, -, checked⟩ := bind_eq_ok.1 checked
  have hmem : d ∈ g.definitions.filter fun d => !d.isAbstract := List.mem_filter.2 ⟨hd, by simp [concrete]⟩
  obtain ⟨found, each⟩ := discard_eq_ok.1 (forM_eq_ok.1 checked d hmem)
  obtain ⟨_, -, h⟩ := forall₂_mem_left (mapM_eq_ok.1 (Definition.eachReference_ok each)) hr
  obtain ⟨target, leads', -, concrete'⟩ := checkReference_ok.1 h
  obtain rfl := leads.unique leads'
  exact concrete' e (find?_of_mem unique he)

/-- The graph shows what is public in `g₀`, templates apart, and its public aliases; it holds
nothing that is not in `g₀`, and no template. -/
structure Exposes (g₀ g : Graph) : Prop where
  unique : g.ids.Nodup
  faces : g.faces ⊆ g₀.faces
  concrete : ∀ d ∈ g.definitions, d.isAbstract = false
  kept : ∀ x ∈ g₀.faces, x.isPublic = true → x.isAbstract = false → x ∈ g.faces
  aliasFaces : g.aliasFaces = g₀.aliasFaces.filter (·.2)
  alone : g.twins = []

/-- What removal leaves of a validated graph. -/
theorem Stands.exposes (keyed : g₀.Keyed) (h : Stands g₀ g) (checked : checkReferences g = .ok ())
    {u : Unit} (run : Build.Gives removeUnused (published g) u g') : Exposes g₀ g' := by
  have hg := h.keyed keyed
  obtain ⟨reached, hr, rfl⟩ := removeUnused_eq (g := published g) h.alone run
  have subset : ∀ d ∈ (published g).definitions.filter fun d => decide (d.id ∈ reached),
      d ∈ g.definitions ∧ d.id ∈ reached := fun d hd => by simpa [published] using hd
  refine ⟨?_, fun x hx => ?_, fun d hd => ?_, fun x hx isPublic concrete => ?_, ?_, h.alone⟩
  · exact (List.filter_sublist.map _).nodup hg.unique
  · obtain ⟨d, hd, rfl⟩ := List.mem_map.1 hx
    exact h.faces ▸ face_mem (subset d hd).1
  · obtain ⟨hd, hid⟩ := subset d hd
    refine concrete_of_reachable (g := published g) hg.unique ?_ hr hd hid
    intro c hc concrete r hr e leads he
    exact concrete_of_checked hg.unique checked hc concrete hr
      (leads.of_published hg (id_mem_ids he)) he
  · obtain ⟨d, hd, rfl⟩ := List.mem_map.1 (h.faces ▸ hx : x ∈ g.faces)
    have root : (published g).IsRoot d.id :=
      ⟨d, find?_of_mem (g := published g) hg.unique hd, concrete, .inl isPublic⟩
    refine face_mem (List.mem_filter.2 ⟨hd, ?_⟩)
    simpa using root_mem_reachableIds (g := published g) hg.unique hr root
  · rw [← h.aliasFaces]
    show (g.aliases.filter (·.isPublic)).map _ = (g.aliases.map _).filter _
    rw [List.filter_map]
    rfl

/-! ## Inlining -/

theorem findCandidate?_isNone {found : List (Nat × Definition)} {id : String} :
    (findCandidate? found id).isNone = true ↔ id ∉ found.map (·.2.id) := by
  simp [findCandidate?]

/-- The graph while its candidates are embedded in place. -/
def embedding (g : Graph) : Graph :=
  { g with
    nextMark := g.nextMark + (candidates g).length
    twins := g.twins.merge ((candidates g).map fun c => (c.2.id, c.1)) }

theorem exists_of_twin (alone : g.twins = []) {mark : Nat}
    (h : (embedding g).twins.get? id = some mark) :
    ∃ c ∈ candidates g, c.1 = mark ∧ c.2.id = id := by
  rcases Table.mem_merge (Table.mem_of_get? h) with hmem | hmem
  · rw [alone] at hmem
    cases hmem
  · obtain ⟨c, hc, e⟩ := List.mem_map.1 hmem
    obtain ⟨rfl, rfl⟩ := Prod.mk.inj e
    exact ⟨c, hc, rfl, rfl⟩

/-- While candidates are embedded, all definitions have marks of their own. -/
theorem marked_embedding_nodup (unique : g.ids.Nodup) (alone : g.twins = []) :
    ((embedding g).marked.map (·.1)).Nodup := by
  have below {id : String} {mark : Nat} (h : (embedding g).twins.get? id = some mark) :
      mark < (embedding g).nextMark := by
    obtain ⟨c, hc, rfl, -⟩ := exists_of_twin alone h
    exact (candidates_mark alone hc).2
  rw [List.nodup_iff_pairwise_ne, List.pairwise_iff_getElem]
  intro i j hi hj less same
  have hi' : i < g.definitions.length := by simpa [marked, embedding] using hi
  have hj' : j < g.definitions.length := by simpa [marked, embedding] using hj
  simp only [marked, List.getElem_map, List.getElem_zipIdx, Nat.zero_add, markAt] at same
  change ((embedding g).twins.get? g.definitions[i].id).getD _ =
    ((embedding g).twins.get? g.definitions[j].id).getD _ at same
  cases first : (embedding g).twins.get? g.definitions[i].id with
  | none =>
    cases second : (embedding g).twins.get? g.definitions[j].id with
    | none =>
      simp only [first, second, Option.getD_none] at same
      omega
    | some mark =>
      have := below second
      simp only [first, second, Option.getD_none, Option.getD_some] at same
      omega
  | some mark =>
    cases second : (embedding g).twins.get? g.definitions[j].id with
    | none =>
      have := below first
      simp only [first, second, Option.getD_none, Option.getD_some] at same
      omega
    | some mark' =>
      simp only [first, second, Option.getD_some] at same
      obtain ⟨c, hc, rfl, hi⟩ := exists_of_twin alone first
      obtain ⟨c', hc', rfl, hj⟩ := exists_of_twin alone second
      have ids : g.definitions[i].id = g.definitions[j].id := by
        rw [← hi, ← hj, candidates_coherent alone c hc c' hc' same]
      have apart := List.pairwise_iff_getElem.1 unique i j (by simpa [Graph.ids] using hi')
        (by simpa [Graph.ids] using hj') less
      exact apart (by simpa [Graph.ids] using ids)

theorem foldl_remove (found : List (Nat × Definition)) (g : Graph) :
    found.foldl (fun g c => g.remove c.2.id) g = { g with
      definitions := g.definitions.filter fun d => decide (d.id ∉ found.map (·.2.id))
      twins := g.twins.filter fun e => decide (e.1 ∉ found.map (·.2.id)) } := by
  induction found generalizing g with
  | nil => simp
  | cons c found ih =>
    rw [List.foldl_cons, ih]
    simp only [remove, Table.remove, List.filter_filter, List.map_cons, List.mem_cons, not_or,
      Bool.decide_and]
    congr 2
    · funext d
      rw [Bool.and_comm]
      by_cases e : d.id = c.2.id <;> simp [e]
    · funext x
      rw [Bool.and_comm]
      by_cases e : x.1 = c.2.id <;> simp [e]

/-- The faces that are left when candidates are taken out. -/
def rest (g : Graph) : List Face :=
  g.faces.filter fun x => decide (x.id ∉ (candidates g).map (·.2.id))

theorem faces_filter (g : Graph) (ids : List String) :
    (g.definitions.filter fun d => decide (d.id ∉ ids)).map Recipe.face =
      g.faces.filter fun x => decide (x.id ∉ ids) := by
  rw [faces, List.filter_map]
  rfl

/-- The recipes that are visited while candidates are embedded in place: each is looked up by its
identifier, and gets the candidates that it refers to. -/
def visits (g : Graph) (ds : List Definition) : List (Nat × Rule) :=
  ds.filterMap fun d => ((embedding g).marked.find? fun x => x.2.id == d.id).map fun x =>
    (x.1, shallowRule (candidates g))

theorem embedInPlace_none {others : List Definition}
    (h : embedInPlace (candidates g) others g = (none, g')) :
    ∃ g₂, (embedding g).reviseInPlace [] (g.visits (others ++ (candidates g).map (·.2))) =
        (none, g₂) ∧
      g' = ((candidates g).foldl (fun g c => g.remove c.2.id) g₂).after g₂ := by
  unfold embedInPlace at h
  dsimp only at h
  split at h
  next done => exact ⟨_, Prod.ext done rfl, (Prod.mk.inj h).2.symm⟩
  next => simp at h

theorem embedInPlace_some {others : List Definition} {e : Failure}
    (h : embedInPlace (candidates g) others g = (some e, g')) :
    ((embedding g).reviseInPlace [] (g.visits (others ++ (candidates g).map (·.2)))).1 =
      some e := by
  unfold embedInPlace at h
  dsimp only at h
  split at h
  · cases h
  next why revised =>
    obtain rfl := Option.some.inj (Prod.mk.inj h).1
    exact revised

theorem faces_embedInPlace (unique : g.ids.Nodup) (alone : g.twins = []) {others : List Definition}
    (h : embedInPlace (candidates g) others g = (none, g')) :
    g'.faces = g.rest ∧ g'.aliases = g.aliases ∧ g'.twins = [] := by
  obtain ⟨g₂, revised, rfl⟩ := embedInPlace_none h
  obtain ⟨same, frame⟩ := faces_reviseInPlace (marked_embedding_nodup unique alone) revised
  rw [foldl_remove]
  refine ⟨?_, ?_, ?_⟩
  · show (g₂.definitions.filter _).map Recipe.face = _
    rw [faces_filter, same]
    rfl
  · show g₂.aliases = g.aliases
    rw [frame]
    rfl
  · refine List.filter_eq_nil_iff.2 fun e he => ?_
    rw [frame] at he
    obtain ⟨c, hc, same⟩ : ∃ c ∈ candidates g, c.2.id = e.1 := by
      rcases Table.mem_merge (he : e ∈ g.twins.merge _) with he | he
      · rw [alone] at he
        cases he
      · obtain ⟨c, hc, rfl⟩ := List.mem_map.1 he
        exact ⟨c, hc, rfl⟩
    have taken : e.1 ∈ (candidates g).map (·.2.id) := List.mem_map.2 ⟨c, hc, same⟩
    simpa using taken

/-- When candidates are embedded they are taken out, and the others show what they showed. -/
theorem faces_embed (unique : g.ids.Nodup) (alone : g.twins = [])
    (h : embed (candidates g) g = (none, g')) :
    g'.faces = g.rest ∧ g'.aliases = g.aliases ∧ g'.twins = [] := by
  unfold embed at h
  dsimp only at h
  split at h
  · exact faces_embedInPlace unique alone h
  split at h
  case h_2 => simp at h
  next ds hds =>
    obtain ⟨_, -, revised⟩ := bind_eq_ok.1 hds
    have left : ds.map Recipe.face = g.rest := by
      have same := forall₂_map_eq.1 ((mapM_eq_ok.1 revised).imp fun d d' hd =>
        (Definition.revise_eq_ok.1 hd).face_eq.symm)
      rw [← same, rest, ← faces_filter]
      refine congrArg _ (List.filter_congr fun d _ => ?_)
      rw [Bool.eq_iff_iff, findCandidate?_isNone, decide_eq_true_iff]
    split at h
    all_goals
      obtain ⟨-, rfl⟩ := Prod.mk.inj h
      exact ⟨left, rfl, alone⟩

theorem Exposes.embed (h : Exposes g₀ g) (run : Pass.embed (candidates g) g = (none, g')) :
    Exposes g₀ g' := by
  obtain ⟨faces, aliases, alone⟩ := faces_embed h.unique h.alone run
  have subset : g'.faces ⊆ g.faces := faces ▸ (List.filter_sublist).subset
  refine ⟨?_, fun f hf => h.faces (subset hf), fun d hd => ?_,
    fun x hx isPublic concrete => ?_, ?_, alone⟩
  · rw [ids_eq_faces, faces]
    exact (List.filter_sublist.map _).nodup (g.ids_eq_faces ▸ h.unique)
  · obtain ⟨e, he, same⟩ := List.mem_map.1 (subset (face_mem hd))
    exact (congrArg (·.isAbstract) same).symm.trans (h.concrete e he)
  · have kept := h.kept x hx isPublic concrete
    rw [faces]
    refine List.mem_filter.2 ⟨kept, decide_eq_true ?_⟩
    rintro taken
    obtain ⟨c, hc, same⟩ := List.mem_map.1 taken
    obtain ⟨hd, candidate⟩ := mem_candidates h.alone hc
    have one : c.2.face = x :=
      List.inj_on_of_nodup_map (g.ids_eq_faces ▸ h.unique) (face_mem hd) kept same
    have isPrivate : x.isPublic = false :=
      (congrArg (·.isPublic) one).symm.trans candidate.isPublic
    exact Bool.noConfusion (isPublic.symm.trans isPrivate)
  · rw [Graph.aliasFaces, aliases]
    exact h.aliasFaces

theorem Exposes.inlineRounds {rounds : Nat} {u : Unit} (h : Exposes g₀ g)
    (run : Build.Gives (Pass.inlineRounds rounds) g u g') : Exposes g₀ g' := by
  induction rounds generalizing g with
  | zero =>
    obtain ⟨-, rfl⟩ := Build.gives_pure.1 run
    exact h
  | succ rounds ih =>
    obtain ⟨-, rfl⟩ | ⟨-, g₁, embedded, run⟩ := Pass.gives_inlineRounds run
    · exact h
    · exact ih (h.embed embedded) run

/-- Inlining shows what was shown. -/
theorem Exposes.inlineServices {u : Unit} (h : Exposes g₀ g)
    (run : Build.Gives Pass.inlineServices g u g') : Exposes g₀ g' := by
  obtain ⟨_, _, hg, run⟩ := Build.gives_bind run
  obtain ⟨rfl, rfl⟩ := Build.gives_graph.1 hg
  exact h.inlineRounds run

end Graph

end Wiring
