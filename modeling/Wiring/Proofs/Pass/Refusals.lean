import Mathlib.Data.List.MinMax
import Mathlib.Data.Prod.Lex
import Mathlib.Order.Nat
import Wiring.Proofs.Definition.InPlace
import Wiring.Proofs.Graph.Failing
import Wiring.Proofs.Graph.Snapshot
import Wiring.Proofs.Pass.Exposure
import Wiring.Proofs.Pass.Inlining

/-!
# What inlining fails with

No member of a collection is a candidate, but only the definitions of the graph are asked for their
collections, and not what is embedded in them. So a round fails where a candidate is a member of a
collection that is embedded already, and by nothing else. Where recipes are embedded in several places
it works in place; what it comes to is the same.
-/

namespace Wiring.Pass

open Graph Definition Argument

variable {p g g' : Graph} {c d q : Definition} {a b : Argument} {e : Failure} {m : Nat}

/-- The failure refuses to put something else than a reference into a collection of a private
service. -/
def Refuses (p : Graph) (e : Failure) : Prop :=
  ∃ tag service shown, e = .refused (.collectionMember tag service shown) ∧
    ∃ d ∈ p.definitions, d.id = service ∧ d.isPublic = false ∧
      ∃ members, .collection tag members ∈ d.allArguments

theorem not_mem_collected (h : isCandidate g c = true) : c.id ∉ collected g := by
  unfold isCandidate at h
  split at h
  · cases h
  next free =>
    intro mem
    have held : c.id ∈ pinned g := List.mem_append_left _ (List.mem_append_right _ mem)
    simp [held] at free

/-- The collections of the definitions themselves hold no candidates. -/
theorem findCandidate?_member (alone : g.twins = []) (hd : d ∈ g.definitions) {tag : String}
    {members : List Reference} (hm : .collection tag members ∈ d.allArguments) {r : Reference}
    (hr : r ∈ members) : findCandidate? (candidates g) r.id = none := by
  refine findCandidate?_eq_none.2 fun c hc same => ?_
  have hc := List.mem_map_of_mem (f := Prod.snd) hc
  rw [candidates_definitions alone] at hc
  refine not_mem_collected (List.mem_filter.1 hc).2 ?_
  exact List.mem_flatMap.2 ⟨d, hd, List.mem_flatMap.2 ⟨_, hm, List.mem_map.2 ⟨r, hr, same.symm⟩⟩⟩

/-- The failure names a collection that holds a candidate. -/
def Blocks (g : Graph) (e : Failure) : Prop :=
  ∃ tag service shown, e = .refused (.collectionMember tag service shown) ∧
    ∃ q ∈ g.parts, q.id = service ∧ ∃ members, .collection tag members ∈ q.allArguments ∧
      ∃ r ∈ members, findCandidate? (candidates g) r.id ≠ none

/-- Where a candidate is a member of a collection, the service of the collection is embedded. -/
theorem Blocks.refuses (blocks : Blocks g e) (h : Embedding p g) (hs : p.Sealed) : Refuses p e := by
  obtain ⟨tag, service, shown, rfl, q, hq, rfl, members, hm, r, hr, found⟩ := blocks
  obtain ⟨d, hd, hR⟩ := h.exists_origin hq hs.unique
  obtain ⟨hd, same⟩ := mem_of_find? hd
  obtain ⟨x, hx, grafted⟩ := forall₂_mem_right hR.allArguments hm
  rcases grafted with rfl | ⟨_, _, _, _, _, _, e⟩
  · refine ⟨tag, q.id, shown, rfl, d, hd, same, (h.hidden d hd fun there => found ?_).1, members, hx⟩
    obtain ⟨d', hd', same'⟩ := mem_ids.1 there
    obtain rfl := h.part_eq hs.unique (mem_parts_of_definition hd') hq (same'.trans same)
    exact findCandidate?_member h.alone hd' hm hr
  · cases e

/-! ## Definitions by themselves -/

section Layers

variable (hg : g.Layered)

include hg

/-- A rule that keeps all arguments but references to candidates fails for a collector at most. -/
theorem reviseOuter_blocks {rule : Rule} (hq : q ∈ g.parts) (ha : a ∈ q.allArguments)
    (others : ∀ a, a.isReference = false → rule a = .ok a)
    (fails : ∀ r ∈ a.direct, FailsBy (Blocks g) (rule (.reference r)))
    (makes : ∀ r, findCandidate? (candidates g) r.id = none →
      rule (.reference r) = .ok (.reference r)) :
    FailsBy (Blocks g) (reviseOuter rule q.id a) := by
  cases a with
  | reference r => exact fails r (List.mem_singleton.2 rfl)
  | inlined m r => exact .ok _
  | collection tag members =>
    refine .bind (reviseMembers_fails fun r hr => ⟨fails r hr, fun b hb => ?_⟩) fun _ _ => .ok _
    by_cases found : findCandidate? (candidates g) r.id = none
    · exact .inl ⟨r, Except.ok.inj (hb.symm.trans (makes r found))⟩
    · exact .inr ⟨tag, q.id, b.shown, rfl, q, hq, rfl, members, ha, r, hr, found⟩
  | mixture => cases plain_of_part hg hq q (self_mem_parts q) _ ha
  | _ => exact .of_ok ⟨_, others _ rfl⟩

theorem shallowRule_blocks (hq : q ∈ g.parts) (ha : a ∈ q.allArguments) :
    FailsBy (Blocks g) (reviseOuter (shallowRule (candidates g)) q.id a) := by
  refine reviseOuter_blocks hg hq ha (shallowRule_others _) (fun r _ => ?_) fun r none => ?_
  · unfold shallowRule
    dsimp only
    cases findCandidate? (candidates g) r.id <;> exact .ok _
  · simp only [shallowRule, none]

theorem deepRule_blocks (k : Nat) : ∀ d ∈ g.definitions,
    FailsBy (Blocks g) (revise (deepRule (candidates g) k) d) := by
  induction k with
  | zero => exact fun d hd => .of_ok ⟨d, revise_zero hg (mem_parts_of_definition hd)⟩
  | succ k ih =>
    refine fun d hd => Definition.revise_fails fun q hq a ha => ?_
    refine reviseOuter_blocks hg (mem_parts_of hd hq) ha (deepRule_others _ _)
      (fun r _ => ?_) fun r none => deepRule_none none _
    cases hf : findCandidate? (candidates g) r.id with
    | none => exact .of_ok ⟨_, deepRule_none hf _⟩
    | some c =>
      rw [deepRule]
      simp only [hf]
      exact .bind (ih c.2 (mem_candidates hg.alone (findCandidate?_some hf).1).1) fun _ _ => .ok _

theorem embedded_blocks : FailsBy (Blocks g) (Pass.embedded (candidates g) (others g)) := by
  refine .bind (.forM fun c hc => .discard (Definition.revise_fails fun q hq a ha => ?_)) fun _ _ =>
    .mapM fun d hd => deepRule_blocks hg _ d (List.mem_filter.1 hd).1
  exact shallowRule_blocks hg (mem_parts_of (mem_candidates hg.alone hc).1 hq) ha

end Layers

/-! ## In place -/

theorem mem_parts_of_pool {e : Nat × Definition} (he : e ∈ (embedding g).pool) : e.2 ∈ g.parts := by
  obtain ⟨d, hd, part⟩ := exists_owner he
  exact mem_parts_of (g := g) hd part

/-- Candidates lie in the pool under the marks that they get. -/
theorem candidate_mem_pool (hg : g.Layered) {e : Nat × Definition} (he : e ∈ candidates g) :
    e ∈ (embedding g).pool := by
  have hd := (mem_candidates hg.alone he).1
  obtain ⟨i, hi⟩ := List.mem_iff_getElem?.1 hd
  have twin : (embedding g).twins.get? e.2.id = some e.1 := by
    have named : e.2.id ∈ (embedding g).twins.names :=
      Table.mem_names_merge.2 (.inr (List.mem_map.2 ⟨_, List.mem_map_of_mem he, rfl⟩))
    obtain ⟨mark, hm⟩ := Table.exists_get? named
    obtain ⟨c, hc, rfl, same⟩ := exists_of_twin hg.alone hm
    obtain rfl := List.inj_on_of_nodup_map (candidates_ids_nodup hg.alone hg.unique) hc he same
    exact hm
  refine List.mem_append_left _ (List.mem_map.2 ⟨(e.2, i), ?_, ?_⟩)
  · exact List.mem_zipIdx_iff_getElem?.2 hi
  · show ((embedding g).markAt i e.2, e.2) = e
    rw [markAt, twin, Option.getD_some]

/-- An argument may become a candidate that it refers to. -/
def Shallow (g : Graph) (_ : Nat × Definition) (a b : Argument) : Prop :=
  b = a ∨ ∃ r m c, a = .reference r ∧ findCandidate? (candidates g) r.id = some (m, c) ∧
    b = .inlined m c

/-- What the rule that embeds candidates as they are makes of an argument. -/
def Settles (g : Graph) (e : Nat × Definition) (a b : Argument) : Prop :=
  reviseOuter (shallowRule (candidates g)) e.2.id a = .ok b

/-- Where all recipes are settled, no collection holds a candidate. -/
theorem clear_of_settled (settled : ∀ e ∈ (embedding g).pool, ∀ a ∈ e.2.allArguments,
    ∃ b, Settles g e a b) : Clear g := by
  rintro d hd r ⟨q, hq, tag, members, ha, hr⟩
  by_contra found
  obtain ⟨c, hc⟩ := Option.ne_none_iff_exists'.1 found
  obtain ⟨e, he, rfl⟩ : ∃ e ∈ (embedding g).pool, e.2 = q := by
    rcases List.mem_cons.1 hq with rfl | hq
    · obtain ⟨m, hm⟩ := exists_marked (g := embedding g) hd
      exact ⟨_, List.mem_append_left _ hm, rfl⟩
    · obtain ⟨e, he, rfl⟩ := List.mem_map.1 hq
      exact ⟨e, List.mem_append_right _ (List.mem_flatMap.2 ⟨d, hd, he⟩), rfl⟩
  obtain ⟨b, hb⟩ := settled e he _ ha
  obtain ⟨rs, hrs, -⟩ := bind_eq_ok.1 hb
  obtain ⟨s, -, hs⟩ :=
    forall₂_mem_left (reviseMembers_eq_ok.1 hrs) (List.mem_map_of_mem hr)
  simp [shallowRule, hc] at hs

/-- Candidates weigh less than what uses them, and what is embedded less than what it is embedded
in. -/
def weight (g : Graph) (rank : String → Nat) (q : Definition) : Nat ×ₗ Nat :=
  toLex (((nextOf g q).map fun e => rank e.2.id + 1).foldr max ⊥, q.embeddedCount)

section Pool

variable (hg : g.Layered)

include hg

/-- The rule that embeds candidates keeps the pool as it was at first, candidates apart. -/
theorem draws_shallow {rank : Nat → Nat}
    (falls : ∀ e ∈ (embedding g).pool, ∀ a ∈ e.2.allArguments, ∀ m r,
      Shallow g e a (.inlined m r) → rank m < rank e.1) :
    Pool.Draws (fun _ => True) (Blocks g) (shallowRule (candidates g)) (Shallow g) (Settles g) rank
      (embedding g).pool where
  falls e he _ a ha m r h := ⟨trivial, falls e he a ha m r h⟩
  stays e he m r ha b shallow := by
    rcases shallow with rfl | ⟨_, _, _, e, -⟩
    · exact ⟨r, rfl⟩
    · cases e
  fails e he _ a ha b shallow := by
    rcases shallow with rfl | ⟨r, m, c, rfl, hf, rfl⟩
    · exact shallowRule_blocks hg (mem_parts_of_pool he) ha
    · exact .ok _
  gives e he _ a ha b shallow c run := by
    rcases shallow with rfl | ⟨r, m, d, rfl, hf, rfl⟩
    · exact run
    · obtain rfl := Except.ok.inj run
      simp only [Settles, reviseOuter, shallowRule, hf]
  loose e he a ha b settles := by
    cases a with
    | reference r =>
      unfold Settles reviseOuter shallowRule at settles
      dsimp only at settles
      cases hf : findCandidate? (candidates g) r.id with
      | none =>
        rw [hf] at settles
        exact .inl (Except.ok.inj settles).symm
      | some c =>
        rw [hf] at settles
        exact .inr ⟨r, c.1, c.2, rfl, hf, (Except.ok.inj settles).symm⟩
    | inlined m r => exact .inl (Except.ok.inj settles).symm
    | collection tag members =>
      obtain ⟨rs, hrs, run⟩ := bind_eq_ok.1 settles
      obtain rfl := pure_eq_ok.1 run
      refine .inl (congrArg _ ?_)
      have same := reviseMembers_eq_ok.1 hrs
      rw [List.forall₂_map_left_iff] at same
      rw [← List.forall₂_eq_eq_eq]
      refine (same.imp fun _ _ hrs => ?_).flip
      unfold shallowRule at hrs
      dsimp only at hrs
      split at hrs
      · cases hrs
      · exact (Argument.reference.inj (Except.ok.inj hrs)).symm
    | mixture => cases plain_of_part hg (mem_parts_of_pool he) e.2 (self_mem_parts e.2) _ ha
    | _ => exact .inl (Except.ok.inj settles).symm

/-- When all definitions were visited, all recipes are settled. -/
theorem all_done {w : Pool.Progress} (closed : w.Closed (embedding g).pool)
    (done : ∀ v ∈ g.visits (others g ++ (candidates g).map (·.2)), w.Done v.1) :
    ∀ e ∈ (embedding g).pool, w.Done e.1 := by
  have marked : ∀ e ∈ (embedding g).marked, w.Done e.1 := fun e he => by
    have visited : e.2 ∈ others g ++ (candidates g).map (·.2) :=
      (definitions_perm hg.alone hg.unique).mem_iff.1 (mem_of_marked (g := embedding g) he)
    have unique : ((embedding g).marked.map (·.2.id)).Nodup := by
      have ids_eq := congrArg (List.map (·.id)) (embedding g).marked_definitions
      rw [List.map_map] at ids_eq
      exact ids_eq ▸ hg.unique
    have found : (embedding g).marked.find? (fun x => x.2.id == e.2.id) = some e :=
      find?_of_nodup unique he
    refine done (e.1, shallowRule (candidates g)) (List.mem_filterMap.2 ⟨e.2, visited, ?_⟩)
    rw [found]
    rfl
  exact all_revised closed marked

variable (hn : g.Stamped)

include hn

/-- While candidates are embedded in place, recipes with one mark are one and the same. -/
theorem pool_embedding_coherent : (embedding g).pool.Coherent := by
  refine .append (.of_nodup (marked_embedding_nodup hg.unique hg.alone)) hn.coherent
    fun e he f hf same => ?_
  obtain ⟨⟨d, i⟩, -, rfl⟩ := List.mem_map.1 he
  have := hn.fresh f hf
  have fresh : g.nextMark ≤ ((embedding g).twins.get? d.id).getD ((embedding g).nextMark + i) := by
    cases twin : (embedding g).twins.get? d.id with
    | none => exact Nat.le_add_right_of_le (Nat.le_add_right _ _)
    | some mark =>
      obtain ⟨c, hc, rfl, -⟩ := exists_of_twin hg.alone twin
      exact (candidates_mark hg.alone hc).1
  change ((embedding g).twins.get? d.id).getD ((embedding g).nextMark + i) = f.1 at same
  omega

/-- The marks of recipes are ranked so that what is embedded ranks below what it is embedded in. -/
theorem exists_mark_ranks : ∃ rank : Nat → Nat,
    (∀ e ∈ (embedding g).pool, rank e.1 < (embedding g).pool.length) ∧
      ∀ e ∈ (embedding g).pool, ∀ a ∈ e.2.allArguments, ∀ m r, Shallow g e a (.inlined m r) →
        rank m < rank e.1 ∧ ∃ q, (m, q) ∈ (embedding g).pool := by
  obtain ⟨rank, -, falling⟩ := exists_ranks hg
  have coherent := pool_embedding_coherent hg hn
  let weight (m : Nat) : Nat ×ₗ Nat :=
    (((embedding g).pool.lookup m).map (Pass.weight g rank)).getD (toLex (0, 0))
  let E (m m' : Nat) : Prop := ∃ e ∈ (embedding g).pool, e.1 = m ∧ ∃ a ∈ e.2.allArguments, ∃ r,
    Shallow g e a (.inlined m' r)
  have lands {e : Nat × Definition} (he : e ∈ (embedding g).pool) {a : Argument}
      (ha : a ∈ e.2.allArguments) {m : Nat} {r : Definition} (h : Shallow g e a (.inlined m r)) :
      ∃ q, (m, q) ∈ (embedding g).pool ∧ Pass.weight g rank q < Pass.weight g rank e.2 := by
    have part := mem_parts_of_pool he
    rcases h with rfl | ⟨x, m', c, rfl, hf, same⟩
    · have inside : (m, r) ∈ Definition.embedded e.2 :=
        Definition.mem_embedded.2 ⟨m, r, ha, .inl rfl⟩
      refine ⟨r, (embedding g).pool_whole _ he _ inside, Prod.Lex.toLex_lt_toLex.2 ?_⟩
      have fewer := embeddedCount_lt inside
      refine (List.max_le_of_forall_le _ _ fun k hk => ?_).lt_or_eq.imp_right (⟨·, fewer⟩)
      obtain ⟨y, hy, rfl⟩ := List.mem_map.1 hk
      exact List.le_max_of_le (List.mem_map_of_mem (nextOf_of_part (parts_of_inlined ha) hy)) le_rfl
    · obtain ⟨rfl, rfl⟩ := Argument.inlined.inj same
      have mem := (findCandidate?_some hf).1
      have used : (m, r) ∈ nextOf g e.2 := List.mem_filterMap.2
        ⟨x, mem_references.2 ⟨e.2, self_mem_parts e.2, _, ha, List.mem_singleton.2 rfl⟩, hf⟩
      refine ⟨r, candidate_mem_pool hg mem, Prod.Lex.toLex_lt_toLex.2 (.inl ?_)⟩
      have most : rank r.id + 1 ≤ ((nextOf g e.2).map fun e => rank e.2.id + 1).foldr max ⊥ :=
        List.le_max_of_le (List.mem_map_of_mem used) le_rfl
      refine Nat.lt_of_le_of_lt (List.max_le_of_forall_le _ _ fun k hk => ?_) most
      obtain ⟨y, hy, rfl⟩ := List.mem_map.1 hk
      exact falling r (mem_candidates hg.alone mem).1 y hy
  have falls (m m' : Nat) (h : E m m') : weight m' < weight m := by
    obtain ⟨e, he, rfl, a, ha, r, h⟩ := h
    obtain ⟨q, hq, less⟩ := lands he ha h
    simpa [weight, coherent.lookup he, coherent.lookup hq] using less
  obtain ⟨depth, bound, deeper⟩ := exists_rank (acyclic_of_falling weight falls)
    ((embedding g).pool.map (·.1))
  rw [List.length_map] at bound
  refine ⟨depth, fun e he => bound _ (List.mem_map_of_mem he), fun e he a ha m r h => ?_⟩
  obtain ⟨q, hq, -⟩ := lands he ha h
  exact ⟨deeper _ _ ⟨e, he, rfl, a, ha, r, h⟩ (List.mem_map_of_mem hq), q, hq⟩

/-- What revision in place comes to: it fails where a collection is in its way, and otherwise the
recipes that were visited are settled. -/
theorem reviseInPlace_spec {ds : List Definition} {failure : Option Failure}
    (result : (embedding g).reviseInPlace [] (g.visits ds) = (failure, g')) :
    (∀ e, failure = some e → Blocks g e) ∧ (failure = none → ∃ w pool,
      (∀ v ∈ g.visits ds, w.Done v.1) ∧ g' = (embedding g).settle pool ∧
        Pool.Drawn (Shallow g) (Settles g) (embedding g).pool w pool) := by
  obtain ⟨rank, bound, falls⟩ := exists_mark_ranks hg hn
  unfold reviseInPlace at result
  rw [List.append_nil] at result
  obtain ⟨rfl, rfl⟩ := Prod.mk.inj result
  have draws : ∀ v ∈ g.visits ds, rank v.1 < (embedding g).pool.depth ∧
      ∃ inside : Nat → Prop, inside v.1 ∧
        Pool.Draws inside (Blocks g) v.2 (Shallow g) (Settles g) rank (embedding g).pool := fun v hv => by
    obtain ⟨d, -, hv⟩ := List.mem_filterMap.1 hv
    obtain ⟨x, hx, rfl⟩ := Option.map_eq_some_iff.1 hv
    refine ⟨?_, _, trivial, draws_shallow hg fun e he a ha m r h => (falls e he a ha m r h).1⟩
    exact Nat.lt_succ_of_lt (bound x (List.mem_append_left _ (List.mem_of_find?_eq_some hx)))
  obtain ⟨fails, gives⟩ := Pool.reviseThese_spec rank (pool_embedding_coherent hg hn)
    (fun e _ a _ => .inl rfl) draws rfl
  refine ⟨fails, fun none => ?_⟩
  obtain ⟨w, done, drawn⟩ := gives none
  exact ⟨w, _, done, rfl, drawn⟩

theorem embedInPlace_blocks {others : List Definition}
    (failed : embedInPlace (candidates g) others g = (some e, g')) : Blocks g e :=
  (reviseInPlace_spec hg hn rfl).1 e (embedInPlace_some failed)

/-- What a mark means: its recipe with all candidates in it. -/
def meaning (g : Graph) (m : Nat) : Definition :=
  (((embedding g).pool.lookup m).map (whole g)).getD { id := "" }

theorem meaning_eq {x : Nat × Definition} (hx : x ∈ (embedding g).pool) :
    meaning g x.1 = whole g x.2 := by
  rw [meaning, (pool_embedding_coherent hg hn).lookup hx]
  rfl

/-- A settled argument has its candidates in it once marks are replaced by what they mean. -/
theorem relabel_settled (clear : Clear g) {x : Nat × Definition} (hx : x ∈ (embedding g).pool)
    (ha : a ∈ x.2.allArguments) (settles : Settles g x a b) {c : Argument}
    (revised : Argument.revise (deepRule (candidates g) (candidates g).length) x.2.id a = .ok c) :
    c = Pool.relabel (meaning g) b := by
  have part := mem_parts_of_pool hx
  cases a with
  | reference r =>
    change shallowRule (candidates g) (.reference r) = .ok b at settles
    change deepRule (candidates g) _ (.reference r) = .ok c at revised
    cases hf : findCandidate? (candidates g) r.id with
    | none =>
      simp only [shallowRule, hf] at settles
      rw [deepRule_none hf] at revised
      obtain rfl := Except.ok.inj settles
      exact (Except.ok.inj revised).symm
    | some e =>
      simp only [shallowRule, hf] at settles
      rw [deepRule_whole hg clear hf] at revised
      obtain rfl := Except.ok.inj settles
      rw [Pool.relabel, meaning_eq hg hn (candidate_mem_pool hg (findCandidate?_some hf).1)]
      exact (Except.ok.inj revised).symm
  | inlined m r =>
    obtain rfl := Except.ok.inj settles
    obtain ⟨r', hr, rfl⟩ := revise_inlined_eq_ok.1 revised
    have inside : (m, r) ∈ (embedding g).pool :=
      (embedding g).pool_whole _ hx _ (mem_embedded.2 ⟨m, r, ha, .inl rfl⟩)
    rw [whole_ok hg clear (mem_parts_of_pool inside)] at hr
    rw [Pool.relabel, meaning_eq hg hn inside, Except.ok.inj hr]
  | collection tag members =>
    have free : ∀ r ∈ members, findCandidate? (candidates g) r.id = none := fun r hr => by
      obtain ⟨d, hd, hq⟩ := mem_parts.1 part
      exact clear d hd r ⟨x.2, hq, tag, members, ha, hr⟩
    have settles := (reviseOuter_collection fun r hr => by
      simp only [shallowRule, free r hr]).symm.trans settles
    have revised := (reviseOuter_collection fun r hr => deepRule_none (free r hr) _).symm.trans
      revised
    obtain rfl := Except.ok.inj settles
    exact (Except.ok.inj revised).symm
  | mixture => cases plain_of_part hg part x.2 (self_mem_parts x.2) _ ha
  | _ =>
    obtain rfl := Except.ok.inj settles
    exact (Except.ok.inj ((deepRule_others _ _ _ rfl).symm.trans revised)).symm

/-- Settled recipes expand to whole definitions. -/
theorem settle_eq {w : Pool.Progress} {pool : Pool}
    (drawn : Pool.Drawn (Shallow g) (Settles g) (embedding g).pool w pool)
    (done : ∀ e ∈ (embedding g).pool, w.Done e.1) :
    Clear g ∧ ((embedding g).settle pool).definitions = g.definitions.map (whole g) := by
  obtain ⟨rank, bound, falls⟩ := exists_mark_ranks hg hn
  have settled : List.Forall₂ (fun e f => f.1 = e.1 ∧ Recipe.Revised (Settles g e) e.2 f.2)
      (embedding g).pool pool :=
    forall₂_imp_mem drawn.under fun e he f under => ⟨under.mark, under.done (done e he)⟩
  have clear : Clear g := clear_of_settled fun e he a ha => by
    obtain ⟨f, -, -, revised⟩ := forall₂_mem_left settled he
    obtain ⟨b, -, hb⟩ := forall₂_mem_left revised.allArguments ha
    exact ⟨b, hb⟩
  have coherent : pool.Coherent := fun f hf f' hf' same => by
    obtain ⟨e, he, mark, revised⟩ := forall₂_mem_right settled hf
    obtain ⟨e', he', mark', revised'⟩ := forall₂_mem_right settled hf'
    obtain rfl := pool_embedding_coherent hg hn e he e' he' (mark.symm.trans (same.trans mark'))
    have one := (revised.symm.comp revised').mono fun b c ⟨a, hb, hc⟩ =>
      Except.ok.inj ((hb : _ = _).symm.trans hc)
    exact Prod.ext same one.eq.symm
  have means : ∀ f ∈ pool, Recipe.Revised (fun b c => c = Pool.relabel (meaning g) b) f.2
      (meaning g f.1) := fun f hf => by
    obtain ⟨e, he, mark, revised⟩ := forall₂_mem_right settled hf
    have grows := revise_eq_ok.1 (whole_ok hg clear (mem_parts_of_pool he))
    rw [mark, meaning_eq hg hn he]
    refine ((revised.mono_mem fun a ha b hb => And.intro ha hb).symm.comp grows).mono ?_
    rintro b c ⟨a, ⟨ha, hb⟩, hc⟩
    exact relabel_settled hg hn clear he ha hb hc
  have lands : ∀ f ∈ pool, ∀ m r, .inlined m r ∈ f.2.allArguments →
      rank m < rank f.1 ∧ ∃ q, (m, q) ∈ pool := fun f hf m r hm => by
    obtain ⟨e, he, under⟩ := forall₂_mem_right drawn.under hf
    obtain ⟨a, ha, shallow⟩ := forall₂_mem_right under.revised.allArguments hm
    obtain ⟨lower, q, hq⟩ := falls e he a ha m r shallow
    obtain ⟨f', hf', under'⟩ := forall₂_mem_left drawn.under hq
    obtain rfl : f'.1 = m := under'.mark
    exact ⟨under.mark ▸ lower, f'.2, hf'⟩
  refine ⟨clear, ?_⟩
  have expands : ∀ e ∈ (embedding g).marked,
      pool.expandDefinition ((pool.lookup e.1).getD e.2) = whole g e.2 := fun e he => by
    have he := List.mem_append_left (embedding g).embedded he
    obtain ⟨f, hf, mark, -⟩ := forall₂_mem_left settled he
    rw [← mark, coherent.lookup hf, Option.getD_some,
      Pool.expandDefinition_eq coherent lands means hf ?low, mark, meaning_eq hg hn he]
    case low =>
      intro f hf
      obtain ⟨e, he, mark, -⟩ := forall₂_mem_right settled hf
      have := bound e he
      rw [mark, Pool.depth, ← settled.length_eq]
      omega
  have definitions_eq := congrArg (List.map (whole g)) (embedding g).marked_definitions
  rw [List.map_map] at definitions_eq
  exact (List.map_congr_left expands).trans definitions_eq

/-- In place, a round embeds what it embeds in definitions by themselves. -/
theorem round_of_embedInPlace (run : embedInPlace (candidates g) (others g) g = (none, g')) :
    Round g g' := by
  have alone := (faces_embedInPlace hg.unique hg.alone run).2.2
  obtain ⟨g₂, revised, rfl⟩ := embedInPlace_none run
  obtain ⟨w, pool, visited, rfl, drawn⟩ := (reviseInPlace_spec hg hn revised).2 rfl
  obtain ⟨clear, definitions_eq⟩ := settle_eq hg hn drawn (all_done hg drawn.closed visited)
  rw [foldl_remove] at alone ⊢
  refine ⟨clear, ?_, rfl, rfl, rfl, alone⟩
  show ((embedding g).settle pool).definitions.filter _ = _
  rw [definitions_eq, List.filter_map]
  refine congrArg _ (List.filter_congr fun d hd => ?_)
  rw [Function.comp_apply, (whole_revised hg clear (mem_parts_of_definition hd)).id_eq,
    Bool.eq_iff_iff, findCandidate?_isNone, decide_eq_true_iff]

/-! ## Rounds -/

/-- A round fails where a collection that is embedded holds a candidate. -/
theorem embed_blocks (failed : embed (candidates g) g = (some e, g')) : Blocks g e := by
  unfold embed at failed
  dsimp only at failed
  split at failed
  · exact embedInPlace_blocks hg hn failed
  split at failed
  · split at failed <;> cases failed
  next why run =>
    obtain rfl := Option.some.inj (Prod.mk.inj failed).1
    cases inPlace : (embedInPlace (candidates g) (others g) g).1 with
    | none => exact embedded_blocks hg why run
    | some e => exact embedInPlace_blocks hg hn (Prod.ext inPlace rfl)

/-- If a round does not fail, the candidates are embedded. -/
theorem round_of_embed (some : candidates g ≠ []) (run : embed (candidates g) g = (none, g')) :
    Round g g' := by
  cases shared : g.isShared with
  | false => exact round_of_embedded hg shared some run
  | true =>
    unfold embed at run
    rw [if_pos shared] at run
    exact round_of_embedInPlace hg hn run

end Pool

/-- Inlining fails where a service that is used once is a member of a collection that is embedded
already. -/
theorem inlineServices_refuses (hs : p.Sealed) (flat : p.Flat) :
    Build.FailsBy (Refuses p) inlineServices p :=
  (inlineServices_ends (I := Embedding p) (fun _ h => (h.toSealed hs flat).plain)
    (fun _ h some => ⟨fun _ _ failed =>
      (embed_blocks (h.toSealed hs flat).toLayered h.stamped failed).refuses h hs,
      fun _ he => embedding_embed h hs flat some he⟩)
    (.refl flat hs.alone)).1

end Wiring.Pass
