import Wiring.Proofs.Builder.Workshop
import Wiring.Proofs.Graph.Matched

/-!
# Inlining in another order

Rounds of inlining on graphs that differ in order and marks have the same candidates, marks apart,
and embed them in the same places. So what comes of them differs in order and marks again.
-/

namespace Wiring.Pass

open Graph Definition Argument

variable {p p' g g' g₁ : Graph} {d d' : Definition} {id : String}

/-! ## Candidates -/

/-- A candidate is a definition that can be embedded. -/
theorem findCandidate?_candidates (alone : g.twins = []) (unique : g.ids.Nodup) (id : String) :
    (findCandidate? (candidates g) id).map (·.2) = (g.find? id).filter (isCandidate g) := by
  cases hf : findCandidate? (candidates g) id with
  | some e =>
    obtain ⟨he, rfl⟩ := findCandidate?_some hf
    have mem := List.mem_map_of_mem (f := Prod.snd) he
    rw [candidates_definitions alone] at mem
    obtain ⟨hd, candidate⟩ := List.mem_filter.1 mem
    have found := find?_of_mem unique hd
    dsimp only at found candidate
    rw [found, Option.map_some, Option.filter_some, if_pos candidate]
  | none =>
    refine Eq.symm (Option.eq_none_iff_forall_ne_some.2 fun d hd => ?_)
    obtain ⟨hd, candidate⟩ := Option.filter_eq_some_iff.1 hd
    obtain ⟨hmem, rfl⟩ := mem_of_find? hd
    have mem : d ∈ (candidates g).map (·.2) := by
      rw [candidates_definitions alone]
      exact List.mem_filter.2 ⟨hmem, candidate⟩
    obtain ⟨e, he, rfl⟩ := List.mem_map.1 mem
    exact findCandidate?_eq_none.1 hf e he rfl

section Candidates

variable (h : Matched g g') (tidy : g.Tidy) (tidy' : g'.Tidy)

include h tidy tidy'

theorem findCandidate?_rel (id : String) : Option.Rel (fun e e' => Definition.Alike e.2 e'.2)
    (findCandidate? (candidates g) id) (findCandidate? (candidates g') id) := by
  have rel := optionRel_filter (h.find?_rel tidy id) fun d d' hd => (h.isCandidate_eq hd).symm
  rw [← findCandidate?_candidates tidy.alone tidy.unique,
    ← findCandidate?_candidates tidy'.alone tidy'.unique] at rel
  generalize findCandidate? (candidates g) id = x, findCandidate? (candidates g') id = y at rel
  cases x <;> cases y <;> cases rel
  · exact .none
  · exact .some ‹_›

theorem candidates_length : (candidates g').length = (candidates g).length := by
  obtain ⟨s, shuffled, alike⟩ := id h
  have left := congrArg List.length (candidates_definitions tidy.alone)
  have right := congrArg List.length (candidates_definitions tidy'.alone)
  rw [List.length_map] at left right
  rw [left, right, (shuffled.definitions.filter _).length_eq]
  exact (forall₂_filter alike.definitions fun d d' hd => (h.isCandidate_eq hd).symm).length_eq.symm

theorem deepRule_tracks (k : Nat) :
    Tracks (deepRule (candidates g) k) (deepRule (candidates g') k) := by
  induction k with
  | zero =>
    intro a b hb
    rw [deepRule_zero] at hb
    exact ⟨a, deepRule_zero _ a, congrArg _ (Except.ok.inj hb)⟩
  | succ k ih =>
    intro a b hb
    cases a with
    | reference r =>
      have rel := findCandidate?_rel h tidy tidy' r.id
      cases hf : findCandidate? (candidates g) r.id with
      | none =>
        rw [hf] at rel
        rw [deepRule_none hf] at hb
        cases hf' : findCandidate? (candidates g') r.id with
        | none => exact ⟨_, deepRule_none hf' _, congrArg _ (Except.ok.inj hb)⟩
        | some e' =>
          rw [hf'] at rel
          cases rel
      | some e =>
        rw [hf] at rel
        cases hf' : findCandidate? (candidates g') r.id with
        | none =>
          rw [hf'] at rel
          cases rel
        | some e' =>
          rw [hf'] at rel
          cases rel with
          | some alike =>
            obtain ⟨c, hc, rfl⟩ := (deepRule_some hf).1 hb
            obtain ⟨c', hc', alike'⟩ := Definition.Alike.exists_revise alike ih hc
            refine ⟨_, (deepRule_some hf').2 ⟨c', hc', rfl⟩, ?_⟩
            rw [unmarked_inlined, unmarked_inlined, show unmarked c' = unmarked c from alike']
    | _ => exact ⟨b, hb, rfl⟩

theorem shallowRule_tracks : Tracks (shallowRule (candidates g)) (shallowRule (candidates g')) := by
  intro a b hb
  cases a with
  | reference r =>
    have rel := findCandidate?_rel h tidy tidy' r.id
    simp only [shallowRule] at hb ⊢
    generalize findCandidate? (candidates g) r.id = x, findCandidate? (candidates g') r.id = y at rel hb
    cases rel with
    | none => exact ⟨b, hb, rfl⟩
    | @some e e' same =>
      obtain rfl := Except.ok.inj hb
      refine ⟨_, rfl, ?_⟩
      rw [unmarked_inlined, unmarked_inlined, show unmarked e'.2 = unmarked e.2 from same]
  | _ => exact ⟨b, hb, rfl⟩

/-- What can be embedded in the one graph can be in the other, up to order and marks. -/
theorem embedded_matched {ds : List Definition}
    (run : embedded (candidates g) (others g) = .ok ds) :
    ∃ ds' es, embedded (candidates g') (others g') = .ok ds' ∧ ds.Perm es ∧
      List.Forall₂ Definition.Alike es ds' := by
  obtain ⟨_, shallow, deep⟩ := bind_eq_ok.1 run
  have shallow := forM_eq_ok.1 shallow
  have shallow' : (candidates g').forM (fun e =>
      discard (Definition.revise (shallowRule (candidates g')) e.2)) = .ok () := by
    refine forM_eq_ok.2 fun e' he' => ?_
    have found' := findCandidate?_of_mem tidy'.alone tidy'.unique he'
    have rel := findCandidate?_rel h tidy tidy' e'.2.id
    rw [found'] at rel
    cases hf : findCandidate? (candidates g) e'.2.id with
    | none =>
      rw [hf] at rel
      cases rel
    | some e =>
      rw [hf] at rel
      cases rel with
      | some alike =>
        obtain ⟨c, hc⟩ := discard_eq_ok.1 (shallow e (findCandidate?_some hf).1)
        obtain ⟨c', hc', -⟩ :=
          Definition.Alike.exists_revise alike (shallowRule_tracks h tidy tidy') hc
        exact discard_eq_ok.2 ⟨c', hc'⟩
  obtain ⟨s, shuffled, alike⟩ := id h
  let left (d : Definition) : Bool := (findCandidate? (candidates g) d.id).isNone
  have same : List.Forall₂ Definition.Alike (s.definitions.filter left) (others g') :=
    forall₂_filter alike.definitions fun d d' hd => by
      have rel := findCandidate?_rel h tidy tidy' d.id
      simp only [left, hd.id_eq]
      generalize findCandidate? (candidates g) d.id = x, findCandidate? (candidates g') d.id = y at rel
      cases rel <;> rfl
  obtain ⟨es, revised, perm⟩ := forall₂_perm (mapM_eq_ok.1 deep) (shuffled.definitions.filter left)
  have tracks := deepRule_tracks h tidy tidy' (candidates g).length
  obtain ⟨ds', revised', alike'⟩ := forall₂_split <| (forall₂_comp same.flip revised).imp
    fun d' e ⟨d, hd, he⟩ => show ∃ e', _ ∧ Definition.Alike e e' from Definition.Alike.exists_revise hd tracks he
  refine ⟨ds', es, bind_eq_ok.2 ⟨(), shallow', mapM_eq_ok.2 ?_⟩, perm, alike'.flip⟩
  rw [candidates_length h tidy tidy']
  exact revised'

end Candidates

/-! ## Rounds -/

/-- A round can be made where what it embeds can be. -/
theorem embed_does {ds : List Definition} (alone : g.isShared = false)
    (run : embedded (candidates g) (others g) = .ok ds) :
    ∃ g', embed (candidates g) g = (none, g') ∧ g'.definitions = ds ∧ g'.aliases = g.aliases ∧
      g'.twins = g.twins := by
  unfold embed
  simp only [alone, Bool.false_eq_true, if_false]
  rw [run]
  dsimp only
  split
  · exact ⟨_, rfl, rfl, rfl, rfl⟩
  · exact ⟨_, rfl, rfl, rfl, rfl⟩

theorem inlineRounds_matched (hs : p.Sealed) (flat : p.Flat) (hs' : p'.Sealed) (flat' : p'.Flat)
    {rounds : Nat} (embedding : Embedding p g) (embedding' : Embedding p' g') (h : Matched g g')
    (run : Build.Gives (inlineRounds rounds) g () g₁) :
    ∃ g₁', Build.Does (inlineRounds rounds) g' () g₁' ∧ Matched g₁ g₁' := by
  induction rounds generalizing g g' with
  | zero =>
    obtain ⟨-, rfl⟩ := Build.gives_pure.1 run
    exact ⟨g', .pure (), h⟩
  | succ rounds ih =>
    have hg := embedding.toSealed hs flat
    have hg' := embedding'.toSealed hs' flat'
    have references : g'.definitions.forM requireReferences = .ok () :=
      forM_eq_ok.2 fun d hd => requireReferences_ok (hg'.plain d hd)
    have count := candidates_length h hg.toTidy hg'.toTidy
    obtain ⟨none, rfl⟩ | ⟨some, g₂, change, run⟩ := gives_inlineRounds run
    · rw [none] at count
      refine ⟨g', .bind .graph (.bind (.check references) (.bind .graph ?_)), h⟩
      rw [List.length_eq_zero_iff.1 count]
      exact .pure ()
    · have some' : candidates g' ≠ [] := fun none => some <| by
        rw [none] at count
        exact List.length_eq_zero_iff.1 count.symm
      obtain ⟨ds, former, hds, rfl⟩ := embed_ok embedding.isShared_eq_false change
      obtain ⟨ds', es, hds', perm, alike⟩ := embedded_matched h hg.toTidy hg'.toTidy hds
      obtain ⟨g₂', change', rfl, aliases, twins⟩ := embed_does embedding'.isShared_eq_false hds'
      have matched : Matched { g with
          definitions := ds
          nextMark := g.nextMark + (candidates g).length
          former } g₂' :=
        .of_definitions perm alike (aliases ▸ h.aliases) (twins.trans (hg'.alone.trans hg.alone.symm))
      obtain ⟨g₁', does, matched⟩ := ih (embedding_embed embedding hs flat some change).1
        (embedding_embed embedding' hs' flat' some' change').1 matched run
      refine ⟨g₁', .bind .graph (.bind (.check references) (.bind .graph ?_)), matched⟩
      rw [if_neg (mt List.isEmpty_iff.1 some')]
      exact .bind (.changeOrFail change') (.bind (.forM fun _ _ => .note _) does)

/-- Inlining makes of a graph what it makes of it in another order, up to order and marks. -/
theorem inlineServices_shuffled (h : Shuffled g g') (hg : g.Sealed) (flat : g.Flat) (hg' : g'.Sealed)
    (run : Build.Gives inlineServices g () g₁) :
    ∃ g₁', Build.Does inlineServices g' () g₁' ∧ Matched g₁ g₁' := by
  obtain ⟨_, _, hgraph, run⟩ := Build.gives_bind run
  obtain ⟨rfl, rfl⟩ := Build.gives_graph.1 hgraph
  have flat' := h.flat flat
  obtain ⟨g₁', does, matched⟩ := inlineRounds_matched hg flat hg' flat' (.refl flat hg.alone)
    (.refl flat' hg'.alone) (.of_shuffled h) run
  refine ⟨g₁', .bind .graph ?_, matched⟩
  rwa [← h.definitions.length_eq]

end Wiring.Pass
