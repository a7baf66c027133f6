import Wiring.Proofs.Graph.Failing
import Wiring.Proofs.Parameter.Resolution
import Wiring.Proofs.Pass.Aliases
import Wiring.Proofs.Pass.Autowiring
import Wiring.Proofs.Pass.Checks
import Wiring.Proofs.Pass.Collections
import Wiring.Proofs.Pass.Parameters
import Wiring.Proofs.Pass.Removal
import Wiring.Proofs.Pass.Templates
import Wiring.Proofs.Value.Same

/-!
# What passes fail with

On graphs of what an application can register every pass up to removal fails with a fault, but for
the resolution of parameters, which may fail over a key as well. What would fail otherwise is
excluded by the state that the passes before it leave behind.
-/

namespace Wiring

open Graph

variable {g g' : Graph} {id : String} {d : Definition}

namespace Pass

/-! ## Parameters -/

theorem parameterRule_mild (resolved : Table Value) (service : String) :
    (parameterRule resolved service).Mild Failure.IsFault where
  fails a := by
    cases a with
    | parameter name =>
      simp only [parameterRule]
      split
      · exact .ok _
      · exact .error (Failure.isFault _ _)
    | _ => exact .ok _
  flat a b flat h := by
    cases a with
    | parameter name =>
      simp only [parameterRule] at h
      split at h
      · exact Except.ok.inj h ▸ rfl
      · cases h
    | _ => exact Except.ok.inj h ▸ flat
  references r b h := ⟨r, (Except.ok.inj h).symm⟩

theorem resolveParameters_fails (flat : g.Flat) (alone : g.twins = []) :
    Build.FailsBy (Bag.Mishap g.parameters.raw) resolveParameters g := by
  refine .bind (.graph_bind (.check_bind (Bag.resolveAll_fails _) fun _ _ =>
    .bind .change fun _ _ _ => .pure _)) fun resolved g₁ frozen => ?_
  obtain ⟨_, _, hg, frozen⟩ := Build.gives_bind frozen
  obtain ⟨rfl, rfl⟩ := Build.gives_graph.1 hg
  obtain ⟨⟨bag, _⟩, _, hc, frozen⟩ := Build.gives_bind frozen
  obtain ⟨-, rfl⟩ := Build.gives_check.1 hc
  obtain ⟨_, _, hb, frozen⟩ := Build.gives_bind frozen
  obtain rfl := Build.gives_change.1 hb
  obtain ⟨-, rfl⟩ := Build.gives_pure.1 frozen
  refine .changeOrFail fun e g' failed => .inl ?_
  exact reviseAll_fails (g := { g with parameters := bag }) alone flat
    (fun d _ => parameterRule_mild resolved d.id) failed

/-! ## Templates -/

/-- The labels of a definition are tags, and its capabilities can be keys. -/
def Presentable (d : Definition) : Prop := (∀ l ∈ d.tags, l.IsTag) ∧ Definition.Hashable d

theorem inherited_presentable : Inherited Presentable := fun _ _ hp hc =>
  ⟨fun l hl => (Recipe.mem_inherit_tags hl).elim (hp.1 l) (hc.1 l), fun v hv =>
    (List.mem_append.1 (Value.mem_distinct hv)).elim (hp.2 v) (hc.2 v)⟩

theorem Presentable.mergeable {parent child : Definition} (hp : Presentable parent)
    (hc : Presentable child) : Mergeable parent child where
  named := forM_eq_ok.2 fun l hl => by
    obtain ⟨t, rfl, -⟩ := (List.mem_append.1 hl).elim (hc.1 l) (hp.1 l)
    rfl
  hashable := List.findSome?_eq_none_iff.2 fun v hv =>
    (List.mem_append.1 hv).elim (hp.2 v) (hc.2 v)

theorem mergeParent_fails {parentId : String} {parent child : Definition}
    (h : Mergeable parent child) :
    Build.FailsBy Failure.IsFault (mergeParent parentId parent child) g := by
  refine .check_bind (.of_ok ⟨(), h.named⟩) fun _ _ => ?_
  rw [h.hashable]
  exact .bind .change fun _ _ _ => .note

section Expansion

variable {g₀ : Graph} {chain ended : List String} {α β : Type}

/-- The expansion fails by `E` on a graph, whatever is expanded already. -/
def Fails (E : Failure → Prop) (x : Expansion α) (g : Graph) : Prop :=
  ∀ ended, Build.FailsBy E (x.run ended) g

variable {E : Failure → Prop}

theorem Fails.bind {x : Expansion α} {f : α → Expansion β} (hx : Fails E x g)
    (hf : ∀ a ended mid g₁, Build.Gives (x.run ended) g (a, mid) g₁ →
      Build.FailsBy E ((f a).run mid) g₁) : Fails E (x >>= f) g := by
  intro ended
  rw [StateT.run_bind]
  exact .bind (hx ended) fun a g₁ run => hf a.1 ended a.2 g₁ run

theorem Fails.throw {e : Failure} (h : E e) : Fails E (throw e : Expansion α) g := fun _ => .throw h

theorem Fails.lift {job : Build α} (h : Build.FailsBy E job g) :
    Fails E (liftM job : Expansion α) g :=
  fun _ => .bind h fun _ _ _ => .pure _

theorem expandAfter_fails {above : List String → Definition → Expansion Unit}
    (h : Expanding Presentable g₀ g) (hd : Presentable d)
    (fails : ∀ parent ∈ g.definitions, d.id ∉ chain →
      Fails Failure.IsFault (above (chain ++ [d.id]) parent) g)
    (keeps : ∀ parent ended ended' g₁,
      Build.Gives ((above (chain ++ [d.id]) parent).run ended) g ((), ended') g₁ →
        Expanding Presentable g₀ g₁) :
    Fails Failure.IsFault (expandAfter above chain d) g := by
  unfold expandAfter
  cases d.parent with
  | none => exact fun _ => .pure _
  | some parentName =>
    refine Fails.bind (fun _ => .pure _) fun known ended mid g₁ run => ?_
    obtain ⟨-, rfl⟩ := Build.gives_pure.1 run
    split
    · exact .pure _
    split
    · exact Fails.bind (.throw (Failure.isFault _ _)) (fun _ _ _ _ run =>
        absurd run expansion_throw) _
    next apart =>
    refine Fails.bind (.lift (.graph_bind (.pure g))) (fun g' ended mid g₁ run => ?_) _
    obtain ⟨rfl, rfl⟩ := Build.gives_graph.1 (expansion_lift run).1
    refine Fails.bind (.lift (.check ((resolveAlias_fails _)))) (fun parentId ended mid g₁ run => ?_) _
    obtain ⟨leads, rfl⟩ := Build.gives_check.1 (expansion_lift run).1
    cases hf : g.find? parentId with
    | none => exact Fails.throw (Failure.isFault _ _) _
    | some parent =>
      have there := (mem_of_find? hf).1
      refine Fails.bind (fails parent there (by simpa using apart)) (fun _ ended mid g₁ run => ?_) _
      have h₁ := keeps parent ended mid g₁ run
      refine Fails.bind (.lift (.graph_bind (.pure g₁))) (fun g' ended mid g₂ run => ?_) _
      obtain ⟨rfl, rfl⟩ := Build.gives_graph.1 (expansion_lift run).1
      have expanded : Presentable ((g₁.find? parentId).getD parent) := by
        cases h₁f : g₁.find? parentId with
        | none => exact h.each parent there
        | some p => exact h₁.each p (mem_of_find? h₁f).1
      exact Fails.bind (.lift (mergeParent_fails (expanded.mergeable hd)))
        (fun _ _ _ _ _ => .pure _) _

theorem expandFrom_fails (alone : g₀.twins = []) {depth : Nat} (h : Expanding Presentable g₀ g)
    (hd : Presentable d) (there : d.id ∈ g₀.ids) (nodup : chain.Nodup) (inside : chain ⊆ g₀.ids)
    (room : g₀.definitions.length ≤ depth + chain.length) :
    Fails Failure.IsFault (expandFrom depth chain d) g := by
  induction depth generalizing chain d g with
  | zero =>
    refine expandAfter_fails h hd (fun parent _ apart => ?_)
      fun _ _ _ _ run => absurd run expansion_throw
    -- a chain of all definitions leaves none of them out
    have few := length_lt_of_push nodup inside apart there
    rw [ids, List.length_map] at few
    omega
  | succ depth ih =>
    refine expandAfter_fails h hd (fun parent hp apart => ?_) fun _ _ _ _ run =>
      h.from alone inherited_presentable run
    refine ih h (h.each parent hp) (h.place.ids_eq ▸ id_mem_ids hp) (nodup_push nodup apart)
      (push_subset inside there) ?_
    rw [List.length_append, List.length_singleton]
    omega

/-- Expansion fails with a fault: a parent that is missing, or that extends its child. -/
theorem expandTemplates_fails (alone : g.twins = []) (h : ∀ d ∈ g.definitions, Presentable d) :
    Build.FailsBy Failure.IsFault expandTemplates g := by
  have single (id : String) {g₁ : Graph} (h : Expanding Presentable g g₁) :
      Fails Failure.IsFault (expand g.definitions.length id) g₁ := by
    refine Fails.bind (.lift (.graph_bind (.pure g₁))) fun g' ended mid g₂ run => ?_
    obtain ⟨rfl, rfl⟩ := Build.gives_graph.1 (expansion_lift run).1
    cases hf : g₁.find? id with
    | none => exact .pure _
    | some d =>
      have there := (mem_of_find? hf).1
      exact expandFrom_fails alone h (h.each d there) (h.place.ids_eq ▸ id_mem_ids there) .nil
        (by simp) (by simp) mid
  have all (todo : List String) : ∀ g₁, Expanding Presentable g g₁ →
      Fails Failure.IsFault (todo.forM (expand g.definitions.length)) g₁ := by
    induction todo with
    | nil => exact fun _ _ _ => .pure _
    | cons id todo ih =>
      intro g₁ h
      rw [forM_cons]
      exact Fails.bind (single id h) fun _ ended mid g₂ run =>
        ih g₂ (h.single alone inherited_presentable run) mid
  exact .graph_bind (.discard (all g.ids g ⟨.refl fun _ => rfl, h⟩ []))

end Expansion

end Pass

/-! ## Tags -/

namespace TagIndex

variable {index : TagIndex} {rules : List TagRule}

theorem addInferred_succeeds {labels : List Label} (h : ∀ l ∈ labels, l.IsTag) (tag : Tag) :
    ∃ tags, addInferred labels tag = .ok tags := by
  obtain ⟨names, hn⟩ : ∃ names, labels.mapM Label.name = .ok names :=
    mapM_succeeds.2 fun l hl => by
      obtain ⟨t, rfl, -⟩ := h l hl
      exact ⟨t.name, rfl⟩
  unfold addInferred
  rw [hn, ok_bind]
  split
  · refine mapM_succeeds.2 fun l hl => ?_
    obtain ⟨t, rfl, -⟩ := h l hl
    show ∃ l', (if t.name == tag.name then .ok (.tag (t.mergedWith tag)) else .ok (.tag t) :
      Except Failure Label) = .ok l'
    split
    · exact ⟨_, rfl⟩
    · exact ⟨_, rfl⟩
  · exact ⟨_, rfl⟩

theorem inferTag_fails (tidy : g.Tidy) (id : String) (tag : Tag) :
    Build.FailsBy Failure.IsFault (inferTag id tag) g := by
  have labels : ∀ l ∈ ((g.find? id).map (·.tags)).getD [], l.IsTag := by
    cases hf : g.find? id with
    | none => simp
    | some d => exact tidy.labels d (mem_of_find? hf).1
  refine .graph_bind (.check_bind (.of_ok (addInferred_succeeds labels tag)) fun tags _ => ?_)
  split
  · exact .bind .note fun _ _ _ => .change
  · exact .change

theorem autoconfigure_fails (sound : Sound rules) (tidy : g.Tidy) (hashable : Definition.Hashable d) :
    Build.FailsBy Failure.IsFault (autoconfigure rules d) g := by
  refine .check_bind (.of_ok hashable.provides) fun provided _ => ?_
  refine .forM (fun _ g₁ => Changed Retagged g g₁) (.refl .refl) fun done e rest g₁ split inv => ?_
  refine ⟨inferTag_fails (Retagged.tidy tidy inv) d.id e.2, fun g₂ run => ?_⟩
  have he : (e.1, e.2) ∈ inferred rules provided := by simp [split]
  exact inv.trans (inferTag_spec (Retagged.tidy tidy inv) (inferred_nodup sound he) run) .trans

/-- A priority that is no number is reported for the service. -/
theorem entryOf_fails {l : Label} (h : l.IsTag) : FailsBy Failure.IsFault (entryOf d l) := by
  obtain ⟨t, rfl, -⟩ := h
  refine .bind (.ok t) fun t' ht => ?_
  obtain rfl := Except.ok.inj ht
  refine .bind ?_ fun _ _ => .ok _
  unfold Tag.priority
  split
  · exact .ok _
  · exact .ok _
  · exact .error (Failure.isFault _ _)

theorem gather_fails {ds : List Definition} (h : ∀ d ∈ ds, ∀ l ∈ d.tags, l.IsTag) :
    FailsBy Failure.IsFault (gather ds) := by
  refine .foldlM fun d hd found => .bind (.foldlM fun l hl best => ?_) fun _ _ => .ok _
  refine .bind (entryOf_fails (h d (List.mem_filter.1 hd).1 l hl)) fun e _ => ?_
  dsimp only
  split
  · exact .ok _
  · exact .ok _

/-- A rebuild fails with a fault: a priority that is no number. -/
theorem rebuild_fails (sound : Sound index.rules) (tidy : g.Tidy) (hashable : g.Hashable) :
    Build.FailsBy Failure.IsFault index.rebuild g := by
  refine .graph_bind (.bind (.forM (fun _ g₁ => Changed Retagged g g₁) (.refl .refl)
    fun done d rest g₁ split inv => ?_) fun _ g₁ run => ?_)
  · have hd : d ∈ g.definitions.filter fun d => !d.isAbstract := by simp [split]
    have tidy := Retagged.tidy tidy inv
    exact ⟨autoconfigure_fails sound tidy (hashable d (List.mem_filter.1 hd).1), fun g₂ run =>
      inv.trans (autoconfigure_spec sound tidy run).2 .trans⟩
  · have changed : Changed Retagged g g₁ :=
      Build.gives_forM (fun _ g₁ => Changed Retagged g g₁) run (.refl .refl)
        fun _ _ _ _ _ _ inv run =>
          inv.trans (autoconfigure_spec sound (Retagged.tidy tidy inv) run).2 .trans
    exact .graph_bind (.check_bind (gather_fails (Retagged.tidy tidy changed).labels)
      fun _ _ => .pure _)

end TagIndex

/-! ## Autowiring -/

namespace Autowire

variable {index : CapabilityIndex} {s : Filling} {hints : Table Hint}

theorem choose_fails (service : String) (r : Request) :
    FailsBy Failure.IsFault (choose g index service r) := by
  unfold choose
  split
  · refine .bind (resolveAlias_fails _) fun target _ => ?_
    split
    · exact .ok _
    split
    · exact .ok _
    · exact .error (Failure.isFault _ _)
  · exact .error (Failure.isFault _ _)
  · unfold chooseAmong
    split
    · exact .ok _
    · split
      · exact .ok _
      · exact .error (Failure.isFault _ _)
    · split
      · exact .ok _
      · exact .error (Failure.isFault _ _)

theorem fulfil_fails (r : Request) : Run.FailsBy Failure.IsFault (fulfil g index r) s := by
  refine .bind .get fun s₁ s₂ _ => ?_
  dsimp only
  split
  next e failed => exact .throw (choose_fails _ r e failed)
  next choice _ =>
    split
    · exact .bind .modify fun _ _ _ => .pure _
    · exact .pure _

theorem require_fails {α : Type} {c : Except Failure α} (h : FailsBy Failure.IsFault c) :
    Run.FailsBy Failure.IsFault (require c) s := by
  cases c with
  | ok a => exact .pure a
  | error e => exact .throw (h e rfl)

theorem inspect_fails (d : Definition) : FailsBy Failure.IsFault (Definition.inspect d) := by
  unfold Definition.inspect
  split
  · exact .ok _
  · split
    · exact .error (Failure.isFault _ _)
    · exact .ok _

theorem annotations_fails (d : Definition) : FailsBy Failure.IsFault (Definition.annotations d) := by
  unfold Definition.annotations
  split
  · exact .ok _
  · split
    · exact .ok _
    · exact .error (Failure.isFault _ _)

theorem fillPosition_fails (parameters : List Parameter) (position : Nat) (a : Argument) :
    Run.FailsBy Failure.IsFault (fillPosition g index parameters hints position a) s := by
  cases a with
  | autowire slot => exact .bind (fulfil_fails _) fun _ _ _ => .modify
  | _ => exact .pure ()

theorem fillKeyword_fails (name : String) (a : Argument) :
    Run.FailsBy Failure.IsFault (fillKeyword g index hints name a) s := by
  cases a with
  | autowire slot => exact .bind (fulfil_fails _) fun _ _ _ => .modify
  | _ => exact .pure ()

theorem fillParameter_fails (covered position : Nat) (p : Parameter) :
    Run.FailsBy Failure.IsFault (fillParameter g index hints covered position p) s := by
  refine .bind .get fun s₁ s₂ _ => ?_
  dsimp only
  split
  · exact .pure ()
  split
  · exact .bind (.throw (Failure.isFault _ _)) fun _ _ run => absurd run (by simp)
  split
  · split
    · exact .throw (Failure.isFault _ _)
    · exact .pure ()
  · refine .bind (fulfil_fails _) fun choice s₃ _ => ?_
    cases choice with
    | absent =>
      dsimp only
      split
      · exact .modify
      · exact .pure ()
    | _ => exact .modify

/-- Work that has only to be done item by item. -/
theorem forM_fails {α : Type} {f : α → Fill Unit} {as : List α}
    (h : ∀ a ∈ as, ∀ s, Run.FailsBy Failure.IsFault (f a) s) :
    Run.FailsBy Failure.IsFault (as.forM f) s :=
  (Run.Ends.forM (fun _ _ => True) trivial fun _ a ha s _ => ⟨h a ha s, fun _ _ _ => trivial⟩).fails

/-- Autowiring a definition fails with a fault. -/
theorem fill_fails : Run.FailsBy Failure.IsFault (fill g index) s := by
  refine .bind .get fun s₁ s₂ _ => ?_
  dsimp only
  split
  · exact .pure ()
  refine .bind (require_fails (inspect_fails _)) fun parameters s₃ _ => ?_
  have rest (hints : Table Hint) (s : Filling) : Run.FailsBy Failure.IsFault
      (fillAll g index s₁.definition parameters hints) s := by
    refine .bind (forM_fails fun e _ _ => fillPosition_fails parameters e.2 e.1) fun _ s₄ _ => ?_
    refine .bind (forM_fails fun e _ _ => fillKeyword_fails e.1 e.2) fun _ s₅ _ => ?_
    split
    · exact forM_fails fun e _ _ => fillParameter_fails _ e.2 e.1
    · exact .pure ()
  split
  · exact .bind (.pure []) fun hints s₄ _ => rest hints s₄
  · exact .bind (require_fails (annotations_fails _)) fun hints s₄ _ => rest hints s₄

end Autowire

theorem Build.autowire_fails {index : CapabilityIndex} :
    Build.FailsBy Failure.IsFault (Build.autowire index d) g := by
  unfold Build.autowire
  refine .graph_bind ?_
  cases run : Autowire.fill g index { definition := d } with
  | ok _ s =>
    simp only [EStateM.run, run]
    exact .bind .change fun _ _ _ => .bind (.forM (fun _ _ => True) trivial fun _ _ _ _ _ _ =>
      ⟨.note, fun _ _ => trivial⟩) fun _ _ _ => .pure _
  | error e s =>
    simp only [EStateM.run, run]
    exact .bind .change fun _ _ _ => .bind (.forM (fun _ _ => True) trivial fun _ _ _ _ _ _ =>
      ⟨.note, fun _ _ => trivial⟩) fun _ _ _ => .throw (Autowire.fill_fails e s run)

namespace Pass

open Autowire

variable {index : CapabilityIndex}

theorem autowireVisit_fails (tidy : g.Tidy) (flat : g.Flat) (there : g.has id = true) :
    Build.FailsBy Failure.IsFault (autowireVisit index id) g := by
  refine .graph_bind (.check_bind (.of_ok (get_succeeds there)) fun d hd => ?_)
  refine .bind Build.autowire_fails fun d' g₁ run => .graph_bind (.check ?_)
  obtain ⟨wires, rfl⟩ := Build.gives_autowire run
  obtain ⟨hmem, rfl⟩ := mem_of_find? (get_ok.1 hd)
  exact successors_fails (tidy.wired (wires.changed tidy hmem)) (wires.spec.1.flat (flat d hmem)).plain

theorem ofGraph_fails (hashable : g.Hashable) : FailsBy Failure.IsFault (CapabilityIndex.ofGraph g) :=
  .bind (.mapM fun d hd => .bind (.of_ok (hashable d (List.mem_filter.1 hd).1).provides)
    fun _ _ => .ok _) fun _ _ => .ok _

/-- Autowiring a graph fails with a fault. -/
theorem autowire_fails (tidy : g.Tidy) (flat : g.Flat) (hashable : g.Hashable) :
    Build.FailsBy Failure.IsFault autowire g := by
  refine .graph_bind (.check_bind (ofGraph_fails hashable) fun index _ => ?_)
  refine .check_bind rootIds_fails fun roots hr => .discard ?_
  refine Walk.breadthFirst_job_fails (J := fun g₁ => Changed Wired g g₁)
    (P := fun id => g.has id = true) (.refl .refl)
    (fun id hid => ((mem_rootIds tidy.unique hr).1 hid).has) fun g₁ id inv there => ?_
  have tidy₁ := tidy.wired inv
  have flat₁ := flat.wired inv
  refine ⟨autowireVisit_fails tidy₁ flat₁ (by rwa [inv.has_eq]), fun found g₂ run => ?_⟩
  obtain ⟨changed, d, d', -, -, -, leads, -⟩ := autowireVisit_spec tidy₁ flat₁ run
  refine ⟨inv.trans changed .trans, fun b hb => ?_⟩
  have there := ((leads b).1 hb).has
  rwa [changed.has_eq, inv.has_eq] at there

/-! ## Aliases -/

theorem aliasRule_mild (g : Graph) : (aliasRule g).Mild Failure.IsFault where
  fails a := by
    cases a with
    | reference r => exact .bind (resolveAlias_fails _) fun _ _ => .ok _
    | _ => exact .ok _
  flat a b flat h := by
    cases a with
    | reference r =>
      obtain ⟨t, -, h⟩ := bind_eq_ok.1 h
      exact pure_eq_ok.1 h ▸ rfl
    | _ => exact Except.ok.inj h ▸ flat
  references r b h := by
    obtain ⟨t, -, h⟩ := bind_eq_ok.1 h
    exact ⟨_, (pure_eq_ok.1 h).symm⟩

/-- The resolution of aliases fails with a fault: a loop. -/
theorem resolveAliases_fails (tidy : g.Tidy) (flat : g.Flat) (named : Named g) :
    Build.FailsBy Failure.IsFault resolveAliases g := by
  refine .graph_bind (.bind (.forM (fun _ g₁ => Shortened g g₁) (.refl g)
    fun done a rest g₁ split inv => ?_) fun _ g₁ run => .changeOrFail fun e g' failed => ?_)
  · have ha : a ∈ g.aliases := by simp [split]
    refine ⟨(shortenAlias_loops tidy.identified named inv ha).mono fun e loop => loop.isFault, fun g₂ run => ?_⟩
    exact (shortenAlias_spec tidy.identified inv ha run).1
  · have inv := (shortenAliases_spec tidy.identified run).1
    have flat₁ : g₁.Flat := fun d hd => flat d (inv.definitions_eq ▸ hd)
    exact reviseAll_fails (inv.tidy tidy).alone flat₁ (fun _ _ => aliasRule_mild g₁) failed

/-! ## Collections, checks and removal -/

theorem collectionRule_mild (index : TagIndex) (consumer : String) :
    (collectionRule index consumer).Mild Failure.IsFault where
  fails a := by cases a <;> exact .ok _
  flat a b flat h := by
    cases a with
    | tagged => exact Except.ok.inj h ▸ rfl
    | _ => exact Except.ok.inj h ▸ flat
  references r b h := ⟨r, (Except.ok.inj h).symm⟩

theorem bakeCollections_fails (tidy : g.Tidy) (flat : g.Flat) (hashable : g.Hashable) :
    Build.FailsBy Failure.IsFault bakeCollections g := by
  have sound : TagIndex.Sound (TagIndex.rules {}) := by
    rintro r ⟨⟩
  refine .bind (TagIndex.rebuild_fails sound tidy hashable) fun index g₁ run => ?_
  obtain rfl := TagIndex.rebuild_of_no_rules rfl run
  exact .changeOrFail fun e g' failed =>
    reviseAll_fails tidy.alone flat (fun d _ => collectionRule_mild index d.id) failed

theorem checkArguments_fails (d : Definition) : FailsBy Failure.IsFault (checkArguments d) := by
  unfold checkArguments
  split
  · exact .error (Failure.isFault _ _)
  split
  · exact .ok ()
  split
  · exact .ok ()
  split
  · exact .ok ()
  · exact .error (Failure.isFault _ _)

theorem checkDefinition_fails (reached : List String) (d : Definition) :
    FailsBy Failure.IsFault (checkDefinition reached d) := by
  unfold checkDefinition
  cases d.parent with
  | some parent => exact .error (Failure.isFault _ _)
  | none =>
    dsimp only
    split
    · exact .ok ()
    split
    · exact .error (Failure.isFault _ _)
    split
    · exact .error (Failure.isFault _ _)
    · split
      · exact checkArguments_fails d
      · exact .ok ()

theorem checkDefinitions_fails (tidy : g.Tidy) (plain : g.Plain) :
    FailsBy Failure.IsFault (checkDefinitions g) :=
  .bind (reachableIds_fails tidy plain) fun reached _ => .forM fun d _ =>
    checkDefinition_fails reached d

theorem resolveAliasStrict_has {target : String} (h : g.resolveAliasStrict id = .ok target) :
    g.has target = true := by
  obtain ⟨t, -, h⟩ := bind_eq_ok.1 h
  split at h
  next there => exact pure_eq_ok.1 h ▸ there
  · cases h

theorem checkAlias_fails (a : Alias) : FailsBy Failure.IsFault (checkAlias g a) := by
  refine .bind ?_ fun target ht => ?_
  · refine .bind (resolveAlias_fails _) fun target _ => ?_
    split
    · exact .ok _
    · exact .error (Failure.isFault _ _)
  · refine .bind (.of_ok (get_succeeds (resolveAliasStrict_has ht))) fun d _ => ?_
    split
    · exact .error (Failure.isFault _ _)
    · exact .ok _

theorem checkReferences_fails (plain : g.Plain) : FailsBy Failure.IsFault (checkReferences g) := by
  refine .bind (.forM fun a _ => checkAlias_fails a) fun _ _ => .forM fun d hd => .discard ?_
  refine eachReference_fails (plain d (List.mem_filter.1 hd).1) fun r _ => ?_
  refine .bind (resolveAlias_fails _) fun target _ => ?_
  split
  · split
    · exact .error (Failure.isFault _ _)
    · exact .ok ()
  · split
    · exact .error (Failure.isFault _ _)
    · exact .ok ()

theorem validate_fails {check : Graph → Except Failure Unit} (h : FailsBy Failure.IsFault (check g)) :
    Build.FailsBy Failure.IsFault (Builtin.validate check) g :=
  .graph_bind (.check h)

theorem removeUnused_fails (tidy : g.Tidy) (plain : g.Plain) :
    Build.FailsBy Failure.IsFault removeUnused g :=
  .graph_bind (.check_bind (reachableIds_fails tidy plain) fun _ _ =>
    .forM (fun _ _ => True) trivial fun _ _ _ _ _ _ =>
      ⟨.bind .note fun _ _ _ => .change, fun _ _ => trivial⟩)

end Pass

end Wiring
