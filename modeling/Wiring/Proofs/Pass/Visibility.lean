import Wiring.Pass.Builtin
import Wiring.Proofs.Graph.Faces
import Wiring.Proofs.Pass.Autowiring
import Wiring.Proofs.Pass.Templates

/-!
# Visibility before removal

Up to validation, passes replace arguments and tags, and move aliases along. No pass hides or
publishes anything.
-/

namespace Wiring

namespace Graph

variable {g g₀ g₁ : Graph} {d : Definition} {id : String}

/-- Definitions and aliases share one set of identifiers. -/
structure Keyed (g : Graph) : Prop where
  unique : g.ids.Nodup
  uniqueAliases : g.aliasIds.Nodup
  apart : ∀ id ∈ g.aliasIds, id ∉ g.ids

/-- The identifiers of the aliases, each with whether it is public. -/
def aliasFaces (g : Graph) : List (String × Bool) := g.aliases.map fun a => (a.id, a.isPublic)

theorem aliasIds_eq_faces (g : Graph) : g.aliasIds = g.aliasFaces.map (·.1) := by
  simp [aliasIds, aliasFaces, Function.comp_def]

theorem aliasFace_mem {a : Alias} (ha : a ∈ g.aliases) : (a.id, a.isPublic) ∈ g.aliasFaces :=
  List.mem_map_of_mem ha

/-- The graph shows what `g₀` shows, and none of its definitions is embedded. -/
structure Stands (g₀ g : Graph) : Prop where
  faces : g.faces = g₀.faces
  aliasFaces : g.aliasFaces = g₀.aliasFaces
  alone : g.twins = []

namespace Stands

theorem ids_eq (h : Stands g₀ g) : g.ids = g₀.ids := by
  rw [ids_eq_faces, h.faces, ids_eq_faces]

theorem aliasIds_eq (h : Stands g₀ g) : g.aliasIds = g₀.aliasIds := by
  rw [aliasIds_eq_faces, h.aliasFaces, aliasIds_eq_faces]

theorem keyed (h : Stands g₀ g) (keyed : g₀.Keyed) : g.Keyed where
  unique := h.ids_eq ▸ keyed.unique
  uniqueAliases := h.aliasIds_eq ▸ keyed.uniqueAliases
  apart := h.ids_eq ▸ h.aliasIds_eq ▸ keyed.apart

/-- A change of the definitions alone that keeps their faces. -/
theorem revised (h : Stands g₀ g) (faces : g₁.faces = g.faces)
    (frame : g₁ = { g with definitions := g₁.definitions }) : Stands g₀ g₁ where
  faces := faces.trans h.faces
  aliasFaces := by
    rw [Graph.aliasFaces, frame]
    exact h.aliasFaces
  alone := by
    rw [frame]
    exact h.alone

theorem reviseAll (h : Stands g₀ g) {rule : Definition → Rule}
    (run : g.reviseAll rule = (none, g₁)) : Stands g₀ g₁ :=
  h.revised (faces_reviseAll h.alone run).1 (faces_reviseAll h.alone run).2

theorem update (h : Stands g₀ g) {change : Definition → Definition}
    (same : ∀ d ∈ g.definitions, d.id = id → (change d).face = d.face) :
    Stands g₀ (g.update id change) :=
  h.revised (faces_update h.alone same) (by rw [update_eq h.alone])

end Stands

end Graph

open Graph

variable {g₀ : Graph}

/-! ## Parameters and templates -/

namespace Pass

theorem keeps_resolveParameters : Build.Keeps (Stands g₀) resolveParameters := by
  refine .bind ?_ fun resolved => .changeOrFail fun g g' h run => h.reviseAll run
  refine .graph_bind fun g _ => .check_bind fun _ _ => .bind (.change fun g h => ?_) fun _ => .pure _
  exact ⟨h.faces, h.aliasFaces, h.alone⟩

theorem keeps_mergeParent (parentId : String) (parent child : Definition) :
    Build.Keeps (Stands g₀) (mergeParent parentId parent child) := by
  refine .check_bind fun _ _ => ?_
  cases (parent.capabilities ++ child.capabilities).findSome? Value.unhashable? with
  | some typeName => exact .bind (.change fun g h => h.update fun _ _ _ => rfl) fun _ => .throw _
  | none => exact .bind (.change fun g h => h.update fun _ _ _ => rfl) fun _ => .note _

/-- Work on templates that keeps what holds of the graph. -/
def Expansion.Keeps {α : Type} (P : Graph → Prop) (x : Expansion α) : Prop :=
  ∀ ended, Build.Keeps P (x.run ended)

namespace Expansion.Keeps

variable {α β : Type} {P : Graph → Prop}

theorem pure (a : α) : Keeps P (Pure.pure a) := fun _ => Run.Keeps.pure _

theorem bind {x : Expansion α} {f : α → Expansion β} (hx : Keeps P x) (hf : ∀ a, Keeps P (f a)) :
    Keeps P (x >>= f) := by
  intro ended
  rw [StateT.run_bind]
  exact Run.Keeps.bind (hx ended) fun out => hf out.1 out.2

theorem lift {job : Build α} (h : Build.Keeps P job) : Keeps P (liftM job : Expansion α) :=
  fun _ => Run.Keeps.bind h fun _ => Run.Keeps.pure _

theorem throw (e : Failure) : Keeps P (MonadExcept.throw e : Expansion α) := by
  intro ended
  exact Run.Keeps.bind (x := (MonadExcept.throw e : Build α)) (.throw e) fun a => .pure (a, ended)

theorem throw_bind {e : Failure} {f : α → Expansion β} :
    Keeps P ((MonadExcept.throw e : Expansion α) >>= f) := by
  intro ended w b w' _ run
  rw [StateT.run_bind] at run
  obtain ⟨out, w₁, thrown, -⟩ := Run.bind_ok.1 run
  have gives : Build.Gives ((MonadExcept.throw e : Expansion α).run ended) w.graph out w₁.graph :=
    ⟨w.notes, w₁.notes, thrown⟩
  exact absurd gives expansion_throw

theorem get : Keeps P (MonadState.get : Expansion (List String)) := fun _ => Run.Keeps.pure _

theorem modify (f : List String → List String) : Keeps P (modify f : Expansion Unit) :=
  fun _ => Run.Keeps.pure _

theorem forM {f : α → Expansion Unit} {as : List α} (h : ∀ a ∈ as, Keeps P (f a)) :
    Keeps P (as.forM f) := by
  induction as with
  | nil => exact pure ()
  | cons a as ih =>
    rw [forM_cons]
    exact bind (h a List.mem_cons_self) fun _ => ih fun b hb => h b (List.mem_cons_of_mem a hb)

end Expansion.Keeps

theorem keeps_expandAfter {above : List String → Definition → Expansion Unit}
    (step : ∀ chain d, Expansion.Keeps (Stands g₀) (above chain d)) (chain : List String)
    (d : Definition) : Expansion.Keeps (Stands g₀) (expandAfter above chain d) := by
  unfold expandAfter
  cases d.parent with
  | none => exact .modify _
  | some parentName =>
    refine .bind .get fun ended => ?_
    split
    · exact .pure ()
    split
    · exact .throw_bind
    refine .bind (.lift .graph) fun g => .bind (.lift .check) fun parentId => ?_
    cases g.find? parentId with
    | none => exact .throw _
    | some parent =>
      refine .bind (step _ _) fun _ => .bind (.lift .graph) fun g' => ?_
      exact .bind (.lift (keeps_mergeParent _ _ _)) fun _ => .modify _

theorem keeps_expandFrom (depth : Nat) (chain : List String) (d : Definition) :
    Expansion.Keeps (Stands g₀) (expandFrom depth chain d) := by
  induction depth generalizing chain d with
  | zero => exact keeps_expandAfter (fun _ _ => .throw _) chain d
  | succ depth ih => exact keeps_expandAfter ih chain d

theorem keeps_expandTemplates : Build.Keeps (Stands g₀) expandTemplates := by
  refine .graph_bind fun g _ => .discard ?_
  refine Expansion.Keeps.forM (fun id _ => ?_) []
  refine .bind (.lift .graph) fun g => ?_
  cases g.find? id with
  | none => exact .pure ()
  | some d => exact keeps_expandFrom _ [] d

end Pass

/-! ## Tags and autowiring -/

theorem TagIndex.keeps_rebuild (index : TagIndex) : Build.Keeps (Stands g₀) index.rebuild := by
  have infer (id : String) (tag : Tag) : Build.Keeps (Stands g₀) (inferTag id tag) := by
    refine .graph_bind fun g _ => .check_bind fun tags _ => ?_
    have change : Build.Keeps (Stands g₀)
        (Build.change fun g => g.update id fun d => { d with tags }) :=
      .change fun g h => h.update fun _ _ _ => rfl
    split
    · exact .bind (.note _) fun _ => change
    · exact change
  refine .graph_bind fun g _ => .bind (.forM fun d _ => ?_) fun _ => ?_
  · exact .check_bind fun provided _ => .forM fun e _ => infer d.id e.2
  · exact .graph_bind fun g _ => .check_bind fun found _ => .pure _

theorem Autowire.Wired.face_eq {d d' : Definition} (h : Autowire.Wired d d') : d'.face = d.face := by
  rw [h.frame]
  rfl

theorem Build.keeps_autowire (keyed : g₀.Keyed) {index : CapabilityIndex} {d : Definition}
    (hd : d.face ∈ g₀.faces) : Build.Keeps (Stands g₀) (Build.autowire index d) := by
  intro w d' w' h run
  have gives : Build.Gives (Build.autowire index d) w.graph d' w'.graph := ⟨w.notes, w'.notes, run⟩
  obtain ⟨wires, updated⟩ := Build.gives_autowire gives
  have wired := wires.spec.1
  show Stands g₀ w'.graph
  rw [updated]
  refine Stands.update h fun e he same => wired.face_eq.trans ?_
  -- no two definitions have one identifier, so the one that is replaced has the same face
  have he : e.face ∈ g₀.faces := h.faces ▸ face_mem he
  exact List.inj_on_of_nodup_map (g₀.ids_eq_faces ▸ keyed.unique) hd he same.symm

namespace Pass

theorem keeps_autowire (keyed : g₀.Keyed) : Build.Keeps (Stands g₀) autowire := by
  refine .graph_bind fun g _ => .check_bind fun index _ => .check_bind fun roots _ => .discard ?_
  intro w out w' h run
  refine ((Walk.travels_of_run run).along h fun w₁ id found w₂ h run => ?_).2
  refine Run.Keeps.graph_bind (fun g hg => .check_bind fun d hd => ?_) w₁ found w₂ h run
  have hd : d.face ∈ g₀.faces := hg.faces ▸ face_mem (mem_of_find? (get_ok.1 hd)).1
  exact .bind (Build.keeps_autowire keyed hd) fun d' => .graph_bind fun g' _ => .check

/-! ## Aliases and collections -/

theorem keeps_shortenAlias (keyed : g₀.Keyed) {a : Alias} (ha : (a.id, a.isPublic) ∈ g₀.aliasFaces) :
    Build.Keeps (Stands g₀) (shortenAlias a) := by
  have named : a.id ∈ g₀.aliasIds := by
    rw [aliasIds_eq_faces]
    exact List.mem_map_of_mem ha
  refine .graph_bind fun g h => .check_bind fun target _ => ?_
  split
  case isFalse => exact .pure ()
  refine .check_bind fun g' set => .change fun _ _ => ?_
  unfold setAlias at set
  split at set
  · cases set
  split at set
  · cases set
  rw [if_pos (hasAlias_iff.2 (h.aliasIds_eq ▸ named))] at set
  obtain rfl := Except.ok.inj set
  have kept : (g.definitions.filter fun d => !(d.id == a.id)) = g.definitions :=
    List.filter_eq_self.2 fun d hd => by
      have := (h.keyed keyed).apart a.id (h.aliasIds_eq ▸ named)
      simpa using ne_of_mem_of_not_mem (id_mem_ids hd) this
  refine ⟨?_, ?_, ?_⟩
  · rw [← h.faces, faces, faces, remove, kept]
  · rw [← h.aliasFaces, aliasFaces, aliasFaces, List.map_map]
    refine List.map_congr_left fun b hb => ?_
    by_cases e : b.id = a.id
    · have same := List.inj_on_of_nodup_map (g₀.aliasIds_eq_faces ▸ keyed.uniqueAliases)
        (h.aliasFaces ▸ aliasFace_mem hb) ha e
      simpa [e] using (Prod.mk.inj same).2.symm
    · simp [e]
  · simp [remove, h.alone, Table.remove]

theorem keeps_resolveAliases (keyed : g₀.Keyed) : Build.Keeps (Stands g₀) resolveAliases := by
  refine .graph_bind fun g h => .bind (.forM fun a ha => ?_) fun _ =>
    .changeOrFail fun g g' h run => h.reviseAll run
  exact keeps_shortenAlias keyed (h.aliasFaces ▸ aliasFace_mem ha)

theorem keeps_bakeCollections : Build.Keeps (Stands g₀) bakeCollections :=
  .bind (TagIndex.keeps_rebuild {}) fun _ => .changeOrFail fun _ _ h run => h.reviseAll run

end Pass

end Wiring
