import Wiring.Proofs.Graph.Snapshot
import Wiring.Proofs.Outcome

/-!
# What revision leaves as it is

The identifier of a definition, its visibility, its sharing, and whether it is a template are no
business of rules. They stay as they are, also where recipes are embedded in several places and
revised there.
-/

namespace Wiring

/-- What a definition shows of itself: its identifier, and whether it is public, shared or a
template. -/
structure Face where
  id : String
  isPublic : Bool
  isShared : Bool
  isAbstract : Bool

/-- What a recipe shows of itself. -/
def Recipe.face {α : Type} (r : Recipe α) : Face :=
  ⟨r.id, r.isPublic, r.isShared, r.isAbstract⟩

theorem Recipe.Revised.face_eq {α : Type} {R : α → α → Prop} {d d' : Recipe α}
    (h : Revised R d d') : d'.face = d.face := by
  rw [face, h.id_eq, h.isPublic_eq, h.isShared_eq, h.isAbstract_eq, face]

namespace Pool

variable {rule : Rule} {pool : Pool} {mark : Nat}

/-- The faces of the recipes in a pool, by their marks. -/
def faces (pool : Pool) : List (Nat × Face) := pool.map fun e => (e.1, e.2.face)

theorem faces_change {f : Recipe Argument → Recipe Argument} (same : ∀ r, (f r).face = r.face)
    (mark : Nat) (pool : Pool) : faces (pool.change mark f) = faces pool := by
  unfold faces change
  rw [List.map_map]
  refine List.map_congr_left fun e _ => ?_
  by_cases h : e.1 = mark
  · simp [h, same]
  · simp [h]

theorem lookup_faces (mark : Nat) (pool : Pool) :
    (faces pool).lookup mark = (pool.lookup mark).map Recipe.face := by
  induction pool with
  | nil => rfl
  | cons e pool ih =>
    obtain ⟨m, r⟩ := e
    by_cases h : mark = m
    · simp [faces, h]
    · have other : (mark == m) = false := by simpa using h
      rw [faces, List.map_cons, List.lookup_cons, List.lookup_cons, other]
      exact ih

/-- The pool has the faces that are given. -/
def Shows (given : List (Nat × Face)) (pool : Pool) : Prop := faces pool = given

theorem keeps_reviseArgument {given : List (Nat × Face)} {visit : Nat → Work Unit}
    (h : ∀ mark, Run.Keeps (Shows given) (visit mark)) (service : String) (a : Argument) :
    Run.Keeps (Shows given) (reviseArgument rule visit service a) := by
  unfold reviseArgument
  have outer : Run.Keeps (Shows given) (settled (Argument.reviseOuter rule service a)) := by
    cases Argument.reviseOuter rule service a with
    | ok b => exact .pure b
    | error e => exact .throw e
  cases a with
  | inlined mark _ => exact .bind (h mark) fun _ => outer
  | _ => exact outer

/-- Revision in place keeps the faces of all recipes. -/
theorem keeps_revise {given : List (Nat × Face)} (depth mark : Nat) :
    Run.Keeps (Shows given) (revise rule depth mark) := by
  induction depth generalizing mark with
  | zero => exact .throw _
  | succ depth ih =>
    have visit (service : String) (a : Argument) :
        Run.Keeps (Shows given) (reviseArgument rule (revise rule depth) service a) :=
      keeps_reviseArgument ih service a
    have changes {f : Recipe Argument → Recipe Argument} (same : ∀ r, (f r).face = r.face) :
        Run.Keeps (Shows given) (modify (change mark f) : Work Unit) :=
      .modify fun pool shown => (faces_change same mark pool).trans shown
    unfold revise
    have keywords : Run.Keeps (Shows given)
        (reviseKeywords (reviseArgument rule (revise rule depth)) mark) := by
      refine .bind .get fun pool => ?_
      cases pool.lookup mark with
      | none => exact .pure ()
      | some r =>
        exact .bind (.mapM fun k _ => .bind (visit r.id k.2) fun _ => .pure _) fun _ =>
          changes fun _ => rfl
    refine .bind .get fun pool => ?_
    cases pool.lookup mark with
    | none => exact keywords
    | some r =>
      exact .bind (.mapM fun a _ => visit r.id a) fun _ => .bind (changes fun _ => rfl) fun _ =>
        keywords

theorem faces_reviseThese {visits : List (Nat × Rule)} {pool' : Pool}
    (h : pool.reviseThese visits = (none, pool')) : faces pool' = faces pool := by
  unfold reviseThese at h
  split at h
  next run =>
    obtain ⟨-, rfl⟩ := Prod.mk.inj h
    exact Run.Keeps.forM (I := Shows (faces pool)) (fun visit _ => keeps_revise _ visit.1) _ _ _ rfl
      run
  next => simp at h

end Pool

namespace Graph

variable {g g' : Graph} {id : String} {d : Definition}

/-- The faces of the definitions, in order. -/
def faces (g : Graph) : List Face := g.definitions.map Recipe.face

theorem ids_eq_faces (g : Graph) : g.ids = g.faces.map (·.id) := by
  simp [ids, faces, Recipe.face, Function.comp_def]

theorem face_mem (hd : d ∈ g.definitions) : d.face ∈ g.faces := List.mem_map_of_mem hd

/-- Where the definitions have marks of their own, they are settled with the faces they had. -/
theorem faces_settle {pool : Pool} {rest : List (Nat × Face)}
    (own : (g.marked.map (·.1)).Nodup) (shown : pool.faces = Pool.faces g.marked ++ rest) :
    (g.settle pool).faces = g.faces := by
  have ofMarked : g.faces = g.marked.map fun e => e.2.face := by
    rw [faces, ← g.marked_definitions, List.map_map]
    rfl
  rw [ofMarked, faces, settle, List.map_map]
  refine List.map_congr_left fun e he => ?_
  have found : (pool.lookup e.1).map Recipe.face = some e.2.face := by
    rw [← Pool.lookup_faces, shown, List.lookup_append, Pool.lookup_faces,
      (Pool.Coherent.of_nodup own).lookup he]
    rfl
  cases hl : pool.lookup e.1 with
  | none => simp [hl] at found
  | some r =>
    rw [hl] at found
    simpa [hl, Pool.expandDefinition, Recipe.face] using found

/-- Where no definition is embedded, the definitions have marks of their own. -/
theorem marked_nodup (alone : g.twins = []) : (g.marked.map (·.1)).Nodup := by
  have marks : g.marked.map (·.1) = (List.range g.definitions.length).map (g.nextMark + ·) := by
    apply List.ext_getElem
    · simp [marked]
    · intro i h h'
      simp [marked, markAt, alone, Table.get?]
  rw [marks]
  exact List.nodup_range.map fun i j (h : _ + i = _ + j) => Nat.add_left_cancel h

theorem faces_reviseInPlace {given : Pool} {visits : List (Nat × Rule)}
    (own : (g.marked.map (·.1)).Nodup) (h : g.reviseInPlace given visits = (none, g')) :
    g'.faces = g.faces ∧ g' = { g with definitions := g'.definitions } := by
  unfold reviseInPlace at h
  cases run : (g.pool ++ given).reviseThese visits with
  | mk failure pool' =>
    rw [run] at h
    obtain ⟨rfl, rfl⟩ := Prod.mk.inj h
    have shown : pool'.faces = Pool.faces g.marked ++ (Pool.faces g.embedded ++ Pool.faces given) := by
      rw [Pool.faces_reviseThese run]
      simp [Pool.faces, pool]
    exact ⟨faces_settle own shown, rfl⟩

/-- Revision keeps the faces of all definitions, and everything but the definitions. -/
theorem faces_reviseAll (alone : g.twins = []) {rule : Definition → Rule}
    (h : g.reviseAll rule = (none, g')) :
    g'.faces = g.faces ∧ g' = { g with definitions := g'.definitions } := by
  unfold reviseAll at h
  dsimp only at h
  split at h
  · exact faces_reviseInPlace (marked_nodup alone) h
  · split at h
    next ds hds =>
      obtain ⟨-, rfl⟩ := Prod.mk.inj h
      refine ⟨?_, rfl⟩
      exact (forall₂_map_eq.1 ((mapM_eq_ok.1 hds).imp fun d d' hd =>
        (Definition.revise_eq_ok.1 hd).face_eq.symm)).symm
    next => simp at h

theorem faces_update (alone : g.twins = []) {change : Definition → Definition}
    (same : ∀ d ∈ g.definitions, d.id = id → (change d).face = d.face) :
    (g.update id change).faces = g.faces := by
  rw [update_eq alone, faces, faces, List.map_map]
  refine List.map_congr_left fun d hd => ?_
  by_cases e : d.id = id
  · simp [e, same d hd e]
  · simp [e]

/-! ## Copies -/

theorem face_copy {d' : Definition} (h : Definition.copy d = .ok d') : d'.face = d.face := by
  simp only [Definition.copy, bind_eq_ok, pure_eq_ok] at h
  obtain ⟨_, _, _, _, _, _, _, _, _, _, rfl⟩ := h
  rfl

/-- A copy shows what the graph shows, and none of its definitions is embedded. -/
theorem copy_shows {source : Graph} (h : g.copy = .ok source) :
    source.faces = g.faces ∧ source.aliases = g.aliases ∧ source.twins = [] := by
  obtain ⟨copies, copied, h⟩ := bind_eq_ok.1 h
  have copied := mapM_eq_ok.1 copied
  obtain rfl := Except.ok.inj h
  refine ⟨?_, rfl, rfl⟩
  have copies_eq : copies.map Recipe.face = g.faces :=
    (forall₂_map_eq.1 (copied.imp fun d d' hd => (face_copy hd).symm)).symm
  rw [← copies_eq]
  exact (forall₂_map_eq.1 ((Definition.alike_freshenEach copies 0).imp fun d d' hd =>
    hd.revised.face_eq.symm)).symm

end Graph

end Wiring
