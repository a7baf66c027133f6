import Wiring.Proofs.Graph.ShortestCycle
import Wiring.Proofs.Graph.Lookup

/-!
# Dependency cycles

An arc leads from a definition to what one of its references stands for. A graph is accepted if and
only if no arc that is not lazy lies on a cycle of arcs.
-/

namespace Wiring.Graph

variable {p g : Graph} {a b : String}

/-- A reference in the definition of `a` stands for `b`; it is lazy when the reference is, or the
definition of `b`. -/
def Arc (g : Graph) (isLazy : Bool) (a b : String) : Prop :=
  ∃ d d', g.find? a = some d ∧ g.find? b = some d' ∧
    ∃ r ∈ Definition.references d, g.resolveAlias r.id = .ok b ∧ isLazy = (r.lazy || d'.isLazy)

/-- There is an arc, lazy or not. -/
def Depends (g : Graph) (a b : String) : Prop := ∃ isLazy, g.Arc isLazy a b

/-- Every arc on a cycle is lazy. -/
def CyclesLazy (g : Graph) : Prop :=
  ∀ a b, g.Arc false a b → ¬ Relation.ReflTransGen g.Depends b a

/-- Arcs make dependencies. -/
theorem depends_of_eager (path : Relation.ReflTransGen (g.Arc false) a b) :
    Relation.ReflTransGen g.Depends a b :=
  Relation.ReflTransGen.mono (fun _ _ h => ⟨false, h⟩) _ _ path

/-- Where arcs come of arcs that eager ones lead to, no cycle is less lazy than before. -/
theorem CyclesLazy.of_arcs (h : p.CyclesLazy)
    (arcs : ∀ isLazy a b, g.Arc isLazy a b →
      ∃ c, Relation.ReflTransGen (p.Arc false) a c ∧ p.Arc isLazy c b) : g.CyclesLazy := by
  have depends (a b : String) (path : Relation.ReflTransGen g.Depends a b) :
      Relation.ReflTransGen p.Depends a b := by
    induction path with
    | refl => exact .refl
    | tail _ step ih =>
      obtain ⟨isLazy, step⟩ := step
      obtain ⟨c, start, last⟩ := arcs isLazy _ _ step
      exact ih.trans ((depends_of_eager start).tail ⟨isLazy, last⟩)
  intro a b eager path
  obtain ⟨c, start, last⟩ := arcs false a b eager
  exact h c b last ((depends b a path).trans (depends_of_eager start))

theorem edgeOf_some {source : String} {r : Reference} {e : Edge} :
    g.edgeOf source r = .ok (some e) ↔ ∃ d, g.resolveAlias r.id = .ok e.target ∧
      g.find? e.target = some d ∧ e = ⟨source, e.target, r.lazy || d.isLazy⟩ := by
  simp only [edgeOf, bind_eq_ok, pure_eq_ok, Option.map_eq_some_iff]
  constructor
  · rintro ⟨target, ht, d, hd, rfl⟩
    exact ⟨d, ht, hd, rfl⟩
  · rintro ⟨d, ht, hd, he⟩
    exact ⟨e.target, ht, d, hd, he.symm⟩

theorem edges_eq_ok {edges : EdgeMap} : g.edges = .ok edges ↔
    List.Forall₂ (fun d entry => Definition.Referring d ∧
      ∃ found, (Definition.references d).mapM (g.edgeOf d.id) = .ok found ∧
        entry = (d.id, found.filterMap id)) g.definitions edges := by
  rw [Graph.edges, mapM_eq_ok]
  refine forall₂_congr_mem fun d hd entry => ?_
  simp only [bind_eq_ok, Definition.eachReference_eq_ok, pure_eq_ok, eq_comm (b := entry)]
  constructor
  · rintro ⟨found, ⟨all, hf⟩, he⟩
    exact ⟨all, found, hf, he⟩
  · rintro ⟨all, found, hf, he⟩
    exact ⟨found, ⟨all, hf⟩, he⟩

section Edges

variable {edges : EdgeMap} (h : g.edges = .ok edges)

include h

/-- The edges that leave a definition stand in the order of its references. -/
theorem leaving_eq {d : Definition} (hd : g.find? a = some d) :
    ∃ found, (Definition.references d).mapM (g.edgeOf a) = .ok found ∧
      edges.leaving a = found.filterMap id := by
  have paired := forall₂_find? (p := fun d => d.id == a) (q := fun entry => entry.1 == a)
    (edges_eq_ok.1 h) fun d entry ⟨_, _, _, he⟩ => by rw [he]
  obtain ⟨-, rfl⟩ := mem_of_find? hd
  unfold EdgeMap.leaving Table.get?
  unfold find? at hd
  rw [hd] at paired
  generalize List.find? _ edges = entry? at paired ⊢
  cases paired with
  | some h =>
    obtain ⟨-, found, run, rfl⟩ := h
    exact ⟨found, run, rfl⟩

theorem leaving_eq_nil (none : g.find? a = none) : edges.leaving a = [] := by
  have paired := forall₂_find? (p := fun d => d.id == a) (q := fun entry => entry.1 == a)
    (edges_eq_ok.1 h) fun d entry ⟨_, _, _, he⟩ => by rw [he]
  unfold EdgeMap.leaving Table.get?
  unfold find? at none
  rw [none] at paired
  generalize List.find? _ edges = entry? at paired ⊢
  cases paired
  rfl

theorem mem_leaving {e : Edge} : e ∈ edges.leaving a ↔
    ∃ d, g.find? a = some d ∧ ∃ r ∈ Definition.references d, g.edgeOf a r = .ok (some e) := by
  cases hd : g.find? a with
  | none => simp [leaving_eq_nil h hd]
  | some d =>
    obtain ⟨found, run, leaving⟩ := leaving_eq h hd
    have run := mapM_eq_ok.1 run
    simp only [leaving, List.mem_filterMap, id_eq, exists_eq_right, Option.some.injEq,
      exists_eq_left']
    constructor
    · intro he
      obtain ⟨r, hr, h⟩ := forall₂_mem_right run he
      exact ⟨r, hr, h⟩
    · rintro ⟨r, hr, he⟩
      obtain ⟨x, hx, h⟩ := forall₂_mem_left run hr
      exact Except.ok.inj (h.symm.trans he) ▸ hx

/-- The edges that leave `a` are its arcs. -/
theorem mem_leaving_iff_arc {e : Edge} :
    e ∈ edges.leaving a ↔ e.source = a ∧ g.Arc e.isLazy a e.target := by
  rw [mem_leaving h]
  constructor
  · rintro ⟨d, hd, r, hr, he⟩
    obtain ⟨d', ht, hd', he⟩ := edgeOf_some.1 he
    exact ⟨by rw [he], d, d', hd, hd', r, hr, ht, by rw [he]⟩
  · rintro ⟨hs, d, d', hd, hd', r, hr, ht, hl⟩
    exact ⟨d, hd, r, hr, edgeOf_some.2 ⟨d', ht, hd', by rw [← hs, ← hl]⟩⟩

theorem filed : edges.Filed := fun _ _ he => ((mem_leaving_iff_arc h).1 he).1

theorem mem_targets : b ∈ edges.targets a ↔ g.Depends a b := by
  simp only [EdgeMap.targets, List.mem_map, mem_leaving_iff_arc h]
  constructor
  · rintro ⟨e, ⟨-, he⟩, rfl⟩
    exact ⟨e.isLazy, he⟩
  · rintro ⟨isLazy, h⟩
    exact ⟨⟨a, b, isLazy⟩, ⟨rfl, h⟩, rfl⟩

theorem reaches_iff : Walk.Reaches edges.targets a b ↔ Relation.ReflTransGen g.Depends a b := by
  have : (fun a b => b ∈ edges.targets a) = g.Depends := by
    funext a b
    exact propext (mem_targets h)
  rw [Walk.Reaches, this]

/-- A fatal edge is an arc that is not lazy and lies on a cycle of arcs. -/
theorem fatal_iff {e : Edge} : edges.Fatal e ↔ e.isLazy = false ∧ g.Arc false e.source e.target ∧
    Relation.ReflTransGen g.Depends e.target e.source := by
  rw [← reaches_iff h]
  constructor
  · intro fatal
    have arc := ((mem_leaving_iff_arc h).1 fatal.leaves).2
    exact ⟨fatal.eager, fatal.eager ▸ arc, fatal.back⟩
  · rintro ⟨eager, arc, back⟩
    exact ⟨(mem_leaving_iff_arc h).2 ⟨rfl, eager ▸ arc⟩, eager, back⟩

end Edges

/-- Every reference stands for something: aliases lead somewhere from it. -/
def Resolves (g : Graph) : Prop :=
  ∀ d ∈ g.definitions, ∀ r ∈ Definition.references d, ∃ target, g.resolveAlias r.id = .ok target

/-- A graph is accepted if and only if its references stand for something and the arcs on its cycles
are lazy. -/
theorem validate_ok (plain : g.Plain) : g.validate = .ok () ↔ g.Resolves ∧ g.CyclesLazy := by
  have law {edges : EdgeMap} (h : g.edges = .ok edges) :
      edges.validate = .ok () ↔ g.CyclesLazy := by
    rw [EdgeMap.validate_ok (filed h)]
    simp only [fatal_iff h]
    constructor
    · exact fun hl a b hab back => hl ⟨a, b, false⟩ ⟨rfl, hab, back⟩
    · exact fun hl e ⟨_, arc, back⟩ => hl e.source e.target arc back
  have listed : (∃ edges, g.edges = .ok edges) ↔ g.Resolves := by
    simp only [edges_eq_ok]
    constructor
    · rintro ⟨edges, h⟩ d hd r hr
      obtain ⟨entry, -, -, found, hf, -⟩ := forall₂_mem_left h hd
      obtain ⟨x, hx⟩ := mapM_succeeds.1 ⟨found, hf⟩ r hr
      obtain ⟨target, ht, -⟩ := bind_eq_ok.1 hx
      exact ⟨target, ht⟩
    · refine fun h => forall₂_exists fun d hd => ?_
      obtain ⟨found, hf⟩ := (mapM_succeeds (f := g.edgeOf d.id)).2 fun r hr => by
        obtain ⟨target, ht⟩ := h d hd r hr
        exact ⟨_, bind_eq_ok.2 ⟨target, ht, rfl⟩⟩
      exact ⟨_, (plain d hd).referring, found, hf, rfl⟩
  rw [validate, bind_eq_ok, ← listed]
  constructor
  · rintro ⟨edges, h, hv⟩
    exact ⟨⟨edges, h⟩, (law h).1 hv⟩
  · rintro ⟨⟨edges, h⟩, hl⟩
    exact ⟨edges, h, (law h).2 hl⟩

end Wiring.Graph
