import Wiring.Proofs.Definition.InPlace
import Wiring.Proofs.Graph.Lookup
import Wiring.Proofs.Ranks

/-!
# Arguments that are mapped

Rules that make one thing of each argument map the arguments of a graph, at every depth. Where
recipes are embedded in several places they are revised in place, and each visit finds what the one
before has made of them. Rules that keep what they have made map the arguments all the same, as long
as what lies in several definitions is mapped alike for all of them.
-/

namespace Wiring

namespace Argument

variable (φ : Argument → Argument)

mutual

/-- An argument after `φ`, with what is embedded in it. -/
def throughout : Argument → Argument
  | .inlined mark recipe => .inlined mark { recipe with
      arguments := throughoutAll recipe.arguments
      keywords := throughoutNamed recipe.keywords }
  | a => φ a

/-- Positional arguments after `φ`. -/
def throughoutAll : List Argument → List Argument
  | [] => []
  | a :: as => throughout a :: throughoutAll as

/-- Keyword arguments after `φ`. -/
def throughoutNamed : List (String × Argument) → List (String × Argument)
  | [] => []
  | (name, a) :: as => (name, throughout a) :: throughoutNamed as

end

theorem throughoutAll_eq (as : List Argument) : throughoutAll φ as = as.map (throughout φ) := by
  induction as with
  | nil => rfl
  | cons a as ih => rw [throughoutAll, ih, List.map_cons]

theorem throughoutNamed_eq (ks : List (String × Argument)) :
    throughoutNamed φ ks = ks.map fun (name, a) => (name, throughout φ a) := by
  induction ks with
  | nil => rfl
  | cons k ks ih => rw [throughoutNamed, ih, List.map_cons]

end Argument

/-- A definition whose arguments are mapped at every depth. -/
def Definition.throughout (φ : Argument → Argument) (d : Definition) : Definition :=
  { d with
    arguments := d.arguments.map (Argument.throughout φ)
    keywords := d.keywords.map fun (name, a) => (name, Argument.throughout φ a) }

section Throughout

variable {φ : Argument → Argument}

theorem Argument.throughout_inlined (m : Nat) (r : Definition) :
    Argument.throughout φ (.inlined m r) = .inlined m (Definition.throughout φ r) := by
  rw [Argument.throughout, Argument.throughoutAll_eq, Argument.throughoutNamed_eq,
    Definition.throughout]

theorem Argument.throughout_of_ne {a : Argument} (h : ∀ m r, a ≠ .inlined m r) :
    Argument.throughout φ a = φ a := by
  cases a <;> first | rfl | exact absurd rfl (h _ _)

/-- A rule that makes of each argument what `φ` makes of it maps a definition. -/
theorem Definition.revise_throughout {rule : Rule} {d : Definition}
    (makes : ∀ q ∈ parts d, ∀ a ∈ q.allArguments, (∀ m r, a ≠ .inlined m r) →
      Argument.reviseOuter rule q.id a = .ok (φ a)) : revise rule d = .ok (d.throughout φ) := by
  induction d using Definition.induct with
  | step d ih =>
    refine revise_eq_ok.2 (.of_map fun a ha => ?_)
    cases a with
    | inlined m r =>
      rw [Argument.throughout_inlined]
      exact Argument.revise_inlined_eq_ok.2 ⟨_, ih m r ha fun q hq =>
        makes q (parts_trans (parts_of_inlined ha) hq), rfl⟩
    | _ =>
      rw [Argument.throughout_of_ne (by simp), Argument.revise_of_outer (by simp)]
      exact makes d (self_mem_parts d) _ ha (by simp)

/-- What agrees on the arguments of all parts maps a definition alike. -/
theorem Definition.throughout_congr {ψ : Argument → Argument} {d : Definition}
    (same : ∀ q ∈ parts d, ∀ a ∈ q.allArguments, φ a = ψ a) : d.throughout φ = d.throughout ψ := by
  induction d using Definition.induct with
  | step d ih =>
    have mapped : Recipe.Revised (fun a b => b = Argument.throughout ψ a) d (d.throughout φ) :=
      .of_map fun a ha => by
        cases a with
        | inlined m r =>
          rw [Argument.throughout_inlined, Argument.throughout_inlined, ih m r ha fun q hq =>
            same q (parts_trans (parts_of_inlined ha) hq)]
        | _ =>
          rw [Argument.throughout_of_ne (by simp), Argument.throughout_of_ne (by simp)]
          exact same d (self_mem_parts d) _ ha
    exact mapped.eq_map

theorem Definition.allArguments_throughout (d : Definition) :
    (d.throughout φ).allArguments = d.allArguments.map (Argument.throughout φ) := by
  simp [throughout, Recipe.allArguments, Function.comp_def]

/-- Where `φ` maps the references that an argument holds itself, all references are mapped. -/
theorem Definition.references_throughout {ρ : Reference → Reference} {d : Definition}
    (mapped : ∀ q ∈ parts d, ∀ a ∈ q.allArguments, (∀ m r, a ≠ .inlined m r) →
      (φ a).references = a.references.map ρ) :
    references (d.throughout φ) = (references d).map ρ := by
  induction d using Definition.induct with
  | step d ih =>
    rw [references_eq, references_eq, allArguments_throughout, List.flatMap_map, List.map_flatMap]
    refine List.flatMap_congr fun a ha => ?_
    cases a with
    | inlined m r =>
      rw [Argument.throughout_inlined, Argument.references_inlined, Argument.references_inlined]
      exact ih m r ha fun q hq => mapped q (parts_trans (parts_of_inlined ha) hq)
    | _ =>
      rw [Argument.throughout_of_ne (by simp)]
      exact mapped d (self_mem_parts d) _ ha (by simp)

end Throughout

/-! ## In place -/

namespace Pool

variable {rule : Rule} {pool pool' : Pool}

/-- A recipe and all that is embedded in it, with their marks. -/
def tree (e : Nat × Definition) : Pool := e :: Definition.embedded e.2

theorem mem_parts_of_tree {c e : Nat × Definition} (he : e ∈ tree c) :
    e.2 ∈ Definition.parts c.2 := by
  rcases List.mem_cons.1 he with rfl | he
  · exact Definition.self_mem_parts _
  · exact List.mem_cons_of_mem _ (List.mem_map_of_mem he)

theorem tree_trans {c e f : Nat × Definition} (he : e ∈ tree c) (hf : f ∈ tree e) : f ∈ tree c := by
  rcases List.mem_cons.1 hf with rfl | hf
  · exact he
  · exact List.mem_cons_of_mem _ (Definition.embedded_trans (mem_parts_of_tree he) hf)

theorem mem_tree_of_inlined {e : Nat × Definition} {m : Nat} {r : Definition}
    (h : .inlined m r ∈ e.2.allArguments) : (m, r) ∈ tree e :=
  List.mem_cons_of_mem _ (Definition.mem_embedded.2 ⟨m, r, h, .inl rfl⟩)

/-- The parts of a recipe lie in it, each under a mark. -/
theorem exists_mem_tree {e : Nat × Definition} {q : Definition} (h : q ∈ Definition.parts e.2) :
    ∃ m, (m, q) ∈ tree e := by
  rcases List.mem_cons.1 h with rfl | h
  · exact ⟨e.1, List.mem_cons_self⟩
  · obtain ⟨f, hf, rfl⟩ := List.mem_map.1 h
    exact ⟨f.1, List.mem_cons_of_mem _ hf⟩

/-- What is embedded in a recipe of the pool lies there as well. -/
def Whole (pool : Pool) : Prop := ∀ e ∈ pool, ∀ x ∈ Definition.embedded e.2, x ∈ pool

/-- The marks of recipes are ranked so that what is embedded ranks below what it is embedded in. -/
theorem Coherent.exists_ranks (coherent : pool.Coherent) (whole : pool.Whole) :
    ∃ rank : Nat → Nat, (∀ e ∈ pool, rank e.1 < pool.length) ∧
      ∀ e ∈ pool, ∀ m r, .inlined m r ∈ e.2.allArguments → rank m < rank e.1 := by
  let weight (m : Nat) : Nat := ((pool.lookup m).map Definition.embeddedCount).getD 0
  let E (m m' : Nat) : Prop := ∃ e ∈ pool, e.1 = m ∧ ∃ r, .inlined m' r ∈ e.2.allArguments
  have inside {e : Nat × Definition} (he : e ∈ pool) {m : Nat} {r : Definition}
      (hm : .inlined m r ∈ e.2.allArguments) : (m, r) ∈ Definition.embedded e.2 ∧ (m, r) ∈ pool :=
    have embedded := Definition.mem_embedded.2 ⟨m, r, hm, .inl rfl⟩
    ⟨embedded, whole e he _ embedded⟩
  have falls (m m' : Nat) (h : E m m') : weight m' < weight m := by
    obtain ⟨e, he, rfl, r, hm⟩ := h
    obtain ⟨embedded, there⟩ := inside he hm
    simpa [weight, coherent.lookup he, coherent.lookup there] using
      Definition.embeddedCount_lt embedded
  obtain ⟨rank, bound, deeper⟩ := exists_rank (acyclic_of_falling weight falls) (pool.map (·.1))
  rw [List.length_map] at bound
  refine ⟨rank, fun e he => bound _ (List.mem_map_of_mem he), fun e he m r hm => ?_⟩
  exact deeper _ _ ⟨e, he, rfl, r, hm⟩ (List.mem_map_of_mem (inside he hm).2)

/-- `φ` maps the arguments of recipes by their marks. It leaves what is embedded where it is, and
maps it as it maps what it is embedded in. -/
structure Maps (φ : Nat → Argument → Argument) (pool : Pool) : Prop where
  embedded : ∀ n m r, φ n (.inlined m r) = .inlined m r
  apart : ∀ n a m r, φ n a = .inlined m r → a = .inlined m r
  alike : ∀ e ∈ pool, ∀ m r, .inlined m r ∈ e.2.allArguments →
    Definition.throughout (φ e.1) r = Definition.throughout (φ m) r

namespace Maps

variable {φ : Nat → Argument → Argument} (h : Maps φ pool)

include h

/-- A rule that makes of arguments what `φ` makes of them, and keeps what it has made, revises them
in place. -/
theorem draws {inside : Nat → Prop} {rank : Nat → Nat}
    (falls : ∀ e ∈ pool, inside e.1 → ∀ m r, .inlined m r ∈ e.2.allArguments →
      inside m ∧ rank m < rank e.1)
    (makes : ∀ e ∈ pool, inside e.1 → ∀ a ∈ e.2.allArguments,
      Argument.reviseOuter rule e.2.id a = .ok (φ e.1 a))
    (keeps : ∀ e ∈ pool, inside e.1 → ∀ a ∈ e.2.allArguments,
      Argument.reviseOuter rule e.2.id (φ e.1 a) = .ok (φ e.1 a)) :
    Draws inside (fun _ => False) rule (fun e a b => b = a ∨ b = φ e.1 a)
      (fun e a b => b = φ e.1 a) rank pool where
  falls e he within a ha m r hr := by
    refine falls e he within m r ?_
    rcases hr with rfl | same
    · exact ha
    · exact h.apart e.1 a m r same.symm ▸ ha
  stays e he m r ha b hb := by
    rw [h.embedded, or_self] at hb
    exact ⟨r, hb⟩
  fails e he within a ha b hb := by
    rcases hb with rfl | rfl
    · exact .of_ok ⟨_, makes e he within _ ha⟩
    · exact .of_ok ⟨_, keeps e he within a ha⟩
  gives e he within a ha b hb c run := by
    rcases hb with rfl | rfl
    · exact Except.ok.inj (run.symm.trans (makes e he within _ ha))
    · exact Except.ok.inj (run.symm.trans (keeps e he within a ha))
  loose e he a ha b hb := .inr hb

end Maps

/-- The recipes of a pool with their own arguments mapped. -/
def Mapped (φ : Nat → Argument → Argument) (pool pool' : Pool) : Prop :=
  List.Forall₂ (fun e f => f.1 = e.1 ∧ Recipe.Revised (fun a b => b = φ e.1 a) e.2 f.2) pool pool'

/-- What a mark means once arguments are mapped at every depth. -/
def meaning (φ : Nat → Argument → Argument) (pool : Pool) (m : Nat) : Definition :=
  ((pool.lookup m).map (Definition.throughout (φ m))).getD { id := "" }

namespace Mapped

variable {φ : Nat → Argument → Argument} (mapped : Mapped φ pool pool') (h : Maps φ pool)
  (coherent : pool.Coherent) (whole : pool.Whole)

include coherent in
theorem meaning_eq {e : Nat × Definition} (he : e ∈ pool) :
    meaning φ pool e.1 = Definition.throughout (φ e.1) e.2 := by
  simp only [meaning, coherent.lookup he, Option.map_some, Option.getD_some]

include mapped coherent in
theorem stays_coherent : pool'.Coherent := by
  intro f hf f' hf' same
  obtain ⟨e, he, mark, revised⟩ := forall₂_mem_right mapped hf
  obtain ⟨e', he', mark', revised'⟩ := forall₂_mem_right mapped hf'
  obtain rfl := coherent e he e' he' (mark.symm.trans (same.trans mark'))
  exact Prod.ext same (revised.eq_map.trans revised'.eq_map.symm)

include mapped h coherent whole

/-- With their embedded recipes as these are meant, recipes are what they are meant to be. -/
theorem means {f : Nat × Definition} (hf : f ∈ pool') :
    Recipe.Revised (fun b c => c = relabel (meaning φ pool) b) f.2 (meaning φ pool f.1) := by
  obtain ⟨e, he, mark, revised⟩ := forall₂_mem_right mapped hf
  rw [mark, meaning_eq coherent he]
  have deep : Recipe.Revised (fun a c => c = Argument.throughout (φ e.1) a) e.2
      (Definition.throughout (φ e.1) e.2) := .of_map fun _ _ => rfl
  refine ((revised.mono_mem fun a ha b hb => And.intro ha hb).symm.comp deep).mono ?_
  rintro b c ⟨a, ⟨ha, rfl⟩, rfl⟩
  by_cases outer : ∃ m r, a = .inlined m r
  · obtain ⟨m, r, rfl⟩ := outer
    have inside : (m, r) ∈ pool := whole e he _ (Definition.mem_embedded.2 ⟨m, r, ha, .inl rfl⟩)
    rw [h.embedded, Argument.throughout_inlined, relabel, meaning_eq coherent inside,
      h.alike e he m r ha]
  · rw [Argument.throughout_of_ne fun m r same => outer ⟨m, r, same⟩,
      relabel_of_ne fun m r same => outer ⟨m, r, h.apart e.1 a m r same⟩]

omit coherent in
/-- What is embedded after the mapping was embedded before. -/
theorem exists_embedded {f : Nat × Definition} (hf : f ∈ pool') {m : Nat} {r : Definition}
    (hm : .inlined m r ∈ f.2.allArguments) :
    (∃ e ∈ pool, f.1 = e.1 ∧ .inlined m r ∈ e.2.allArguments) ∧ ∃ q, (m, q) ∈ pool' := by
  obtain ⟨e, he, mark, revised⟩ := forall₂_mem_right mapped hf
  obtain ⟨a, ha, same⟩ := forall₂_mem_right revised.allArguments hm
  obtain rfl := h.apart e.1 a m r same.symm
  have inside : (m, r) ∈ pool := whole e he _ (Definition.mem_embedded.2 ⟨m, r, ha, .inl rfl⟩)
  obtain ⟨f', hf', mark', -⟩ := forall₂_mem_left mapped inside
  obtain rfl : f'.1 = m := mark'
  exact ⟨⟨e, he, mark, ha⟩, f'.2, hf'⟩

/-- Recipes whose arguments are mapped expand to what mapping makes of them at every depth. -/
theorem expands {e : Nat × Definition} (he : e ∈ pool) : ∃ r, pool'.lookup e.1 = some r ∧
    pool'.expandDefinition r = Definition.throughout (φ e.1) e.2 := by
  obtain ⟨rank, bound, falls⟩ := coherent.exists_ranks whole
  have coherent' := mapped.stays_coherent coherent
  have lands : ∀ f ∈ pool', ∀ m r, .inlined m r ∈ f.2.allArguments →
      rank m < rank f.1 ∧ ∃ q, (m, q) ∈ pool' := fun f hf m r hm => by
    obtain ⟨⟨e, he, mark, inside⟩, there⟩ := mapped.exists_embedded h whole hf hm
    exact ⟨mark ▸ falls e he m r inside, there⟩
  have low : ∀ f ∈ pool', rank f.1 < pool'.depth := fun f hf => by
    obtain ⟨e, he, mark, -⟩ := forall₂_mem_right mapped hf
    rw [mark, depth, ← mapped.length_eq]
    exact Nat.lt_succ_of_lt (bound e he)
  obtain ⟨f, hf, mark, -⟩ := forall₂_mem_left mapped he
  refine ⟨f.2, mark ▸ coherent'.lookup hf, ?_⟩
  rw [expandDefinition_eq coherent' lands (fun f hf => mapped.means h coherent whole hf) hf low, mark,
    meaning_eq coherent he]

end Mapped

end Pool

/-! ## Graphs -/

namespace Graph

variable {g : Graph} {d : Definition}

theorem marked_definitions (g : Graph) : g.marked.map (·.2) = g.definitions := by
  rw [marked, List.map_map]
  exact List.zipIdx_map_fst _ _

theorem mem_of_marked {e : Nat × Definition} (h : e ∈ g.marked) : e.2 ∈ g.definitions :=
  g.marked_definitions ▸ List.mem_map_of_mem h

theorem exists_marked (hd : d ∈ g.definitions) : ∃ m, (m, d) ∈ g.marked := by
  rw [← g.marked_definitions] at hd
  obtain ⟨⟨m, _⟩, hm, rfl⟩ := List.mem_map.1 hd
  exact ⟨m, hm⟩

/-- Recipes of the pool lie in definitions. -/
theorem exists_tree {e : Nat × Definition} (he : e ∈ g.pool) : ∃ c ∈ g.marked, e ∈ Pool.tree c := by
  rcases List.mem_append.1 he with he | he
  · exact ⟨e, he, List.mem_cons_self⟩
  · obtain ⟨d, hd, he⟩ := List.mem_flatMap.1 he
    obtain ⟨m, hm⟩ := exists_marked hd
    exact ⟨(m, d), hm, List.mem_cons_of_mem _ he⟩

/-- Recipes of the pool are parts of definitions. -/
theorem exists_owner {e : Nat × Definition} (he : e ∈ g.pool) :
    ∃ d ∈ g.definitions, e.2 ∈ Definition.parts d := by
  obtain ⟨c, hc, he⟩ := exists_tree he
  exact ⟨c.2, mem_of_marked hc, Pool.mem_parts_of_tree he⟩

theorem pool_whole (g : Graph) : g.pool.Whole := fun e he x hx => by
  obtain ⟨d, hd, part⟩ := exists_owner he
  exact List.mem_append_right _ (List.mem_flatMap.2 ⟨d, hd, Definition.embedded_trans part hx⟩)

/-- One recipe may be embedded however often, if no definition has its mark. -/
theorem pool_coherent_of_one {x : Nat × Definition} (one : ∀ e ∈ g.embedded, e = x)
    (unique : (x.1 :: g.marked.map (·.1)).Nodup) : g.pool.Coherent := by
  obtain ⟨fresh, unique⟩ := List.nodup_cons.1 unique
  refine .append (.of_nodup unique) (fun e he f hf _ => (one e he).trans (one f hf).symm)
    fun e he f hf same => fresh ?_
  rw [← one f hf, ← same]
  exact List.mem_map_of_mem he

/-- A visit to each definition revises all recipes. -/
theorem all_revised {w : Pool.Progress} (closed : w.Closed g.pool)
    (done : ∀ e ∈ g.marked, w.Done e.1) : ∀ e ∈ g.pool, w.Done e.1 := by
  intro e he
  rcases List.mem_append.1 he with he | he
  · exact done e he
  · obtain ⟨d, hd, he⟩ := List.mem_flatMap.1 he
    obtain ⟨m, hm⟩ := exists_marked hd
    exact closed.embedded g.pool_whole (List.mem_append_left _ hm) (done _ hm) e he

/-- Rules map the arguments of definitions: each makes of them what `φ` makes of them for its
definition, and keeps what it has made. -/
structure Maps (g : Graph) (rule : Definition → Rule) (φ : Definition → Argument → Argument) :
    Prop where
  embedded : ∀ d m r, φ d (.inlined m r) = .inlined m r
  apart : ∀ d a m r, φ d a = .inlined m r → a = .inlined m r
  makes : ∀ d ∈ g.definitions, ∀ q ∈ Definition.parts d, ∀ a ∈ q.allArguments,
    Argument.reviseOuter (rule d) q.id a = .ok (φ d a)
  keeps : ∀ d ∈ g.definitions, ∀ q ∈ Definition.parts d, ∀ a ∈ q.allArguments,
    Argument.reviseOuter (rule d) q.id (φ d a) = .ok (φ d a)

/-- What lies in several definitions is mapped alike for all of them. -/
def MapsAlike (g : Graph) (φ : Definition → Argument → Argument) : Prop :=
  ∀ c ∈ g.marked, ∀ c' ∈ g.marked, ∀ e ∈ Pool.tree c, e ∈ Pool.tree c' →
    ∀ a ∈ e.2.allArguments, φ c.2 a = φ c'.2 a

section Mapped

variable {rule : Definition → Rule} {φ : Definition → Argument → Argument}

theorem mem_pool_of_tree {c e : Nat × Definition} (hc : c ∈ g.marked) (he : e ∈ Pool.tree c) :
    e ∈ g.pool := by
  rcases List.mem_cons.1 he with rfl | he
  · exact List.mem_append_left _ hc
  · exact g.pool_whole c (List.mem_append_left _ hc) e he

/-- Each recipe of a pool is given a definition that it lies in. -/
theorem exists_owners (coherent : g.pool.Coherent) : ∃ owner : Nat → Nat × Definition,
    ∀ e ∈ g.pool, owner e.1 ∈ g.marked ∧ e ∈ Pool.tree (owner e.1) := by
  have each (m : Nat) : ∃ c, ∀ e ∈ g.pool, e.1 = m → c ∈ g.marked ∧ e ∈ Pool.tree c := by
    by_cases known : ∃ e ∈ g.pool, e.1 = m
    · obtain ⟨e, he, rfl⟩ := known
      obtain ⟨c, hc, inside⟩ := exists_tree he
      refine ⟨c, fun f hf same => ?_⟩
      obtain rfl := coherent f hf e he same
      exact ⟨hc, inside⟩
    · exact ⟨(0, { id := "" }), fun e he same => absurd ⟨e, he, same⟩ known⟩
  choose owner owns using each
  exact ⟨owner, fun e he => owns e.1 e he rfl⟩

section InPlace

variable (maps : g.Maps rule φ) (coherent : g.pool.Coherent) (alike : g.MapsAlike φ)
  {owner : Nat → Nat × Definition}
  (owns : ∀ e ∈ g.pool, owner e.1 ∈ g.marked ∧ e ∈ Pool.tree (owner e.1))

include alike owns in
/-- What lies in a definition is mapped for it as for the one that it is given. -/
theorem MapsAlike.of_owner {c e : Nat × Definition} (hc : c ∈ g.marked) (he : e ∈ Pool.tree c)
    {a : Argument} (ha : a ∈ e.2.allArguments) : φ (owner e.1).2 a = φ c.2 a :=
  have owned := owns e (mem_pool_of_tree hc he)
  alike _ owned.1 c hc e owned.2 he a ha

include maps alike owns in
/-- Arguments are mapped by the marks of their recipes. -/
theorem Maps.pool : Pool.Maps (fun m => φ (owner m).2) g.pool := by
  refine ⟨fun n => maps.embedded _, fun n => maps.apart _, fun e he m r hm => ?_⟩
  have inside := Pool.tree_trans (owns e he).2 (Pool.mem_tree_of_inlined hm)
  have owned := owns (m, r) (mem_pool_of_tree (owns e he).1 inside)
  refine Definition.throughout_congr fun q hq a ha => ?_
  obtain ⟨n, hn⟩ := Pool.exists_mem_tree (e := (m, r)) hq
  exact alike _ (owns e he).1 _ owned.1 (n, q) (Pool.tree_trans inside hn)
    (Pool.tree_trans owned.2 hn) a ha

include maps coherent alike owns in
/-- The visit of a definition revises what lies in it. -/
theorem Maps.draws {rank : Nat → Nat}
    (falls : ∀ e ∈ g.pool, ∀ m r, .inlined m r ∈ e.2.allArguments → rank m < rank e.1)
    {c : Nat × Definition} (hc : c ∈ g.marked) :
    ∃ inside : Nat → Prop, inside c.1 ∧ Pool.Draws inside (fun _ => False) (rule c.2)
      (fun e a b => b = a ∨ b = φ (owner e.1).2 a) (fun e a b => b = φ (owner e.1).2 a) rank
      g.pool := by
  have within {e : Nat × Definition} (he : e ∈ g.pool) (h : ∃ r, (e.1, r) ∈ Pool.tree c) :
      e ∈ Pool.tree c := by
    obtain ⟨r, hr⟩ := h
    exact coherent _ (mem_pool_of_tree hc hr) e he rfl ▸ hr
  refine ⟨fun m => ∃ r, (m, r) ∈ Pool.tree c, ⟨c.2, List.mem_cons_self⟩,
    (maps.pool alike owns).draws (fun e he h m r hm => ?_) (fun e he h a ha => ?_)
      fun e he h a ha => ?_⟩
  · exact ⟨⟨r, Pool.tree_trans (within he h) (Pool.mem_tree_of_inlined hm)⟩, falls e he m r hm⟩
  · rw [alike.of_owner owns hc (within he h) ha]
    exact maps.makes c.2 (mem_of_marked hc) e.2 (Pool.mem_parts_of_tree (within he h)) a ha
  · rw [alike.of_owner owns hc (within he h) ha]
    exact maps.keeps c.2 (mem_of_marked hc) e.2 (Pool.mem_parts_of_tree (within he h)) a ha

include maps coherent alike

/-- Revision in place by rules that map the definitions maps all arguments, at every depth. -/
theorem reviseInPlace_throughout :
    g.reviseInPlace [] (g.marked.map fun (mark, d) => (mark, rule d)) =
      (none, { g with definitions := g.definitions.map fun d => d.throughout (φ d) }) := by
  obtain ⟨owner, owns⟩ := exists_owners coherent
  obtain ⟨rank, bound, falls⟩ := coherent.exists_ranks g.pool_whole
  cases result : g.pool.reviseThese (g.marked.map fun (mark, d) => (mark, rule d)) with
  | mk failure pool' =>
    obtain ⟨fails, gives⟩ := Pool.reviseThese_spec (R := fun e a b => b = a ∨ b = φ (owner e.1).2 a)
      (S := fun e a b => b = φ (owner e.1).2 a) rank coherent (fun _ _ _ _ => .inl rfl)
      (fun v hv => by
        obtain ⟨c, hc, rfl⟩ := List.mem_map.1 hv
        exact ⟨Nat.lt_succ_of_lt (bound c (List.mem_append_left _ hc)),
          maps.draws coherent alike owns falls hc⟩) result
    obtain rfl : failure = none := Option.eq_none_iff_forall_ne_some.2 fun why some => fails why some
    obtain ⟨w, done, drawn⟩ := gives rfl
    have done : ∀ e ∈ g.pool, w.Done e.1 := all_revised drawn.closed fun e he =>
      done (e.1, rule e.2) (List.mem_map.2 ⟨e, he, rfl⟩)
    have mapped : Pool.Mapped (fun m => φ (owner m).2) g.pool pool' :=
      forall₂_imp_mem drawn.under fun e he f under => ⟨under.mark, under.done (done e he)⟩
    unfold reviseInPlace
    rw [List.append_nil, result]
    refine Prod.ext rfl ?_
    show settle g pool' = _
    unfold settle
    rw [← g.marked_definitions, List.map_map]
    congr 1
    refine List.map_congr_left fun c hc => ?_
    obtain ⟨r, found, expanded⟩ := mapped.expands (maps.pool alike owns) coherent g.pool_whole
      (List.mem_append_left _ hc)
    simp only [found, Option.getD_some, expanded, Function.comp_apply]
    refine Definition.throughout_congr fun q hq a ha => ?_
    obtain ⟨n, hn⟩ := Pool.exists_mem_tree hq
    have owned := owns c (List.mem_append_left _ hc)
    exact alike _ owned.1 c hc (n, q) (Pool.tree_trans owned.2 hn) hn a ha

end InPlace

/-- Revision by rules that map the definitions maps all arguments, at every depth, also where recipes
are embedded in several places. -/
theorem reviseAll_throughout (maps : g.Maps rule φ)
    (shared : g.isShared = true → g.pool.Coherent ∧ g.MapsAlike φ) :
    g.reviseAll rule =
      (none, { g with definitions := g.definitions.map fun d => d.throughout (φ d) }) := by
  unfold reviseAll
  cases isShared : g.isShared with
  | true => exact reviseInPlace_throughout maps (shared isShared).1 (shared isShared).2
  | false =>
    have each : g.definitions.mapM (fun d => Definition.revise (rule d) d) =
        .ok (g.definitions.map fun d => d.throughout (φ d)) := by
      refine mapM_eq_ok.2 (List.forall₂_map_right_iff.2 (List.forall₂_same.2 fun d hd => ?_))
      exact Definition.revise_throughout fun q hq a ha _ => maps.makes d hd q hq a ha
    simp only [Bool.false_eq_true, if_false, each]

end Mapped

end Graph

end Wiring
