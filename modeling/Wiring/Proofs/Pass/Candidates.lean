import Wiring.Pass.Inlining
import Wiring.Proofs.Graph.Embedding
import Wiring.Proofs.Outcome
import Wiring.Proofs.Ranks

/-!
# Candidates for inlining

A candidate is embedded in the place of the one reference to it, with the candidates that it uses in
turn. None is used in a circle, so definitions grow by as many layers as there are candidates at
most, and then hold each candidate once.
-/

namespace Wiring.Pass

open Graph Definition Argument

variable {g : Graph} {c d : Definition} {m : Nat} {id : String}

/-! ## Candidates -/

/-- What is a candidate is private, and one eager reference is all that holds on to it. -/
structure Candidate (g : Graph) (c : Definition) : Prop where
  isPublic : c.isPublic = false
  isLazy : c.isLazy = false
  isAbstract : c.isAbstract = false
  target : ∀ a ∈ g.aliases, a.target ≠ c.id
  use : ∃ d, (uses g).filter (fun u => u.target == c.id) = [⟨c.id, d, false⟩] ∧ d.id ≠ c.id ∧
    (c.isShared = true → d.isShared = true)

theorem candidate_of_isCandidate (h : isCandidate g c = true) : Candidate g c := by
  unfold isCandidate at h
  split at h
  · cases h
  next pinned =>
    simp only [Bool.or_eq_true, not_or, Bool.not_eq_true] at pinned
    obtain ⟨⟨⟨isPublic, isLazy⟩, isAbstract⟩, free⟩ := pinned
    have free : c.id ∉ Pass.pinned g := by simpa using free
    simp only [Pass.pinned, List.mem_append, not_or] at free
    obtain ⟨⟨target, -⟩, lazily⟩ := free
    split at h
    next u only =>
      simp only [Bool.and_eq_true, bne_iff_ne, ne_eq, Bool.or_eq_true, Bool.not_eq_true'] at h
      have eager : ∀ x ∈ uses g, x.target = c.id → x.isLazy = false := fun x hx e => by
        by_contra isLazy
        exact lazily (List.mem_map.2 ⟨x, List.mem_filter.2 ⟨hx, by simpa using isLazy⟩, e⟩)
      have mem : u ∈ (uses g).filter fun u => u.target == c.id && !u.isLazy :=
        only ▸ List.mem_singleton.2 rfl
      obtain ⟨hu, hu'⟩ := List.mem_filter.1 mem
      simp only [Bool.and_eq_true, beq_iff_eq, Bool.not_eq_true'] at hu'
      refine ⟨isPublic, isLazy, isAbstract, fun a ha e => target (List.mem_map.2 ⟨a, ha, e⟩),
        u.consumer, ?_, h.1, fun shared => by simpa [shared] using h.2⟩
      have same : u = ⟨c.id, u.consumer, false⟩ := by rw [← hu'.1, ← hu'.2]
      rw [← same, ← only]
      refine List.filter_congr fun x hx => ?_
      by_cases e : x.target = c.id
      · simp [e, eager x hx e]
      · simp [e]
    next => cases h

theorem mem_uses {r : Reference} (hd : d ∈ g.definitions) (hr : r ∈ references d) :
    ⟨r.id, d, r.lazy⟩ ∈ uses g :=
  List.mem_flatMap.2 ⟨d, hd, List.mem_map_of_mem hr⟩

/-- The one use of a candidate. -/
theorem Candidate.consumer {r : Reference} (h : Candidate g c) (hd : d ∈ g.definitions)
    (hr : r ∈ references d) (e : r.id = c.id) :
    r.lazy = false ∧ (c.isShared = true → d.isShared = true) := by
  obtain ⟨d', only, -, shared⟩ := h.use
  have mem : (⟨r.id, d, r.lazy⟩ : Use) ∈ (uses g).filter fun u => u.target == c.id :=
    List.mem_filter.2 ⟨mem_uses hd hr, by simpa using e⟩
  rw [only, List.mem_singleton, Use.mk.injEq] at mem
  obtain ⟨-, rfl, eager⟩ := mem
  exact ⟨eager, shared⟩

/-- The one reference to a candidate is eager. -/
theorem Candidate.exists_reference (h : Candidate g c) :
    ∃ r, g.allReferences.filter (fun r => r.id == c.id) = [r] ∧ r.lazy = false := by
  obtain ⟨d, only, -⟩ := h.use
  have same : ((uses g).map fun u => (u.target, u.isLazy)) =
      g.allReferences.map fun r => (r.id, r.lazy) := by
    simp [uses, allReferences, List.map_flatMap, Function.comp_def]
  have same := congrArg (List.filter fun x => x.1 == c.id) same
  rw [List.filter_map, List.filter_map] at same
  simp only [Function.comp_def, only, List.map_cons, List.map_nil] at same
  obtain ⟨r, hr, e⟩ := List.map_eq_singleton_iff.1 same.symm
  exact ⟨r, hr, (Prod.mk.inj e).2⟩

theorem candidates_eq (alone : g.twins = []) : candidates g =
    ((g.definitions.filter (isCandidate g)).zipIdx g.nextMark).map fun (d, mark) => (mark, d) := by
  unfold candidates
  rw [alone]
  rfl

theorem candidates_definitions (alone : g.twins = []) :
    (candidates g).map (·.2) = g.definitions.filter (isCandidate g) := by
  rw [candidates_eq alone, List.map_map]
  exact List.zipIdx_map_fst _ _

theorem candidates_marks (alone : g.twins = []) :
    (candidates g).map (·.1) = List.range' g.nextMark (candidates g).length := by
  rw [candidates_eq alone, List.map_map, List.length_map, List.length_zipIdx]
  exact List.zipIdx_map_snd _ _

/-- The marks of candidates are those that come next. -/
theorem candidates_mark (alone : g.twins = []) (h : (m, c) ∈ candidates g) :
    g.nextMark ≤ m ∧ m < g.nextMark + (candidates g).length := by
  have h := List.mem_map_of_mem (f := Prod.fst) h
  rw [candidates_marks alone] at h
  exact List.mem_range'_1.1 h

theorem candidates_coherent (alone : g.twins = []) : Pool.Coherent (candidates g) :=
  .of_nodup (candidates_marks alone ▸ List.nodup_range')

theorem mem_candidates (alone : g.twins = []) (h : (m, c) ∈ candidates g) :
    c ∈ g.definitions ∧ Candidate g c := by
  have h := List.mem_map_of_mem (f := Prod.snd) h
  rw [candidates_definitions alone] at h
  obtain ⟨hc, h⟩ := List.mem_filter.1 h
  exact ⟨hc, candidate_of_isCandidate h⟩

theorem findCandidate?_some {found : List (Nat × Definition)}
    (h : findCandidate? found id = some (m, c)) : (m, c) ∈ found ∧ c.id = id :=
  ⟨List.mem_of_find?_eq_some h, by simpa using List.find?_some h⟩

theorem findCandidate?_eq_none {found : List (Nat × Definition)} :
    findCandidate? found id = none ↔ ∀ e ∈ found, e.2.id ≠ id := by
  simp [findCandidate?]

section Round

variable (alone : g.twins = []) (unique : g.ids.Nodup)

include alone unique

theorem candidates_ids_nodup : ((candidates g).map (·.2.id)).Nodup := by
  have e : (candidates g).map (·.2.id) =
      (g.definitions.filter (isCandidate g)).map (·.id) := by
    rw [← candidates_definitions alone, List.map_map]
    rfl
  rw [e]
  exact unique.sublist (List.filter_sublist.map _)

theorem findCandidate?_of_mem {e : Nat × Definition} (h : e ∈ candidates g) :
    findCandidate? (candidates g) e.2.id = some e :=
  find?_of_nodup (candidates_ids_nodup alone unique) h

/-- The definitions that are no candidates. -/
abbrev others (g : Graph) : List Definition :=
  g.definitions.filter fun d => (findCandidate? (candidates g) d.id).isNone

theorem definitions_perm :
    g.definitions.Perm (others g ++ (candidates g).map (·.2)) := by
  have split : (candidates g).map (·.2) =
      g.definitions.filter fun d => !(findCandidate? (candidates g) d.id).isNone := by
    rw [candidates_definitions alone]
    refine List.filter_congr fun d hd => ?_
    rw [Bool.eq_iff_iff]
    constructor
    · intro h
      have mem : d ∈ (candidates g).map (·.2) := by
        rw [candidates_definitions alone]
        exact List.mem_filter.2 ⟨hd, h⟩
      obtain ⟨e, he, rfl⟩ := List.mem_map.1 mem
      simp [findCandidate?_of_mem alone unique he]
    · intro h
      cases hf : findCandidate? (candidates g) d.id with
      | none => simp [hf] at h
      | some e =>
        obtain ⟨he, same⟩ := findCandidate?_some hf
        have mem := List.mem_map_of_mem (f := Prod.snd) he
        rw [candidates_definitions alone] at mem
        obtain ⟨hmem, isCandidate⟩ := List.mem_filter.1 mem
        exact eq_of_id_eq unique hmem hd same ▸ isCandidate
  rw [split]
  exact (List.filter_append_perm _ _).symm

/-- The candidates that a definition uses. -/
def nextOf (g : Graph) (d : Definition) : List (Nat × Definition) :=
  (references d).filterMap fun r => findCandidate? (candidates g) r.id

/-- Each candidate is used once. -/
theorem uses_perm : (candidates g).Perm (g.definitions.flatMap (nextOf g)) := by
  let find (id : String) : Option (Nat × Definition) := findCandidate? (candidates g) id
  let targets := (uses g).map (·.target)
  have once : ∀ e ∈ candidates g, targets.count e.2.id = 1 := fun e he => by
    obtain ⟨d, only, -⟩ := (mem_candidates alone he).2.use
    rw [List.count_eq_countP, List.countP_map, List.countP_eq_length_filter]
    show (List.filter (fun u => u.target == e.2.id) (uses g)).length = 1
    rw [only]
    rfl
  have used : (targets.filter fun id => (find id).isSome).Perm ((candidates g).map (·.2.id)) := by
    refine (List.perm_ext_iff_of_nodup (List.nodup_iff_count_le_one.2 fun id => ?_)
      (candidates_ids_nodup alone unique)).2 fun id => ?_
    · by_cases h : (find id).isSome = true
      · obtain ⟨e, he⟩ := Option.isSome_iff_exists.1 h
        obtain ⟨hmem, rfl⟩ := findCandidate?_some he
        rw [List.count_filter (p := fun id => (find id).isSome) h, once e hmem]
      · have gone : id ∉ targets.filter fun id => (find id).isSome :=
          fun mem => h (List.mem_filter.1 mem).2
        rw [List.count_eq_zero.2 gone]
        omega
    · rw [List.mem_filter]
      refine Iff.trans ?_ List.mem_map.symm
      constructor
      · rintro ⟨-, h⟩
        obtain ⟨e, he⟩ := Option.isSome_iff_exists.1 h
        exact ⟨e, findCandidate?_some he⟩
      · rintro ⟨e, he, rfl⟩
        refine ⟨List.count_pos_iff.1 (by rw [once e he]; omega), ?_⟩
        simp [find, findCandidate?_of_mem alone unique he]
  have found : ((candidates g).map (·.2.id)).filterMap find = candidates g := by
    rw [List.filterMap_map]
    refine (List.filterMap_congr fun e he => ?_).trans List.filterMap_some
    exact findCandidate?_of_mem alone unique he
  have all : g.definitions.flatMap (nextOf g) = targets.filterMap find := by
    simp only [targets, uses, List.map_flatMap, List.filterMap_flatMap, List.map_map,
      List.filterMap_map]
    rfl
  have some : (targets.filter fun id => (find id).isSome).filterMap find =
      targets.filterMap find := by
    rw [List.filterMap_filter]
    refine List.filterMap_congr fun id _ => ?_
    cases find id <;> simp
  rw [all, ← some]
  have := (used.filterMap find).symm
  rwa [found] at this

end Round

/-! ## What a round embeds -/

/-- A reference in one of the definitions. -/
def Uses (g : Graph) (r : Reference) : Prop := ∃ d ∈ g.definitions, r ∈ references d

theorem uses_of_part {r : Reference} (hd : d ∈ g.parts) (hr : r ∈ references d) : Uses g r := by
  obtain ⟨host, hhost, part⟩ := mem_parts.1 hd
  exact ⟨host, hhost, references_of_part part hr⟩

theorem deepRule_zero (found : List (Nat × Definition)) (a : Argument) :
    deepRule found 0 a = .ok a := by
  rw [deepRule]

theorem deepRule_others (found : List (Nat × Definition)) (k : Nat) (a : Argument)
    (ha : a.isReference = false) : deepRule found k a = .ok a := by
  cases k with
  | zero => rw [deepRule]
  | succ k =>
    cases a with
    | reference r => cases ha
    | _ => rfl

theorem shallowRule_others (found : List (Nat × Definition)) (a : Argument)
    (ha : a.isReference = false) : shallowRule found a = .ok a := by
  cases a with
  | reference r => cases ha
  | _ => rfl

theorem deepRule_none {found : List (Nat × Definition)} {r : Reference}
    (h : findCandidate? found r.id = none) (k : Nat) :
    deepRule found k (.reference r) = .ok (.reference r) := by
  cases k <;> simp [deepRule, h]

theorem deepRule_some {found : List (Nat × Definition)} {r : Reference} {b : Argument} {k : Nat}
    (h : findCandidate? found r.id = some (m, c)) :
    deepRule found (k + 1) (.reference r) = .ok b ↔
      ∃ c', revise (deepRule found k) c = .ok c' ∧ b = .inlined m c' := by
  rw [deepRule]
  simp only [h, bind_eq_ok, pure_eq_ok, eq_comm (b := b)]

theorem deepRule_grafts (alone : g.twins = []) (k : Nat) :
    (deepRule (candidates g) k).Grafts (Uses g) where
  others := deepRule_others _ k
  references := by
    rintro r ⟨d, hd, hr⟩ b h
    cases k with
    | zero => exact .inl (Except.ok.inj ((deepRule_zero _ _).symm.trans h)).symm
    | succ k =>
      cases hf : findCandidate? (candidates g) r.id with
      | none => exact .inl (Except.ok.inj ((deepRule_none hf _).symm.trans h)).symm
      | some e =>
        obtain ⟨he, same⟩ := findCandidate?_some hf
        obtain ⟨c', hc, rfl⟩ := (deepRule_some hf).1 h
        refine .inr ⟨r, e.1, c', rfl, ((mem_candidates alone he).2.consumer hd hr same.symm).1, ?_,
          rfl⟩
        exact (revise_eq_ok.1 hc).id_eq.trans same

/-- A definition with the candidates in it that it uses, down to `depth` of them. -/
def grown (g : Graph) (depth : Nat) (d : Definition) : Definition :=
  ((revise (deepRule (candidates g) depth) d).toOption).getD d

/-- No candidate is a member of a collection. -/
def Clear (g : Graph) : Prop :=
  ∀ d ∈ g.definitions, ∀ r, Gathers d r → findCandidate? (candidates g) r.id = none

theorem nextOf_of_part {q : Definition} {e : Nat × Definition} (hq : q ∈ parts d)
    (he : e ∈ nextOf g q) : e ∈ nextOf g d := by
  obtain ⟨r, hr, hf⟩ := List.mem_filterMap.1 he
  exact List.mem_filterMap.2 ⟨r, references_of_part hq hr, hf⟩

/-- What comes of the candidates that a definition uses, reference by reference. -/
theorem flatMap_nextOf {β : Type} (f : Nat × Definition → List β) : (nextOf g d).flatMap f =
    (references d).flatMap fun r => ((findCandidate? (candidates g) r.id).map f).getD [] := by
  unfold nextOf
  induction references d with
  | nil => rfl
  | cons r rs ih =>
    cases hf : findCandidate? (candidates g) r.id with
    | none => simp [hf, ih]
    | some e => simp [hf, ih]

section Growth

variable (hg : g.Layered)

include hg

theorem clear_of_embedded {ds : List Definition} (some : candidates g ≠ [])
    (h : Pass.embedded (candidates g) (others g) = .ok ds) : Clear g := by
  obtain ⟨_, shallow, h⟩ := bind_eq_ok.1 h
  have shallow := forM_eq_ok.1 shallow
  intro d hd r hr
  by_contra found
  obtain ⟨e, he⟩ := Option.ne_none_iff_exists'.1 found
  have mem := (definitions_perm hg.alone hg.unique).mem_iff.1 hd
  rcases List.mem_append.1 mem with hd' | hd'
  · obtain ⟨d', -, hr'⟩ := forall₂_mem_left (mapM_eq_ok.1 h) hd'
    obtain ⟨n, hn⟩ := Nat.exists_eq_succ_of_ne_zero (mt List.length_eq_zero_iff.1 some)
    rw [hn] at hr'
    obtain ⟨s, hs⟩ :=
      ((revise_succeeds (hg.plain d hd) (deepRule_others _ _)).1 ⟨d', hr'⟩).2 r hr
    obtain ⟨c', -, e⟩ := (deepRule_some he).1 hs
    cases e
  · obtain ⟨c, hc, rfl⟩ := List.mem_map.1 hd'
    obtain ⟨d', hr'⟩ := discard_eq_ok.1 (shallow c hc)
    obtain ⟨s, hs⟩ :=
      ((revise_succeeds (hg.plain _ hd) (shallowRule_others _)).1 ⟨d', hr'⟩).2 r hr
    simp [shallowRule, he] at hs

theorem plain_of_part (hd : d ∈ g.parts) : d.Plain := by
  obtain ⟨host, hhost, part⟩ := mem_parts.1 hd
  exact (hg.plain host hhost).of_part part

/-- A definition that uses no candidates grows no further. -/
theorem revise_of_unused (hd : d ∈ g.parts) (none : nextOf g d = []) (k : Nat) :
    revise (deepRule (candidates g) k) d = .ok d :=
  revise_of_plain (plain_of_part hg hd)
    (fun r hr => deepRule_none (List.filterMap_eq_nil_iff.1 none r hr) k) (deepRule_others _ k)

theorem revise_zero (hd : d ∈ g.parts) : revise (deepRule (candidates g) 0) d = .ok d :=
  revise_of_plain (plain_of_part hg hd) (fun _ _ => deepRule_zero _ _) fun _ _ => deepRule_zero _ _

theorem grown_zero (hd : d ∈ g.parts) : grown g 0 d = d := by
  rw [grown, revise_zero hg hd]
  rfl

/-- What is used at once by a definition is led to at once. -/
theorem arc_nextOf {e : Nat × Definition} (hd : d ∈ g.definitions) (he : e ∈ nextOf g d) :
    e ∈ candidates g ∧ g.Arc false d.id e.2.id ∧ (e.2.isShared = true → d.isShared = true) := by
  obtain ⟨r, hr, hf⟩ := List.mem_filterMap.1 he
  obtain ⟨hmem, same⟩ := findCandidate?_some hf
  obtain ⟨hc, candidate⟩ := mem_candidates hg.alone hmem
  obtain ⟨eager, shared⟩ := candidate.consumer hd hr same.symm
  refine ⟨hmem, hg.arc_iff.2 ⟨d, e.2, find?_of_mem hg.unique hd, find?_of_mem hg.unique hc, r, hr,
    same.symm, ?_⟩, shared⟩
  rw [eager, candidate.isLazy]
  rfl

/-- Uses of candidates rank them: none is used in a circle. -/
theorem exists_ranks : ∃ rank : String → Nat,
    (∀ e ∈ candidates g, rank e.2.id < (candidates g).length) ∧
      ∀ d ∈ g.definitions, ∀ e ∈ nextOf g d, rank e.2.id < rank d.id := by
  obtain ⟨rank, bound, falling⟩ := exists_rank (E := g.Arc false)
    (fun a b eager path => hg.cycles a b eager (depends_of_eager path))
    ((candidates g).map (·.2.id))
  rw [List.length_map] at bound
  refine ⟨rank, fun e he => bound _ (List.mem_map_of_mem he), fun d hd e he => ?_⟩
  obtain ⟨hmem, arc, -⟩ := arc_nextOf hg hd he
  exact falling _ _ arc (List.mem_map_of_mem hmem)

/-- Where each layer of candidates adds what the candidates hold, beside something for each of them,
whole definitions hold all that there was, and that for each candidate. -/
theorem layers_perm {β : Type} {f : Nat → Definition → List β} (hold : Definition → List β)
    (top : Nat × Definition → List β) (zero : ∀ d ∈ g.definitions, f 0 d = hold d)
    (succ : ∀ k, ∀ d ∈ g.definitions,
      (f (k + 1) d).Perm (hold d ++ (nextOf g d).flatMap fun e => top e ++ f k e.2)) :
    ((others g).flatMap (f (candidates g).length)).Perm
      ((candidates g).flatMap top ++ g.definitions.flatMap hold) := by
  obtain ⟨rank, bound, falling⟩ := exists_ranks hg
  have split := definitions_perm hg.alone hg.unique
  have inside : ∀ d ∈ others g, d ∈ g.definitions := fun d hd => (List.mem_filter.1 hd).1
  have whole : (g.definitions.flatMap hold).Perm ((others g).flatMap hold ++
      (candidates g).flatMap fun e => hold e.2) := by
    have := split.flatMap_right hold
    rwa [List.flatMap_append, List.flatMap_map] at this
  cases hn : (candidates g).length with
  | zero =>
    rw [List.length_eq_zero_iff.1 hn, List.flatMap_nil, List.append_nil] at whole
    rw [List.length_eq_zero_iff.1 hn, List.flatMap_nil, List.nil_append,
      List.flatMap_congr fun d hd => zero d (inside d hd)]
    exact whole.symm
  | succ n =>
    let load (k : Nat) (e : Nat × Definition) : List β := top e ++ f k e.2
    have layer : ((others g).flatMap (f (n + 1))).Perm
        ((others g).flatMap hold ++ ((others g).flatMap (nextOf g)).flatMap (load n)) := by
      refine (List.Perm.flatMap_left _ fun d hd => succ n d (inside d hd)).trans ?_
      rw [List.flatMap_assoc]
      exact (List.flatMap_append_perm _ _ _).symm
    have layers : (((others g).flatMap (nextOf g)).flatMap (load n)).Perm
        ((candidates g).flatMap fun e => top e ++ hold e.2) := by
      refine flatMap_layers (fun e => nextOf g e.2) (fun e => rank e.2.id) (f := load) n
        (fun e he => ?_) (fun e he => ?_) (fun k _ e he => ?_) ?_ fun e he => ?_
      · simp only [load, zero e.2 (mem_candidates hg.alone he).1]
      · exact falling e.2 (mem_candidates hg.alone he).1
      · rw [List.append_assoc]
        exact (succ k e.2 (mem_candidates hg.alone he).1).append_left _
      · have uses := (uses_perm hg.alone hg.unique).trans (split.flatMap_right (nextOf g))
        rwa [List.flatMap_append, List.flatMap_map] at uses
      · have := bound e he
        omega
    refine layer.trans ((layers.append_left _).trans ?_)
    refine ((List.flatMap_append_perm (candidates g) top fun e => hold e.2).symm.append_left
      _).trans ?_
    rw [← List.append_assoc]
    refine (List.perm_append_comm.append_right _).trans ?_
    rw [List.append_assoc]
    exact whole.symm.append_left _

variable (clear : Clear g)

include clear

theorem grown_ok (k : Nat) : ∀ d ∈ g.parts,
    revise (deepRule (candidates g) k) d = .ok (grown g k d) := by
  induction k with
  | zero =>
    intro d hd
    rw [grown, revise_zero hg hd]
    rfl
  | succ k ih =>
    intro d hd
    obtain ⟨host, hhost, part⟩ := mem_parts.1 hd
    obtain ⟨d', h⟩ :=
      (revise_succeeds (plain_of_part hg hd) (deepRule_others (candidates g) (k + 1))).2
      ⟨fun r _ => by
        cases hf : findCandidate? (candidates g) r.id with
        | none => exact ⟨_, deepRule_none hf _⟩
        | some e =>
          have hc := (mem_candidates hg.alone (findCandidate?_some hf).1).1
          exact ⟨_, (deepRule_some hf).2 ⟨_, ih e.2 (mem_parts_of_definition hc), rfl⟩⟩,
      fun r ⟨q, hq, gathered⟩ =>
        ⟨r, deepRule_none (clear host hhost r ⟨q, parts_trans part hq, gathered⟩) _⟩⟩
    rw [grown, h]
    rfl

/-- What candidates embed. -/
theorem deepRule_ok {r : Reference} {m : Nat} {recipe : Definition} {k : Nat}
    (h : deepRule (candidates g) k (.reference r) = .ok (.inlined m recipe)) :
    ∃ n c, k = n + 1 ∧ findCandidate? (candidates g) r.id = some (m, c) ∧ c ∈ g.definitions ∧
      recipe = grown g n c := by
  cases k with
  | zero => cases (deepRule_zero _ _).symm.trans h
  | succ k =>
    cases hf : findCandidate? (candidates g) r.id with
    | none => cases (deepRule_none hf _).symm.trans h
    | some e =>
      have hc := (mem_candidates hg.alone (findCandidate?_some hf).1).1
      obtain ⟨c', hc', same⟩ := (deepRule_some hf).1 h
      rw [grown_ok hg clear k e.2 (mem_parts_of_definition hc)] at hc'
      obtain ⟨rfl, rfl⟩ := Argument.inlined.inj same
      exact ⟨k, e.2, rfl, rfl, hc, (Except.ok.inj hc').symm⟩

/-- `c` is embedded in `d`, or in something that is. -/
def Below (g : Graph) : Definition → Definition → Prop :=
  Relation.ReflTransGen fun d c => ∃ m, (m, c) ∈ nextOf g d

omit clear in
/-- What is embedded in a definition is led to at once, and a definition that has something shared in
it is shared. -/
theorem Below.spec (h : Below g d c) (hd : d ∈ g.definitions) : c ∈ g.definitions ∧
    Relation.ReflTransGen (g.Arc false) d.id c.id ∧ (c.isShared = true → d.isShared = true) := by
  induction h with
  | refl => exact ⟨hd, .refl, id⟩
  | tail _ step ih =>
    obtain ⟨m, hm⟩ := step
    obtain ⟨hb, path, shared⟩ := ih
    obtain ⟨hc, arc, shared'⟩ := arc_nextOf hg hb hm
    exact ⟨(mem_candidates hg.alone hc).1, path.tail arc, fun h => shared (shared' h)⟩

section Ranked

variable {rank : String → Nat}
  (falling : ∀ d ∈ g.definitions, ∀ e ∈ nextOf g d, rank e.2.id < rank d.id)

include falling

/-- Depths that exceed the ranks of the candidates that a definition uses come to the same. -/
theorem grown_stable (k : Nat) : ∀ d ∈ g.parts, (∀ e ∈ nextOf g d, rank e.2.id < k) →
    ∀ j, k ≤ j → grown g j d = grown g k d := by
  induction k with
  | zero =>
    intro d hd bound j _
    have unused : nextOf g d = [] := List.eq_nil_iff_forall_not_mem.2 fun e he =>
      absurd (bound e he) (Nat.not_lt_zero _)
    rw [grown_zero hg hd, grown, revise_of_unused hg hd unused]
    rfl
  | succ k ih =>
    intro d hd bound j hj
    obtain ⟨j, rfl⟩ : ∃ i, j = i + 1 := ⟨j - 1, by omega⟩
    refine Except.ok.inj ((grown_ok hg clear (j + 1) d hd).symm.trans ?_)
    refine revise_of_agree (plain_of_part hg hd) (fun r hr b hb => ?_)
      (fun a ha => (deepRule_others _ _ a ha).trans (deepRule_others _ _ a ha).symm)
      (grown_ok hg clear (k + 1) d hd)
    cases hf : findCandidate? (candidates g) r.id with
    | none =>
      rw [deepRule_none hf] at hb ⊢
      exact hb
    | some e =>
      have hc := (mem_candidates hg.alone (findCandidate?_some hf).1).1
      have part := mem_parts_of_definition hc
      have low := bound e (List.mem_filterMap.2 ⟨r, hr, hf⟩)
      obtain ⟨c, grows, rfl⟩ := (deepRule_some hf).1 hb
      rw [grown_ok hg clear k e.2 part] at grows
      obtain rfl := Except.ok.inj grows
      refine (deepRule_some hf).2 ⟨_, grown_ok hg clear j e.2 part, ?_⟩
      rw [ih e.2 part (fun x hx => by
        have := falling e.2 hc x hx
        omega) j (by omega)]

/-- What is embedded in a definition that has grown: what is embedded in something below it, grown as
well, and candidates. -/
theorem mem_embedded_grown {e : Nat × Definition} (k : Nat) : ∀ d ∈ g.definitions,
    (∀ x ∈ nextOf g d, rank x.2.id < k) → e ∈ Definition.embedded (grown g k d) →
      ∃ d₀ q j, Below g d d₀ ∧ ((e.1, q) ∈ Definition.embedded d₀ ∨ (e.1, q) ∈ candidates g ∧ q = d₀) ∧
        (∀ x ∈ nextOf g q, rank x.2.id < j) ∧ e.2 = grown g j q := by
  induction k with
  | zero =>
    intro d hd bound he
    rw [grown_zero hg (mem_parts_of_definition hd)] at he
    have part := mem_parts_of_embedded he
    exact ⟨d, e.2, 0, .refl, .inl he, fun x hx => bound x (nextOf_of_part part hx),
      (grown_zero hg (mem_parts_of hd part)).symm⟩
  | succ k ih =>
    intro d hd bound he
    rcases mem_embedded_revise (hg.plain d hd) (deepRule_grafts hg.alone (k + 1))
      (fun r hr => ⟨d, hd, hr⟩) (grown_ok hg clear (k + 1) d (mem_parts_of_definition hd)) he with
      ⟨q, hq, h⟩ | ⟨r, hr, m, recipe, h, there⟩
    · have part := mem_parts_of_embedded hq
      rw [grown_ok hg clear (k + 1) q (mem_parts_of hd part)] at h
      exact ⟨d, q, k + 1, .refl, .inl hq, fun x hx => bound x (nextOf_of_part part hx),
        (Except.ok.inj h).symm⟩
    · obtain ⟨n, c, hn, hf, hc, rfl⟩ := deepRule_ok hg clear h
      obtain rfl : n = k := by omega
      have used : (m, c) ∈ nextOf g d := List.mem_filterMap.2 ⟨r, hr, hf⟩
      have low : rank c.id < n + 1 := bound (m, c) used
      have deep : ∀ x ∈ nextOf g c, rank x.2.id < n := fun x hx => by
        have := falling c hc x hx
        omega
      rcases there with rfl | there
      · exact ⟨c, c, n, .single ⟨m, used⟩, .inr ⟨(findCandidate?_some hf).1, rfl⟩, deep, rfl⟩
      · obtain ⟨d₀, q, j, below, from', deep', same⟩ := ih c hc deep there
        exact ⟨d₀, q, j, .head ⟨m, used⟩ below, from', deep', same⟩

/-- Where candidates are embedded deep enough, no reference to any is left. -/
theorem mem_references_grown {r : Reference} (k : Nat) : ∀ d ∈ g.definitions,
    (∀ e ∈ nextOf g d, rank e.2.id < k) → r ∈ references (grown g k d) →
      findCandidate? (candidates g) r.id = none ∧ ∃ c, Below g d c ∧ r ∈ references c := by
  induction k with
  | zero =>
    intro d hd bound hr
    rw [grown_zero hg (mem_parts_of_definition hd)] at hr
    refine ⟨?_, d, .refl, hr⟩
    by_contra found
    obtain ⟨e, he⟩ := Option.ne_none_iff_exists'.1 found
    exact absurd (bound e (List.mem_filterMap.2 ⟨r, hr, he⟩)) (Nat.not_lt_zero _)
  | succ k ih =>
    intro d hd bound hr
    rcases mem_references_revise (hg.plain d hd) (deepRule_grafts hg.alone (k + 1))
      (fun r hr => ⟨d, hd, hr⟩) (grown_ok hg clear (k + 1) d (mem_parts_of_definition hd)) hr with
      ⟨hr, kept⟩ | ⟨x, hx, m, recipe, h, hr'⟩
    · refine ⟨?_, d, .refl, hr⟩
      by_contra found
      obtain ⟨e, he⟩ := Option.ne_none_iff_exists'.1 found
      obtain ⟨_, -, e⟩ := (deepRule_some he).1 kept
      cases e
    · obtain ⟨n, c, hn, hf, hc, rfl⟩ := deepRule_ok hg clear h
      obtain rfl : n = k := by omega
      have used : (m, c) ∈ nextOf g d := List.mem_filterMap.2 ⟨x, hx, hf⟩
      have low : rank c.id < n + 1 := bound (m, c) used
      obtain ⟨free, c', below, hr'⟩ := ih c hc (fun e he => by
        have := falling c hc e he
        omega) hr'
      exact ⟨free, c', .head ⟨m, used⟩ below, hr'⟩

end Ranked

/-! ### Whole definitions -/

/-- A definition with all candidates in it that it uses. -/
def whole (g : Graph) (d : Definition) : Definition := grown g (candidates g).length d

theorem whole_ok (hd : d ∈ g.parts) :
    revise (deepRule (candidates g) (candidates g).length) d = .ok (whole g d) :=
  grown_ok hg clear _ d hd

theorem whole_revised (hd : d ∈ g.parts) : Recipe.Revised Regrafted d (whole g d) :=
  regrafted (plain_of_part hg hd) (deepRule_grafts hg.alone _) (fun _ hr => uses_of_part hd hr)
    (whole_ok hg clear hd)

omit clear in
/-- As many layers as there are candidates are enough. -/
theorem rank_lt_of_nextOf {rank : String → Nat} {k : Nat}
    (bound : ∀ e ∈ candidates g, rank e.2.id < k) (hd : d ∈ g.definitions) :
    ∀ e ∈ nextOf g d, rank e.2.id < k := fun e he => bound e (arc_nextOf hg hd he).1

/-- A reference to a candidate becomes the whole candidate. -/
theorem deepRule_whole {r : Reference} (h : findCandidate? (candidates g) r.id = some (m, c)) :
    deepRule (candidates g) (candidates g).length (.reference r) = .ok (.inlined m (whole g c)) := by
  obtain ⟨rank, bound, falling⟩ := exists_ranks hg
  have mem := (findCandidate?_some h).1
  have hc := (mem_candidates hg.alone mem).1
  obtain ⟨n, hn⟩ := Nat.exists_eq_succ_of_ne_zero
    (mt List.length_eq_zero_iff.1 (List.ne_nil_of_mem mem))
  have deep : ∀ x ∈ nextOf g c, rank x.2.id < n := fun x hx => by
    have := falling c hc x hx
    have := bound (m, c) mem
    simp only at this
    omega
  have part := mem_parts_of_definition hc
  rw [hn, (deepRule_some h).2 ⟨_, grown_ok hg clear n c part, rfl⟩, whole, hn,
    grown_stable hg clear falling n c part deep _ (Nat.le_succ n)]

theorem mem_embedded_whole {e : Nat × Definition} (hd : d ∈ g.definitions)
    (he : e ∈ Definition.embedded (whole g d)) :
    ∃ d₀ q, Below g d d₀ ∧ ((e.1, q) ∈ Definition.embedded d₀ ∨ (e.1, q) ∈ candidates g ∧ q = d₀) ∧
      e.2 = whole g q := by
  obtain ⟨rank, bound, falling⟩ := exists_ranks hg
  obtain ⟨d₀, q, j, below, from', deep, same⟩ := mem_embedded_grown hg clear falling _ d hd
    (rank_lt_of_nextOf hg bound hd) he
  refine ⟨d₀, q, below, from', same.trans ?_⟩
  have hd₀ := (below.spec hg hd).1
  have part : q ∈ parts d₀ := by
    rcases from' with hq | ⟨-, rfl⟩
    · exact mem_parts_of_embedded hq
    · exact self_mem_parts q
  have deep' : ∀ x ∈ nextOf g q, rank x.2.id < (candidates g).length := fun x hx =>
    rank_lt_of_nextOf hg bound hd₀ x (nextOf_of_part part hx)
  have stable {k} (low : ∀ x ∈ nextOf g q, rank x.2.id < k) :=
    grown_stable hg clear falling k q (mem_parts_of hd₀ part) low (max j (candidates g).length)
  unfold whole
  rw [← stable deep (Nat.le_max_left _ _), ← stable deep' (Nat.le_max_right _ _)]

/-- No reference to a candidate is left. -/
theorem mem_references_whole {r : Reference} (hd : d ∈ g.definitions)
    (hr : r ∈ references (whole g d)) :
    findCandidate? (candidates g) r.id = none ∧ ∃ c, Below g d c ∧ r ∈ references c := by
  obtain ⟨rank, bound, falling⟩ := exists_ranks hg
  exact mem_references_grown hg clear falling _ d hd (rank_lt_of_nextOf hg bound hd) hr

/-- The parts of a whole definition are parts that were there, with things grafted into them; what is
shared among them was in something shared. -/
theorem parts_whole {q : Definition} (hd : d ∈ g.definitions) (hq : q ∈ parts (whole g d)) :
    ∃ d₀ ∈ g.definitions, ∃ q₀ ∈ parts d₀, Recipe.Revised Regrafted q₀ q ∧
      (d₀.isShared = true → d.isShared = true) := by
  rcases List.mem_cons.1 hq with rfl | hq
  · exact ⟨d, hd, d, self_mem_parts d, whole_revised hg clear (mem_parts_of_definition hd), id⟩
  obtain ⟨e, he, rfl⟩ := List.mem_map.1 hq
  obtain ⟨d₀, q₀, below, from', same⟩ := mem_embedded_whole hg clear hd he
  obtain ⟨hd₀, -, shared⟩ := below.spec hg hd
  have part : q₀ ∈ parts d₀ := by
    rcases from' with hq | ⟨-, rfl⟩
    · exact mem_parts_of_embedded hq
    · exact self_mem_parts q₀
  exact ⟨d₀, hd₀, q₀, part, same ▸ whole_revised hg clear (mem_parts_of hd₀ part), shared⟩

/-- What one more layer puts in place of a reference. -/
theorem graft_succ (k : Nat) (r : Reference) : (deepRule (candidates g) (k + 1)).graft r =
    ((findCandidate? (candidates g) r.id).map fun e =>
      Argument.inlined e.1 (grown g k e.2)).getD (.reference r) := by
  cases hf : findCandidate? (candidates g) r.id with
  | none => exact Rule.graft_of_ok (deepRule_none hf _)
  | some e =>
    have hc := (mem_candidates hg.alone (findCandidate?_some hf).1).1
    exact Rule.graft_of_ok
      ((deepRule_some hf).2 ⟨_, grown_ok hg clear k e.2 (mem_parts_of_definition hc), rfl⟩)

/-- All that was embedded still is, and each candidate is embedded once. -/
theorem stamps_perm : ((others g).flatMap fun d => stamps (whole g d)).Perm
    ((candidates g).map (fun e => (e.1, e.2.id)) ++ g.stamps) := by
  have layers := layers_perm hg (f := fun k d => stamps (grown g k d)) stamps
    (fun e => [(e.1, e.2.id)])
    (fun d hd => by rw [grown_zero hg (mem_parts_of_definition hd)]) fun k d hd => by
      have revised := stamps_revise (hg.plain d hd) (deepRule_grafts hg.alone (k + 1))
        (fun r hr => ⟨d, hd, hr⟩) (grown_ok hg clear (k + 1) d (mem_parts_of_definition hd))
      rw [flatMap_nextOf]
      refine revised.trans (.of_eq (congrArg _ (List.flatMap_congr fun r _ => ?_)))
      rw [graft_succ hg clear]
      cases hf : findCandidate? (candidates g) r.id with
      | none => rfl
      | some e =>
        have hc := (mem_candidates hg.alone (findCandidate?_some hf).1).1
        have grows := revise_eq_ok.1 (grown_ok hg clear k e.2 (mem_parts_of_definition hc))
        simp [stamps_inlined, grows.id_eq]
  rwa [← List.map_eq_flatMap] at layers

/-- The references that are left are those to no candidates. -/
theorem references_perm : ((others g).flatMap fun d => references (whole g d)).Perm
    (g.allReferences.filter fun r => (findCandidate? (candidates g) r.id).isNone) := by
  let free (r : Reference) : Bool := (findCandidate? (candidates g) r.id).isNone
  have layers := layers_perm hg (f := fun k d => (references (grown g k d)).filter free)
    (fun d => (references d).filter free) (fun _ => [])
    (fun d hd => by rw [grown_zero hg (mem_parts_of_definition hd)]) fun k d hd => by
      rw [references_revise (hg.plain d hd) (deepRule_grafts hg.alone (k + 1))
        (fun r hr => ⟨d, hd, hr⟩) (grown_ok hg clear (k + 1) d (mem_parts_of_definition hd)),
        flatMap_nextOf, List.filter_flatMap]
      simp only [graft_succ hg clear]
      induction references d with
      | nil => exact .nil
      | cons r rs ih =>
        rw [List.flatMap_cons, List.flatMap_cons]
        cases hf : findCandidate? (candidates g) r.id with
        | none => simpa [free, hf, Argument.references] using ih.cons r
        | some e =>
          simp only [Option.map_some, Option.getD_some, references_inlined, List.nil_append]
          rw [List.filter_cons_of_neg (by simp [free, hf])]
          refine (ih.append_left _).trans ?_
          rw [← List.append_assoc, ← List.append_assoc]
          exact List.perm_append_comm.append_right _
  have left : ∀ d ∈ others g, (references (whole g d)).filter free = references (whole g d) :=
    fun d hd => List.filter_eq_self.2 fun r hr => by
      simp [free, (mem_references_whole hg clear (List.mem_filter.1 hd).1 hr).1]
  have all : ((candidates g).flatMap fun _ => ([] : List Reference)) = [] :=
    List.flatMap_eq_nil_iff.2 fun _ _ => rfl
  rw [allReferences, List.filter_flatMap, ← List.flatMap_congr left]
  rwa [all, List.nil_append] at layers

/-- What is left when candidates are embedded. -/
theorem embedded_eq_map {ds : List Definition}
    (hds : Pass.embedded (candidates g) (others g) = .ok ds) : ds = (others g).map (whole g) := by
  obtain ⟨_, -, hds⟩ := bind_eq_ok.1 hds
  rw [← List.forall₂_eq_eq_eq, List.forall₂_map_right_iff]
  refine (forall₂_imp_mem (mapM_eq_ok.1 hds) fun d hd d' hd' => ?_).flip
  have part := mem_parts_of_definition (List.mem_filter.1 hd).1
  exact Except.ok.inj (hd'.symm.trans (whole_ok hg clear part))

end Growth

end Wiring.Pass
