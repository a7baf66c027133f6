import Wiring.Definition.Marks
import Wiring.Proofs.Definition.Grafting

/-!
# Definitions that differ in marks alone

Giving out new marks changes nothing but the marks, and what comes of it depends on nothing but the
rest. So it is done once and for all.
-/

namespace Wiring

namespace Argument

mutual

/-- An argument with one mark for all recipes embedded in it. -/
def unmarked : Argument → Argument
  | .inlined _ recipe => .inlined 0 { recipe with
      arguments := unmarkedAll recipe.arguments
      keywords := unmarkedNamed recipe.keywords }
  | a => a

/-- Positional arguments without marks of their own. -/
def unmarkedAll : List Argument → List Argument
  | [] => []
  | a :: as => unmarked a :: unmarkedAll as

/-- Keyword arguments without marks of their own. -/
def unmarkedNamed : List (String × Argument) → List (String × Argument)
  | [] => []
  | (name, a) :: as => (name, unmarked a) :: unmarkedNamed as

end

theorem freshenAll_cons (a : Argument) (as : List Argument) (n : Nat) :
    (freshenAll (a :: as)).run n =
      (((freshen a).run n).1 :: ((freshenAll as).run ((freshen a).run n).2).1,
        ((freshenAll as).run ((freshen a).run n).2).2) := by
  rw [freshenAll]
  rfl

theorem freshenNamed_cons (name : String) (a : Argument) (as : List (String × Argument)) (n : Nat) :
    (freshenNamed ((name, a) :: as)).run n =
      ((name, ((freshen a).run n).1) :: ((freshenNamed as).run ((freshen a).run n).2).1,
        ((freshenNamed as).run ((freshen a).run n).2).2) := by
  rw [freshenNamed]
  rfl

theorem freshen_inlined (m : Nat) (r : Recipe Argument) (n : Nat) :
    (freshen (.inlined m r)).run n =
      let arguments := (freshenAll r.arguments).run (n + 1)
      let keywords := (freshenNamed r.keywords).run arguments.2
      (.inlined n { r with arguments := arguments.1, keywords := keywords.1 }, keywords.2) := by
  rw [freshen]
  rfl

mutual

theorem unmarked_freshen (a : Argument) (n : Nat) :
    unmarked ((freshen a).run n).1 = unmarked a := by
  match a with
  | .inlined m r =>
    rw [freshen_inlined, unmarked, unmarked, unmarkedAll_freshen, unmarkedNamed_freshen]
  | .reference _ | .parameter _ | .literal _ | .tagged _ | .autowire _ | .collection _ _
  | .mixture _ _ | .plain _ => rfl

theorem unmarkedAll_freshen (as : List Argument) (n : Nat) :
    unmarkedAll ((freshenAll as).run n).1 = unmarkedAll as := by
  match as with
  | [] => rfl
  | a :: as =>
    rw [freshenAll_cons, unmarkedAll, unmarkedAll, unmarked_freshen a, unmarkedAll_freshen as]

theorem unmarkedNamed_freshen (ks : List (String × Argument)) (n : Nat) :
    unmarkedNamed ((freshenNamed ks).run n).1 = unmarkedNamed ks := by
  match ks with
  | [] => rfl
  | (name, a) :: ks =>
    rw [freshenNamed_cons, unmarkedNamed, unmarkedNamed, unmarked_freshen a,
      unmarkedNamed_freshen ks]

end

mutual

theorem freshen_unmarked (a : Argument) (n : Nat) :
    (freshen (unmarked a)).run n = (freshen a).run n := by
  match a with
  | .inlined m r =>
    rw [unmarked, freshen_inlined, freshen_inlined]
    dsimp only
    rw [freshenAll_unmarked, freshenNamed_unmarked]
  | .reference _ | .parameter _ | .literal _ | .tagged _ | .autowire _ | .collection _ _
  | .mixture _ _ | .plain _ => rfl

theorem freshenAll_unmarked (as : List Argument) (n : Nat) :
    (freshenAll (unmarkedAll as)).run n = (freshenAll as).run n := by
  match as with
  | [] => rfl
  | a :: as =>
    rw [unmarkedAll, freshenAll_cons, freshenAll_cons, freshen_unmarked a, freshenAll_unmarked as]

theorem freshenNamed_unmarked (ks : List (String × Argument)) (n : Nat) :
    (freshenNamed (unmarkedNamed ks)).run n = (freshenNamed ks).run n := by
  match ks with
  | [] => rfl
  | (name, a) :: ks =>
    rw [unmarkedNamed, freshenNamed_cons, freshenNamed_cons, freshen_unmarked a,
      freshenNamed_unmarked ks]

end

/-- Marks count on from one number to another. -/
def CountOn (marks : List Nat) (n n' : Nat) : Prop :=
  n' = n + marks.length ∧ marks = List.range' n marks.length

theorem CountOn.append {ms ms' : List Nat} {n n₁ n' : Nat} (h : CountOn ms n n₁)
    (h' : CountOn ms' n₁ n') : CountOn (ms ++ ms') n n' := by
  obtain ⟨rfl, h⟩ := h
  obtain ⟨rfl, h'⟩ := h'
  refine ⟨by simp [Nat.add_assoc], ?_⟩
  rw [List.length_append, ← List.range'_append_1, ← h, ← h']

theorem CountOn.cons {ms : List Nat} {n n' : Nat} (h : CountOn ms (n + 1) n') :
    CountOn (n :: ms) n n' := by
  obtain ⟨rfl, h⟩ := h
  refine ⟨by simp [Nat.add_comm, Nat.add_left_comm], ?_⟩
  rw [List.length_cons, List.range'_succ, ← h]

/-- The marks of the recipes embedded in an argument. -/
def marks (a : Argument) : List Nat := (embedded a).map (·.1)

theorem marks_inlined (m : Nat) (r : Recipe Argument) : marks (.inlined m r) =
    m :: (r.arguments.flatMap marks ++ (r.keywords.map (·.2)).flatMap marks) := by
  unfold marks
  rw [embedded, embeddedAll_eq, embeddedNamed_eq, List.map_cons, List.map_append,
    List.map_flatMap, List.map_flatMap]

mutual

theorem marks_freshen (a : Argument) (n : Nat) :
    CountOn (marks ((freshen a).run n).1) n ((freshen a).run n).2 := by
  match a with
  | .inlined m r =>
    rw [freshen_inlined, marks_inlined]
    exact ((marks_freshenAll r.arguments (n + 1)).append (marks_freshenNamed r.keywords _)).cons
  | .reference _ | .parameter _ | .literal _ | .tagged _ | .autowire _ | .collection _ _
  | .mixture _ _ | .plain _ => exact ⟨rfl, rfl⟩

theorem marks_freshenAll (as : List Argument) (n : Nat) :
    CountOn (((freshenAll as).run n).1.flatMap marks) n ((freshenAll as).run n).2 := by
  match as with
  | [] => exact ⟨rfl, rfl⟩
  | a :: as =>
    rw [freshenAll_cons, List.flatMap_cons]
    exact (marks_freshen a n).append (marks_freshenAll as _)

theorem marks_freshenNamed (ks : List (String × Argument)) (n : Nat) :
    CountOn ((((freshenNamed ks).run n).1.map (·.2)).flatMap marks) n
      ((freshenNamed ks).run n).2 := by
  match ks with
  | [] => exact ⟨rfl, rfl⟩
  | (name, a) :: ks =>
    rw [freshenNamed_cons, List.map_cons, List.flatMap_cons]
    exact (marks_freshen a n).append (marks_freshenNamed ks _)

end

theorem unmarkedAll_eq (as : List Argument) : unmarkedAll as = as.map unmarked := by
  induction as with
  | nil => rfl
  | cons a as ih => rw [unmarkedAll, ih, List.map_cons]

theorem unmarkedNamed_eq (ks : List (String × Argument)) :
    unmarkedNamed ks = ks.map fun k => (k.1, unmarked k.2) := by
  induction ks with
  | nil => rfl
  | cons k ks ih => rw [unmarkedNamed, ih, List.map_cons]

end Argument

namespace Definition

open Argument

variable {d d' e q q' : Definition}

/-- A definition with one mark for all recipes embedded in it. -/
def unmarked (d : Definition) : Definition :=
  { d with arguments := unmarkedAll d.arguments, keywords := unmarkedNamed d.keywords }

theorem unmarked_inlined (m : Nat) (r : Recipe Argument) :
    Argument.unmarked (.inlined m r) = .inlined 0 (unmarked r) := by
  rw [Argument.unmarked, unmarked]

/-- The definitions differ in marks alone. -/
def Alike (d d' : Definition) : Prop := unmarked d' = unmarked d

namespace Alike

/-- Definitions that differ in marks alone have arguments that do, place by place. -/
theorem revised (h : Alike d d') :
    Recipe.Revised (fun a b => Argument.unmarked b = Argument.unmarked a) d d' where
  frame := by
    have fields := Recipe.mk.inj h
    obtain ⟨id, factory, arguments, keywords, tags, isPublic, isShared, isAbstract, isLazy,
      autowired, capabilities, defaultFor, parent⟩ := d'
    simp_all
  arguments := by
    have ha : unmarkedAll d'.arguments = unmarkedAll d.arguments := congrArg Recipe.arguments h
    rw [unmarkedAll_eq, unmarkedAll_eq] at ha
    exact (forall₂_map_eq.2 ha).flip
  keywords := by
    have hk : unmarkedNamed d'.keywords = unmarkedNamed d.keywords := congrArg Recipe.keywords h
    rw [unmarkedNamed_eq, unmarkedNamed_eq] at hk
    exact (forall₂_map_eq.2 hk).flip.imp fun _ _ e => ⟨(congrArg Prod.fst e).symm, congrArg Prod.snd e⟩

theorem of_revised (h : Recipe.Revised (fun a b => Argument.unmarked b = Argument.unmarked a) d d') :
    Alike d d' := by
  have ha := (forall₂_map_eq.1 h.arguments.flip)
  have hk : d'.keywords.map (fun k => (k.1, Argument.unmarked k.2)) =
      d.keywords.map fun k => (k.1, Argument.unmarked k.2) :=
    forall₂_map_eq.1 (h.keywords.flip.imp fun _ _ hk => Prod.ext hk.1.symm hk.2)
  unfold Alike unmarked
  rw [h.frame]
  simp only [unmarkedAll_eq, unmarkedNamed_eq, ha, hk]

theorem id_eq (h : Alike d d') : d'.id = d.id := h.revised.id_eq
theorem isPublic_eq (h : Alike d d') : d'.isPublic = d.isPublic := h.revised.isPublic_eq
theorem isShared_eq (h : Alike d d') : d'.isShared = d.isShared := h.revised.isShared_eq
theorem isAbstract_eq (h : Alike d d') : d'.isAbstract = d.isAbstract := h.revised.isAbstract_eq
theorem isLazy_eq (h : Alike d d') : d'.isLazy = d.isLazy := h.revised.isLazy_eq

end Alike

theorem alike_inlined {m : Nat} {r : Definition} {b : Argument}
    (h : Argument.unmarked b = Argument.unmarked (.inlined m r)) :
    ∃ m' r', b = .inlined m' r' ∧ Alike r r' := by
  rw [unmarked_inlined] at h
  cases b with
  | inlined m' r' =>
    rw [unmarked_inlined] at h
    exact ⟨m', r', rfl, (Argument.inlined.inj h).2⟩
  | _ => cases h

theorem eq_of_alike {a b : Argument} (h : Argument.unmarked b = Argument.unmarked a)
    (ha : ∀ m r, a ≠ .inlined m r) : b = a := by
  cases a with
  | inlined m r => exact absurd rfl (ha m r)
  | _ =>
    cases b with
    | inlined m' r' =>
      rw [unmarked_inlined] at h
      cases h
    | _ => exact h

/-- What holds of the arguments of one definition and of those of another that differ in marks
alone. -/
theorem Alike.references_eq (h : Alike d d') : references d' = references d := by
  induction d using Definition.induct generalizing d' with
  | step d ih =>
    rw [Definition.references_eq, Definition.references_eq]
    refine (forall₂_flatMap_eq (forall₂_imp_mem h.revised.allArguments fun a ha b hab => ?_)).symm
    cases a with
    | inlined m r =>
      obtain ⟨m', r', rfl, alike⟩ := alike_inlined hab
      rw [references_inlined, references_inlined, ih m r ha alike]
    | _ => rw [eq_of_alike hab (by simp)]

/-- The services embedded in definitions that differ in marks alone. -/
theorem Alike.services_eq (h : Alike d d') :
    (stamps d').map (·.2) = (stamps d).map (·.2) := by
  induction d using Definition.induct generalizing d' with
  | step d ih =>
    rw [stamps_eq, stamps_eq, List.map_flatMap, List.map_flatMap]
    refine (forall₂_flatMap_eq (forall₂_imp_mem h.revised.allArguments fun a ha b hab => ?_)).symm
    cases a with
    | inlined m r =>
      obtain ⟨m', r', rfl, alike⟩ := alike_inlined hab
      rw [stamps_inlined, stamps_inlined, List.map_cons, List.map_cons, ih m r ha alike,
        alike.id_eq]
    | _ => rw [eq_of_alike hab (by simp)]

/-- The parts of definitions that differ in marks alone differ in marks alone. -/
theorem Alike.exists_part (h : Alike d d') (hq : q' ∈ parts d') : ∃ q ∈ parts d, Alike q q' := by
  induction d using Definition.induct generalizing d' with
  | step d ih =>
    rcases mem_parts.1 hq with rfl | ⟨m', r', ha', hq⟩
    · exact ⟨d, self_mem_parts d, h⟩
    · obtain ⟨a, ha, hab⟩ := forall₂_mem_right h.revised.allArguments ha'
      obtain ⟨m, r, rfl, alike⟩ := alike_inlined hab.symm
      obtain ⟨q, hq, same⟩ := ih m r ha (Eq.symm alike) hq
      exact ⟨q, parts_trans (parts_of_inlined ha) hq, same⟩

/-- What is grafted may have another mark. -/
theorem Alike.grafted (h : Alike q q') (flat : ∀ a ∈ e.allArguments, ∀ m r, a ≠ .inlined m r)
    (hR : Recipe.Revised Grafted e q) : Recipe.Revised Grafted e q' := by
  refine (hR.comp h.revised).mono_mem fun a ha c ⟨b, hab, hbc⟩ => ?_
  rcases hab with rfl | ⟨r, m, recipe, rfl, eager, same, rfl⟩
  · exact .inl (eq_of_alike hbc (flat _ ha))
  · obtain ⟨m', r', rfl, alike⟩ := alike_inlined hbc
    exact .inr ⟨r, m', r', rfl, eager, alike.id_eq.trans same, rfl⟩

/-! ## Revision -/

/-- What the first rule makes of an argument, the second makes as well, marks apart. -/
def Tracks (rule rule' : Rule) : Prop := ∀ a b, rule a = .ok b →
  ∃ b', rule' a = .ok b' ∧ Argument.unmarked b' = Argument.unmarked b

namespace Tracks

variable {rule rule' : Rule} {a b : Argument} {service : String}

theorem reviseMembers (h : Tracks rule rule') {tag : String} {as : List Argument}
    {rs : List Reference} (run : reviseMembers rule service tag as = .ok rs) :
    Argument.reviseMembers rule' service tag as = .ok rs := by
  refine reviseMembers_eq_ok.2 ((reviseMembers_eq_ok.1 run).imp fun a r hr => ?_)
  obtain ⟨b', hb', same⟩ := h a _ hr
  rw [hb', eq_of_alike same (by simp)]

theorem reviseOuter (h : Tracks rule rule') (run : reviseOuter rule service a = .ok b) :
    ∃ b', Argument.reviseOuter rule' service a = .ok b' ∧
      Argument.unmarked b' = Argument.unmarked b := by
  cases a with
  | inlined m r => exact ⟨b, run, rfl⟩
  | collection tag members =>
    obtain ⟨rs, hrs, same⟩ := bind_eq_ok.1 run
    exact ⟨b, bind_eq_ok.2 ⟨rs, h.reviseMembers hrs, same⟩, rfl⟩
  | mixture tag members =>
    obtain ⟨rs, hrs, same⟩ := bind_eq_ok.1 run
    exact ⟨b, bind_eq_ok.2 ⟨rs, h.reviseMembers hrs, same⟩, rfl⟩
  | _ => exact h _ b run

end Tracks

/-- Definitions that differ in marks alone are revised alike by rules that do. -/
theorem Alike.exists_revise {rule rule' : Rule} (h : Alike d d') (tracks : Tracks rule rule')
    (run : revise rule d = .ok e) : ∃ e', revise rule' d' = .ok e' ∧ Alike e e' := by
  induction d using Definition.induct generalizing d' e with
  | step d ih =>
    have each : ∀ a ∈ d.allArguments, ∀ b, Argument.revise rule d.id a = .ok b →
        ∀ a', Argument.unmarked a' = Argument.unmarked a → ∃ b',
          Argument.revise rule' d'.id a' = .ok b' ∧
            Argument.unmarked b = Argument.unmarked b' := by
      intro a ha b hb a' haa'
      by_cases nested : ∃ m r, a = .inlined m r
      · obtain ⟨m, r, rfl⟩ := nested
        obtain ⟨m', r', rfl, alike⟩ := alike_inlined haa'
        obtain ⟨c, hc, rfl⟩ := revise_inlined_eq_ok.1 hb
        obtain ⟨c', hc', same⟩ := ih m r ha alike hc
        refine ⟨_, revise_inlined_eq_ok.2 ⟨c', hc', rfl⟩, ?_⟩
        rw [unmarked_inlined, unmarked_inlined, show unmarked c' = unmarked c from same]
      · have outer : ∀ m r, a ≠ .inlined m r := fun m r e => nested ⟨m, r, e⟩
        obtain rfl := eq_of_alike haa' outer
        rw [revise_of_outer outer, h.id_eq] at *
        obtain ⟨b', hb', same⟩ := tracks.reviseOuter hb
        exact ⟨b', hb', same.symm⟩
    have bridge := h.revised.symm.comp ((revise_eq_ok.1 run).mono_mem each)
    obtain ⟨e', revised, same⟩ := (bridge.mono fun a' b ⟨a, haa', hb⟩ => hb a' haa').split
    exact ⟨e', revise_eq_ok.2 revised, Eq.symm (of_revised same)⟩

/-! ## New marks -/

theorem freshen_run (d : Definition) (n : Nat) : (freshen d).run n =
    let arguments := (freshenAll d.arguments).run n
    let keywords := (freshenNamed d.keywords).run arguments.2
    ({ d with arguments := arguments.1, keywords := keywords.1 }, keywords.2) := by
  rw [freshen]
  rfl

theorem alike_freshen (d : Definition) (n : Nat) : Alike d ((freshen d).run n).1 := by
  rw [freshen_run]
  unfold Alike unmarked
  dsimp only
  rw [unmarkedAll_freshen, unmarkedNamed_freshen]

/-- New marks depend on nothing but where they start. -/
theorem Alike.freshen_eq (h : Alike d d') (n : Nat) : (freshen d').run n = (freshen d).run n := by
  have factors (d : Definition) : (freshen (unmarked d)).run n = (freshen d).run n := by
    rw [freshen_run, freshen_run, unmarked]
    dsimp only
    rw [freshenAll_unmarked, freshenNamed_unmarked]
  rw [← factors d', h, factors d]

/-- The marks of the recipes embedded in a definition. -/
def marks (d : Definition) : List Nat := (embedded d).map (·.1)

theorem marks_freshen (d : Definition) (n : Nat) :
    CountOn (marks ((freshen d).run n).1) n ((freshen d).run n).2 := by
  have h := (marks_freshenAll d.arguments n).append
    (marks_freshenNamed d.keywords ((freshenAll d.arguments).run n).2)
  rw [freshen_run]
  unfold marks Definition.embedded
  rw [embeddedAll_eq, embeddedNamed_eq, List.map_append, List.map_flatMap, List.map_flatMap]
  exact h

/-! ## Several definitions -/

/-- Definitions with new marks, which start at `n`. -/
def freshenEach (ds : List Definition) (n : Nat) : List Definition × Nat :=
  (ds.mapM freshen).run n

theorem freshenEach_cons (d : Definition) (ds : List Definition) (n : Nat) :
    freshenEach (d :: ds) n =
      (((freshen d).run n).1 :: (freshenEach ds ((freshen d).run n).2).1,
        (freshenEach ds ((freshen d).run n).2).2) := by
  unfold freshenEach
  rw [List.mapM_cons]
  rfl

theorem alike_freshenEach (ds : List Definition) (n : Nat) :
    List.Forall₂ Alike ds (freshenEach ds n).1 := by
  induction ds generalizing n with
  | nil => exact .nil
  | cons d ds ih =>
    rw [freshenEach_cons]
    exact .cons (alike_freshen d n) (ih _)

theorem freshenEach_eq {ds ds' : List Definition} (h : List.Forall₂ Alike ds ds') (n : Nat) :
    freshenEach ds' n = freshenEach ds n := by
  induction h generalizing n with
  | nil => rfl
  | cons hd _ ih => rw [freshenEach_cons, freshenEach_cons, hd.freshen_eq, ih]

theorem marks_freshenEach (ds : List Definition) (n : Nat) :
    CountOn ((freshenEach ds n).1.flatMap marks) n (freshenEach ds n).2 := by
  induction ds generalizing n with
  | nil => exact ⟨rfl, rfl⟩
  | cons d ds ih =>
    rw [freshenEach_cons, List.flatMap_cons]
    exact (marks_freshen d n).append (ih _)

end Definition

end Wiring
