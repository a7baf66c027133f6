import Wiring.Definition.Revision
import Wiring.Proofs.Definition.Parts
import Wiring.Proofs.Lists
import Wiring.Proofs.Outcome

/-!
# Revision

A definition is revised when its arguments are replaced place by place. `Recipe.Revised` holds
between a recipe and what comes of it, for a relation between the arguments; revision by a rule is
such a relation, and everything but the arguments stays.
-/

namespace Wiring

/-- Keyword arguments that keep their names, with `R` between the arguments. -/
def Keyed {α : Type} (R : α → α → Prop) (k l : String × α) : Prop := k.1 = l.1 ∧ R k.2 l.2

namespace Recipe

variable {α : Type} {R S : α → α → Prop} {d d' d'' : Recipe α}

/-- `d'` is `d` with other arguments, `R` between them place by place. -/
structure Revised (R : α → α → Prop) (d d' : Recipe α) : Prop where
  frame : d' = { d with arguments := d'.arguments, keywords := d'.keywords }
  arguments : List.Forall₂ R d.arguments d'.arguments
  keywords : List.Forall₂ (Keyed R) d.keywords d'.keywords

namespace Revised

theorem id_eq (h : Revised R d d') : d'.id = d.id := by rw [h.frame]
theorem factory_eq (h : Revised R d d') : d'.factory = d.factory := by rw [h.frame]
theorem tags_eq (h : Revised R d d') : d'.tags = d.tags := by rw [h.frame]
theorem isPublic_eq (h : Revised R d d') : d'.isPublic = d.isPublic := by rw [h.frame]
theorem isShared_eq (h : Revised R d d') : d'.isShared = d.isShared := by rw [h.frame]
theorem isAbstract_eq (h : Revised R d d') : d'.isAbstract = d.isAbstract := by rw [h.frame]
theorem isLazy_eq (h : Revised R d d') : d'.isLazy = d.isLazy := by rw [h.frame]
theorem autowired_eq (h : Revised R d d') : d'.autowired = d.autowired := by rw [h.frame]
theorem capabilities_eq (h : Revised R d d') : d'.capabilities = d.capabilities := by rw [h.frame]
theorem defaultFor_eq (h : Revised R d d') : d'.defaultFor = d.defaultFor := by rw [h.frame]
theorem parent_eq (h : Revised R d d') : d'.parent = d.parent := by rw [h.frame]

theorem length_eq (h : Revised R d d') : d'.arguments.length = d.arguments.length :=
  h.arguments.length_eq.symm

theorem names_eq (h : Revised R d d') : d'.keywords.map (·.1) = d.keywords.map (·.1) := by
  have h := h.keywords
  generalize d.keywords = ks, d'.keywords = ls at h
  induction h with
  | nil => rfl
  | cons hk _ ih => rw [List.map_cons, List.map_cons, hk.1, ih]

theorem mono_mem (h : Revised R d d') (imp : ∀ a ∈ d.allArguments, ∀ b, R a b → S a b) :
    Revised S d d' where
  frame := h.frame
  arguments := forall₂_imp_mem h.arguments fun a ha => imp a (List.mem_append_left _ ha)
  keywords := forall₂_imp_mem h.keywords fun k hk l hkl =>
    ⟨hkl.1, imp k.2 (List.mem_append_right _ (List.mem_map_of_mem hk)) l.2 hkl.2⟩

theorem mono (h : Revised R d d') (imp : ∀ a b, R a b → S a b) : Revised S d d' :=
  h.mono_mem fun a _ => imp a

theorem refl (h : ∀ a ∈ d.allArguments, R a a) : Revised R d d where
  frame := rfl
  arguments := List.forall₂_same.2 fun a ha => h a (List.mem_append_left _ ha)
  keywords := List.forall₂_same.2 fun k hk =>
    ⟨rfl, h k.2 (List.mem_append_right _ (List.mem_map_of_mem hk))⟩

/-- The arguments side by side, positional ones before keyword arguments. -/
theorem allArguments (h : Revised R d d') : List.Forall₂ R d.allArguments d'.allArguments := by
  refine List.rel_append h.arguments ?_
  rw [List.forall₂_map_left_iff, List.forall₂_map_right_iff]
  exact h.keywords.imp fun _ _ hk => hk.2

theorem comp (h : Revised R d d') (h' : Revised S d' d'') :
    Revised (fun a c => ∃ b, R a b ∧ S b c) d d'' where
  frame := by rw [h'.frame, h.frame]
  arguments := forall₂_comp h.arguments h'.arguments
  keywords := (forall₂_comp h.keywords h'.keywords).imp fun _ _ ⟨_, hk, hl⟩ =>
    ⟨hk.1.trans hl.1, _, hk.2, hl.2⟩

theorem symm (h : Revised R d d') : Revised (fun b a => R a b) d' d where
  frame := by rw [h.frame]
  arguments := h.arguments.flip
  keywords := h.keywords.flip.imp fun _ _ hk => ⟨hk.1.symm, hk.2⟩

/-- What is revised through arguments in between is revised to a recipe with them. -/
theorem split (h : Revised (fun a c => ∃ b, R a b ∧ S b c) d d'') :
    ∃ d', Revised R d d' ∧ Revised S d' d'' := by
  obtain ⟨arguments, ha, ha'⟩ := forall₂_split h.arguments
  obtain ⟨keywords, hk, hk'⟩ := forall₂_split (R := Keyed R) (S := Keyed S) <|
    h.keywords.imp fun k l ⟨name, b, hkb, hbl⟩ => ⟨(k.1, b), ⟨rfl, hkb⟩, name, hbl⟩
  refine ⟨{ d with arguments, keywords }, ⟨rfl, ha, hk⟩, ?_, ha', hk'⟩
  rw [h.frame]

theorem of_map {φ : α → α} (h : ∀ a ∈ d.allArguments, R a (φ a)) : Revised R d { d with
      arguments := d.arguments.map φ
      keywords := d.keywords.map fun (name, a) => (name, φ a) } where
  frame := rfl
  arguments := List.forall₂_map_right_iff.2 <| List.forall₂_same.2 fun a ha =>
    h a (List.mem_append_left _ ha)
  keywords := List.forall₂_map_right_iff.2 <| List.forall₂_same.2 fun k hk =>
    ⟨rfl, h k.2 (List.mem_append_right _ (List.mem_map_of_mem hk))⟩

/-- What is revised by a function has its arguments mapped. -/
theorem eq_map {φ : α → α} (h : Revised (fun a b => b = φ a) d d') :
    d' = { d with
      arguments := d.arguments.map φ
      keywords := d.keywords.map fun (name, a) => (name, φ a) } := by
  have ha : d'.arguments = d.arguments.map φ := by
    rw [← List.forall₂_eq_eq_eq, List.forall₂_map_right_iff]
    exact h.arguments.flip
  have hk : d'.keywords = d.keywords.map fun (name, a) => (name, φ a) := by
    rw [← List.forall₂_eq_eq_eq, List.forall₂_map_right_iff]
    exact h.keywords.flip.imp fun _ _ hk => Prod.ext hk.1.symm hk.2
  rw [h.frame, ha, hk]

theorem eq (h : Revised (· = ·) d d') : d' = d := by
  have same : Revised (fun a b => b = (fun x => x) a) d d' := h.mono fun _ _ => Eq.symm
  simpa using same.eq_map

end Revised

end Recipe

/-! ## Revision by a rule -/

namespace Argument

variable {rule : Rule} {service tag : String}

theorem reviseAll_eq_ok {as bs : List Argument} :
    reviseAll rule service as = .ok bs ↔
      List.Forall₂ (fun a b => revise rule service a = .ok b) as bs := by
  rw [← mapM_eq_ok]
  suffices h : reviseAll rule service as = as.mapM (revise rule service) by rw [h]
  induction as with
  | nil => rfl
  | cons a as ih => rw [reviseAll, ih, List.mapM_cons]

theorem reviseNamed_eq_ok {ks ls : List (String × Argument)} :
    reviseNamed rule service ks = .ok ls ↔
      List.Forall₂ (Keyed fun a b => revise rule service a = .ok b) ks ls := by
  induction ks generalizing ls with
  | nil => cases ls <;> simp [reviseNamed]
  | cons k ks ih =>
    obtain ⟨name, a⟩ := k
    simp only [reviseNamed, bind_eq_ok, pure_eq_ok, ih]
    constructor
    · rintro ⟨b, hb, rest, hrest, rfl⟩
      exact .cons ⟨rfl, hb⟩ hrest
    · rintro (_ | @⟨_, l, _, rest, ⟨hname, hb⟩, hrest⟩)
      exact ⟨l.2, hb, rest, hrest, by simp [Prod.ext_iff, ← hname]⟩

theorem reviseMembers_eq_ok {as : List Argument} {rs : List Reference} :
    reviseMembers rule service tag as = .ok rs ↔
      List.Forall₂ (fun a r => rule a = .ok (.reference r)) as rs := by
  induction as generalizing rs with
  | nil => cases rs <;> simp [reviseMembers]
  | cons a as ih =>
    simp only [reviseMembers, bind_eq_ok]
    constructor
    · rintro ⟨b, hb, h⟩
      cases b <;> simp only [bind_eq_ok, pure_eq_ok, throw_ne_ok, ih] at h
      obtain ⟨rest, hrest, rfl⟩ := h
      exact .cons hb hrest
    · rintro (_ | ⟨hb, hrest⟩)
      exact ⟨_, hb, by simp [ih.2 hrest]⟩

end Argument

namespace Definition

variable {rule : Rule} {d d' : Definition}

/-- A rule revises a definition if it revises each argument. -/
theorem revise_eq_ok : revise rule d = .ok d' ↔
    Recipe.Revised (fun a b => Argument.revise rule d.id a = .ok b) d d' := by
  simp only [revise, bind_eq_ok, pure_eq_ok, Argument.reviseAll_eq_ok, Argument.reviseNamed_eq_ok]
  constructor
  · rintro ⟨arguments, ha, keywords, hk, rfl⟩
    exact ⟨rfl, ha, hk⟩
  · rintro ⟨hf, ha, hk⟩
    exact ⟨_, ha, _, hk, hf.symm⟩

end Definition

namespace Argument

variable {rule : Rule} {service : String}

theorem revise_inlined_eq_ok {m : Nat} {r : Recipe Argument} {b : Argument} :
    revise rule service (.inlined m r) = .ok b ↔
      ∃ r', Definition.revise rule r = .ok r' ∧ b = .inlined m r' := by
  simp only [revise, Definition.revise, bind_eq_ok, pure_eq_ok]
  constructor
  · rintro ⟨arguments, ha, keywords, hk, rfl⟩
    exact ⟨_, ⟨_, ha, _, hk, rfl⟩, rfl⟩
  · rintro ⟨_, ⟨arguments, ha, keywords, hk, rfl⟩, rfl⟩
    exact ⟨_, ha, _, hk, rfl⟩

theorem revise_collection_eq_ok {tag : String} {members : List Reference} {b : Argument} :
    revise rule service (.collection tag members) = .ok b ↔
      ∃ rs, List.Forall₂ (fun r s => rule (.reference r) = .ok (.reference s)) members rs ∧
        b = .collection tag rs := by
  simp only [revise, reviseOuter, bind_eq_ok, pure_eq_ok, reviseMembers_eq_ok,
    List.forall₂_map_left_iff, eq_comm (b := b)]

theorem revise_of_outer {a : Argument} (h : ∀ m r, a ≠ .inlined m r) :
    revise rule service a = reviseOuter rule service a := by
  cases a <;> first | rfl | exact absurd rfl (h _ _)

theorem reviseOuter_collection {tag : String} {members : List Reference}
    (kept : ∀ r ∈ members, rule (.reference r) = .ok (.reference r)) :
    reviseOuter rule service (.collection tag members) = .ok (.collection tag members) := by
  rw [reviseOuter, bind_eq_ok]
  refine ⟨members, reviseMembers_eq_ok.2 ?_, rfl⟩
  rw [List.forall₂_map_left_iff]
  exact List.forall₂_same.2 kept

theorem reviseOuter_of_settled {a : Argument} (settled : a.isSettled = true)
    (references : ∀ r ∈ a.direct, rule (.reference r) = .ok (.reference r))
    (literals : ∀ v, rule (.literal v) = .ok (.literal v)) :
    reviseOuter rule service a = .ok a := by
  cases a with
  | reference r => exact references r (by simp [direct])
  | literal v => exact literals v
  | collection tag members => exact reviseOuter_collection references
  | inlined => rfl
  | _ => cases settled

theorem reviseOuter_of_plain {a : Argument} (plain : a.isMixture = false)
    (references : ∀ r ∈ a.direct, rule (.reference r) = .ok (.reference r))
    (others : a.isReference = false → rule a = .ok a) : reviseOuter rule service a = .ok a := by
  cases a with
  | reference r => exact references r (by simp [direct])
  | collection tag members => exact reviseOuter_collection references
  | inlined => rfl
  | mixture => cases plain
  | _ => exact others rfl

end Argument

namespace Definition

variable {rule : Rule} {d : Definition}

/-- A rule that keeps the arguments of all parts keeps the definition. -/
theorem revise_of_kept
    (kept : ∀ p ∈ parts d, ∀ a ∈ p.allArguments, Argument.reviseOuter rule p.id a = .ok a) :
    revise rule d = .ok d := by
  induction d using Definition.induct with
  | step d ih =>
    refine revise_eq_ok.2 (.refl fun a ha => ?_)
    cases a with
    | inlined m r =>
      exact Argument.revise_inlined_eq_ok.2 ⟨r, ih m r ha fun p hp =>
        kept p (parts_trans (parts_of_inlined ha) hp), rfl⟩
    | _ =>
      rw [Argument.revise_of_outer (by simp)]
      exact kept d (self_mem_parts d) _ ha

/-- Where all arguments are settled, a rule that leaves the references and literals as they are
leaves the definition so. -/
theorem revise_of_settled (settled : d.Settled)
    (refs : ∀ r ∈ references d, rule (.reference r) = .ok (.reference r))
    (literals : ∀ v, rule (.literal v) = .ok (.literal v)) : revise rule d = .ok d :=
  revise_of_kept fun p hp a ha => Argument.reviseOuter_of_settled (settled p hp a ha)
    (fun r hr => refs r (mem_references.2 ⟨p, hp, a, ha, hr⟩)) literals

/-- Where no collection was made by hand, a rule that leaves all arguments as they are leaves the
definition so. -/
theorem revise_of_plain (plain : d.Plain)
    (refs : ∀ r ∈ references d, rule (.reference r) = .ok (.reference r))
    (others : ∀ a, a.isReference = false → rule a = .ok a) : revise rule d = .ok d :=
  revise_of_kept fun p hp a ha => Argument.reviseOuter_of_plain (plain p hp a ha)
    (fun r hr => refs r (mem_references.2 ⟨p, hp, a, ha, hr⟩)) (others a)

/-- Rules that agree on the references of a definition revise it alike. -/
theorem revise_of_agree {rule' : Rule} {d' : Definition} (plain : d.Plain)
    (agree : ∀ r ∈ references d, ∀ b, rule (.reference r) = .ok b → rule' (.reference r) = .ok b)
    (others : ∀ a, a.isReference = false → rule' a = rule a) (h : revise rule d = .ok d') :
    revise rule' d = .ok d' := by
  induction d using Definition.induct generalizing d' with
  | step d ih =>
    refine revise_eq_ok.2 ((revise_eq_ok.1 h).mono_mem fun a ha b hab => ?_)
    have agree {r} (hr : r ∈ a.references) := agree r (by
      rw [references_eq, List.mem_flatMap]
      exact ⟨a, ha, hr⟩)
    cases a with
    | reference r => exact agree (List.mem_singleton.2 rfl) b hab
    | collection tag members =>
      obtain ⟨rs, hrs, rfl⟩ := Argument.revise_collection_eq_ok.1 hab
      exact Argument.revise_collection_eq_ok.2
        ⟨rs, forall₂_imp_mem hrs fun r hr s hs => agree hr _ hs, rfl⟩
    | inlined m r =>
      obtain ⟨r', hr, rfl⟩ := Argument.revise_inlined_eq_ok.1 hab
      exact Argument.revise_inlined_eq_ok.2 ⟨r', ih m r ha
        (fun p hp => plain p (parts_trans (parts_of_inlined ha) hp))
        (fun x hx => agree (by simpa using hx)) hr, rfl⟩
    | mixture => cases plain d (self_mem_parts d) _ ha
    | _ => exact (others _ rfl).trans hab

end Definition

end Wiring
