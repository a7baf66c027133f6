import Wiring.Definition.Referents
import Wiring.Proofs.Lists
import Wiring.Proofs.Outcome

/-!
# The parts of a definition

A definition is made of recipes: its own, and those embedded in it at every depth. The walks over
definitions are plain lists of what the parts yield, and `Definition.induct` follows the nesting.
-/

namespace Wiring

theorem sizeOf_lt_of_mem {r : Recipe Argument} {a : Argument} (h : a ∈ r.allArguments) :
    sizeOf a < sizeOf r := by
  obtain ⟨id, factory, arguments, keywords, tags, _, _, _, _, _, capabilities, defaultFor, parent⟩
    := r
  simp only [Recipe.allArguments, List.mem_append, List.mem_map] at h
  simp only [Recipe.mk.sizeOf_spec]
  rcases h with h | ⟨⟨name, b⟩, h, rfl⟩
  · have := List.sizeOf_lt_of_mem h
    omega
  · have := List.sizeOf_lt_of_mem h
    simp only [Prod.mk.sizeOf_spec] at this
    show sizeOf b < _
    omega

/-- Induction over the nesting of recipes. -/
@[elab_as_elim]
theorem Definition.induct {P : Definition → Prop}
    (step : ∀ d : Definition, (∀ m r, .inlined m r ∈ d.allArguments → P r) → P d)
    (d : Definition) : P d :=
  step d fun m r h =>
    have : sizeOf r < sizeOf d := by
      have := sizeOf_lt_of_mem h
      simp only [Argument.inlined.sizeOf_spec] at this
      omega
    Definition.induct step r
termination_by sizeOf d

/-! ## Walks as lists -/

namespace Argument

theorem referencesAll_eq (as : List Argument) : referencesAll as = as.flatMap references := by
  induction as with
  | nil => rfl
  | cons a as ih => rw [referencesAll, ih, List.flatMap_cons]

theorem referencesNamed_eq (ks : List (String × Argument)) :
    referencesNamed ks = (ks.map (·.2)).flatMap references := by
  induction ks with
  | nil => rfl
  | cons k ks ih => rw [referencesNamed, ih, List.map_cons, List.flatMap_cons]

theorem embeddedAll_eq (as : List Argument) : embeddedAll as = as.flatMap embedded := by
  induction as with
  | nil => rfl
  | cons a as ih => rw [embeddedAll, ih, List.flatMap_cons]

theorem embeddedNamed_eq (ks : List (String × Argument)) :
    embeddedNamed ks = (ks.map (·.2)).flatMap embedded := by
  induction ks with
  | nil => rfl
  | cons k ks ih => rw [embeddedNamed, ih, List.map_cons, List.flatMap_cons]

theorem referentsAll_eq (as : List Argument) : referentsAll as = as.flatMap referents := by
  induction as with
  | nil => rfl
  | cons a as ih => rw [referentsAll, ih, List.flatMap_cons]

theorem referentsNamed_eq (ks : List (String × Argument)) :
    referentsNamed ks = (ks.map (·.2)).flatMap referents := by
  induction ks with
  | nil => rfl
  | cons k ks ih => rw [referentsNamed, ih, List.map_cons, List.flatMap_cons]

end Argument

namespace Definition

theorem references_eq (d : Definition) :
    references d = d.allArguments.flatMap Argument.references := by
  rw [references, Argument.referencesAll_eq, Argument.referencesNamed_eq, Recipe.allArguments,
    List.flatMap_append]

theorem embedded_eq (d : Definition) : embedded d = d.allArguments.flatMap Argument.embedded := by
  rw [embedded, Argument.embeddedAll_eq, Argument.embeddedNamed_eq, Recipe.allArguments,
    List.flatMap_append]

theorem referents_eq (d : Definition) :
    referents d = d.allArguments.flatMap Argument.referents := by
  rw [referents, Argument.referentsAll_eq, Argument.referentsNamed_eq, Recipe.allArguments,
    List.flatMap_append]

end Definition

namespace Argument

@[simp] theorem references_inlined (m : Nat) (r : Recipe Argument) :
    references (.inlined m r) = Definition.references r := by
  rw [references, Definition.references]

@[simp] theorem embedded_inlined (m : Nat) (r : Recipe Argument) :
    embedded (.inlined m r) = (m, r) :: Definition.embedded r := by
  rw [embedded, Definition.embedded]

@[simp] theorem referents_inlined (m : Nat) (r : Recipe Argument) :
    referents (.inlined m r) = Definition.referents r := by
  rw [referents, Definition.referents]

/-- The references that an argument holds by itself. -/
def direct : Argument → List Reference
  | .reference r => [r]
  | .collection _ members => members
  | .mixture _ members => members.filterMap reference?
  | _ => []

/-- Whether an argument is a collection that was made by hand. -/
def isMixture : Argument → Bool
  | .mixture _ _ => true
  | _ => false

/-- Whether an argument is of a kind that compilation leaves. -/
def isSettled : Argument → Bool
  | .reference _ | .literal _ | .collection _ _ | .inlined _ _ => true
  | _ => false

theorem isMixture_of_settled {a : Argument} (h : a.isSettled = true) : a.isMixture = false := by
  cases a <;> simp_all [isSettled, isMixture]

theorem references_eq_direct {a : Argument} (h : ∀ m r, a ≠ .inlined m r) :
    references a = direct a := by
  cases a <;> first | rfl | exact absurd rfl (h _ _)

theorem embedded_eq_nil {a : Argument} (h : ∀ m r, a ≠ .inlined m r) : embedded a = [] := by
  cases a <;> first | rfl | exact absurd rfl (h _ _)

end Argument

/-! ## Parts -/

namespace Definition

/-- The recipes that a definition is made of: its own and those embedded in it. -/
def parts (d : Definition) : List Definition := d :: (embedded d).map (·.2)

theorem self_mem_parts (d : Definition) : d ∈ parts d := List.mem_cons_self

theorem mem_embedded {d : Definition} {e : Nat × Definition} :
    e ∈ embedded d ↔
      ∃ m r, .inlined m r ∈ d.allArguments ∧ (e = (m, r) ∨ e ∈ embedded r) := by
  rw [embedded_eq, List.mem_flatMap]
  constructor
  · rintro ⟨a, ha, he⟩
    cases a with
    | inlined m r => exact ⟨m, r, ha, by simpa using he⟩
    | _ => simp [Argument.embedded] at he
  · rintro ⟨m, r, ha, he⟩
    exact ⟨_, ha, by simpa using he⟩

/-- A definition embeds more than any recipe that is embedded in it. -/
theorem embeddedCount_lt {d : Definition} {e : Nat × Definition} (he : e ∈ embedded d) :
    embeddedCount e.2 < embeddedCount d := by
  induction d using Definition.induct with
  | step d ih =>
    obtain ⟨m, r, ha, he⟩ := mem_embedded.1 he
    have more : embeddedCount r < embeddedCount d := by
      rw [embeddedCount, embeddedCount, embedded_eq d]
      obtain ⟨before, after, split⟩ := List.append_of_mem ha
      simp only [split, List.flatMap_append, List.flatMap_cons, Argument.embedded_inlined,
        List.length_append, List.length_cons]
      omega
    rcases he with rfl | he
    · exact more
    · exact (ih m r ha he).trans more

theorem mem_parts {d p : Definition} :
    p ∈ parts d ↔ p = d ∨ ∃ m r, .inlined m r ∈ d.allArguments ∧ p ∈ parts r := by
  simp only [parts, List.mem_cons, List.mem_map]
  constructor
  · rintro (h | ⟨e, he, rfl⟩)
    · exact .inl h
    · obtain ⟨m, r, ha, rfl | he⟩ := mem_embedded.1 he
      · exact .inr ⟨m, r, ha, .inl rfl⟩
      · exact .inr ⟨m, r, ha, .inr ⟨e, he, rfl⟩⟩
  · rintro (h | ⟨m, r, ha, rfl | ⟨e, he, rfl⟩⟩)
    · exact .inl h
    · exact .inr ⟨(m, p), mem_embedded.2 ⟨m, p, ha, .inl rfl⟩, rfl⟩
    · exact .inr ⟨e, mem_embedded.2 ⟨m, r, ha, .inr he⟩, rfl⟩

theorem parts_of_inlined {d r : Definition} {m : Nat} (h : .inlined m r ∈ d.allArguments) :
    r ∈ parts d :=
  mem_parts.2 (.inr ⟨m, r, h, self_mem_parts r⟩)

/-- The parts of a part are parts. -/
theorem parts_trans {d p q : Definition} (hp : p ∈ parts d) (hq : q ∈ parts p) : q ∈ parts d := by
  induction d using Definition.induct with
  | step d ih =>
    rcases mem_parts.1 hp with rfl | ⟨m, r, ha, hp⟩
    · exact hq
    · exact mem_parts.2 (.inr ⟨m, r, ha, ih m r ha hp⟩)

/-- What is embedded in a part is embedded in the definition. -/
theorem embedded_trans {d q : Definition} {e : Nat × Definition} (hq : q ∈ parts d)
    (he : e ∈ embedded q) : e ∈ embedded d := by
  induction d using Definition.induct with
  | step d ih =>
    rcases mem_parts.1 hq with rfl | ⟨m, r, ha, hq⟩
    · exact he
    · exact mem_embedded.2 ⟨m, r, ha, .inr (ih m r ha hq)⟩

theorem embedded_of_part {d q r : Definition} {m : Nat} (hq : q ∈ parts d)
    (h : .inlined m r ∈ q.allArguments) : (m, r) ∈ embedded d :=
  embedded_trans hq (mem_embedded.2 ⟨m, r, h, .inl rfl⟩)

/-- The references of a definition are those that the arguments of its parts hold. -/
theorem mem_references {d : Definition} {x : Reference} :
    x ∈ references d ↔ ∃ p ∈ parts d, ∃ a ∈ p.allArguments, x ∈ a.direct := by
  induction d using Definition.induct with
  | step d ih =>
    rw [references_eq, List.mem_flatMap]
    constructor
    · rintro ⟨a, ha, hx⟩
      cases a with
      | inlined m r =>
        obtain ⟨p, hp, b, hb, hx⟩ := (ih m r ha).1 (by simpa using hx)
        exact ⟨p, mem_parts.2 (.inr ⟨m, r, ha, hp⟩), b, hb, hx⟩
      | _ => exact ⟨d, self_mem_parts d, _, ha, by simpa [Argument.references_eq_direct] using hx⟩
    · rintro ⟨p, hp, a, ha, hx⟩
      rcases mem_parts.1 hp with rfl | ⟨m, r, hr, hp⟩
      · refine ⟨a, ha, ?_⟩
        rw [Argument.references_eq_direct fun m r h => by simp [h, Argument.direct] at hx]
        exact hx
      · exact ⟨_, hr, by simpa using (ih m r hr).2 ⟨p, hp, a, ha, hx⟩⟩

/-- No collection in a definition was made by hand. -/
def Plain (d : Definition) : Prop :=
  ∀ p ∈ parts d, ∀ a ∈ p.allArguments, a.isMixture = false

/-- All arguments of the parts of a definition are of the kinds that compilation leaves. -/
def Settled (d : Definition) : Prop :=
  ∀ p ∈ parts d, ∀ a ∈ p.allArguments, a.isSettled = true

theorem Settled.plain {d : Definition} (h : d.Settled) : d.Plain :=
  fun p hp a ha => Argument.isMixture_of_settled (h p hp a ha)

/-- Where no collection was made by hand, the referents are the references. -/
theorem referents_of_plain {d : Definition} (h : d.Plain) :
    referents d = (references d).map .reference := by
  induction d using Definition.induct with
  | step d ih =>
    rw [referents_eq, references_eq, List.map_flatMap]
    refine List.flatMap_congr fun a ha => ?_
    cases a with
    | inlined m r =>
      simpa using ih m r ha fun p hp => h p (mem_parts.2 (.inr ⟨m, r, ha, hp⟩))
    | mixture => simpa [Argument.isMixture] using h d (self_mem_parts d) _ ha
    | _ => rfl

/-- A reference is needed of what the arguments of parts hold. -/
theorem referents_of_part {d q : Definition} {a b : Argument} (hq : q ∈ parts d)
    (ha : a ∈ q.allArguments) (hb : b ∈ a.referents) : b ∈ referents d := by
  induction d using Definition.induct with
  | step d ih =>
    rw [referents_eq, List.mem_flatMap]
    rcases mem_parts.1 hq with rfl | ⟨m, r, hr, hq⟩
    · exact ⟨a, ha, hb⟩
    · exact ⟨_, hr, by simpa using ih m r hr hq⟩

/-- All that a reference is needed of is one. -/
def Referring (d : Definition) : Prop := ∀ a ∈ referents d, a.isReference = true

theorem Plain.referring {d : Definition} (h : d.Plain) : d.Referring := by
  intro a ha
  rw [referents_of_plain h] at ha
  obtain ⟨r, -, rfl⟩ := List.mem_map.1 ha
  rfl

/-- Something is done for each reference of a definition only where all referents are references. -/
theorem eachReference_eq_ok {α : Type} {d : Definition} {act : Reference → Except Failure α}
    {xs : List α} : eachReference d act = .ok xs ↔
      d.Referring ∧ (references d).mapM act = .ok xs := by
  unfold eachReference Referring
  rw [← List.all_eq_true]
  split
  next all => exact (and_iff_right all).symm
  next none =>
    refine iff_of_false (fun h => none (List.all_eq_true.2 fun a ha => ?_)) fun h => none h.1
    obtain ⟨x, -, h⟩ := forall₂_mem_left (mapM_eq_ok.1 h) ha
    obtain ⟨r, required, -⟩ := bind_eq_ok.1 h
    cases a with
    | reference => rfl
    | plain v => cases required
    | _ => cases required

/-- References are referents. -/
theorem mem_referents_of_references {d : Definition} {r : Reference} (h : r ∈ references d) :
    .reference r ∈ referents d := by
  induction d using Definition.induct with
  | step d ih =>
    rw [references_eq] at h
    rw [referents_eq]
    obtain ⟨a, ha, hr⟩ := List.mem_flatMap.1 h
    refine List.mem_flatMap.2 ⟨a, ha, ?_⟩
    cases a with
    | inlined m q =>
      rw [Argument.references_inlined] at hr
      rw [Argument.referents_inlined]
      exact ih m q ha hr
    | mixture tag members =>
      obtain ⟨x, hx, same⟩ := List.mem_filterMap.1 (by rwa [Argument.references] at hr)
      cases x with
      | reference r' =>
        obtain rfl := Option.some.inj same
        rwa [Argument.referents]
      | _ => cases same
    | reference | collection => simpa [Argument.references, Argument.referents] using hr
    | _ => simp [Argument.references] at hr

/-- Where no collection was made by hand, something can be done for each reference if it can be
done for each by itself. -/
theorem eachReference_of_plain {α : Type} {d : Definition} (h : d.Plain)
    (act : Reference → Except Failure α) : eachReference d act = (references d).mapM act := by
  unfold eachReference
  rw [referents_of_plain h, if_pos]
  simp [Argument.isReference, Argument.reference?]

end Definition

end Wiring
