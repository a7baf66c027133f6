import Wiring.Definition.Equality
import Wiring.Proofs.Lists
import Wiring.Proofs.Table

/-!
# What equality tells

Two definitions that equal each other are alike field by field, and what is embedded in them is
alike at every depth. How alike the values in them are is left to a relation: equality of values
does not tell a number from one of another type. Some values are equal to no value but themselves.
-/

namespace Wiring

variable {R S : Value → Value → Prop}

theorem forall₂_of_pairwise {α : Type} {same : α → α → Bool} {as bs : List α}
    (h : pairwise same as bs = true) : List.Forall₂ (fun a b => same a b = true) as bs := by
  induction as generalizing bs with
  | nil =>
    cases bs with
    | nil => exact .nil
    | cons => cases h
  | cons a as ih =>
    cases bs with
    | nil => cases h
    | cons b bs =>
      rw [pairwise, Bool.and_eq_true] at h
      exact .cons h.1 (ih h.2)

theorem forall₂_of_sameAll {vs ws : List Value} (h : Value.sameAll vs ws = true) :
    List.Forall₂ (fun v w => v.same w = true) vs ws := by
  induction vs generalizing ws with
  | nil =>
    cases ws with
    | nil => exact .nil
    | cons => cases h
  | cons v vs ih =>
    cases ws with
    | nil => cases h
    | cons w ws =>
      rw [Value.sameAll, Bool.and_eq_true] at h
      exact .cons h.1 (ih h.2)

/-! ## Values -/

/-- A value that nothing equals but itself. -/
def Value.Sole (w : Value) : Prop := ∀ v : Value, v.same w = true → v = w

namespace Value

theorem sole_null : Sole .null := fun v h => by
  cases v <;> simp [same, number?] at h ⊢

theorem sole_str (s : String) : Sole (.str s) := fun v h => by
  cases v <;> simp_all [same, number?]

theorem eq_of_sole {vs ws : List Value} (h : List.Forall₂ (fun v w => same v w = true) vs ws)
    (sole : ∀ w ∈ ws, Sole w) : vs = ws := by
  induction h with
  | nil => rfl
  | cons h _ ih =>
    rw [sole _ List.mem_cons_self _ h, ih fun w hw => sole w (List.mem_cons_of_mem _ hw)]

theorem sole_list {items : List Value} (sole : ∀ w ∈ items, Sole w) : Sole (.list items) :=
  fun v h => by
    cases v with
    | list vs =>
      rw [same] at h
      exact congrArg list (eq_of_sole (forall₂_of_sameAll h) sole)
    | _ => simp [same, number?] at h

theorem sole_tuple {items : List Value} (sole : ∀ w ∈ items, Sole w) : Sole (.tuple items) :=
  fun v h => by
    cases v with
    | tuple vs =>
      rw [same] at h
      exact congrArg tuple (eq_of_sole (forall₂_of_sameAll h) sole)
    | _ => simp [same, number?] at h

end Value

/-! ## Tags and frames -/

/-- The entries of one table are those of the other, place by place. -/
def AgreeEntries (R : Value → Value → Prop) (as bs : Table Value) : Prop :=
  List.Forall₂ (fun e e' => e.1 = e'.1 ∧ R e.2 e'.2) as bs

theorem agreeEntries_of_same {as bs : Table Value} (h : sameEntries as bs = true) :
    AgreeEntries (fun v w => v.same w = true) as bs := by
  simp only [sameEntries, Bool.and_eq_true, beq_iff_eq] at h
  obtain ⟨names, values⟩ := h
  replace values := forall₂_of_sameAll values
  induction as generalizing bs with
  | nil =>
    cases bs with
    | nil => exact .nil
    | cons => cases names
  | cons a as ih =>
    cases bs with
    | nil => cases names
    | cons b bs =>
      obtain ⟨name, names⟩ := List.cons.inj names
      cases values with
      | cons value values => exact .cons ⟨name, value⟩ (ih names values)

/-- Two tags are alike whatever the order of their attributes. -/
structure Tag.Agrees (R : Value → Value → Prop) (a b : Tag) : Prop where
  name : a.name = b.name
  length : a.attributes.length = b.attributes.length
  attributes : ∀ e ∈ a.attributes, ∃ w, b.attributes.get? e.1 = some w ∧ R e.2 w

/-- Two tags are alike, and so is the order of their attributes. -/
structure Tag.InOrder (R : Value → Value → Prop) (a b : Tag) : Prop where
  name : a.name = b.name
  attributes : AgreeEntries R a.attributes b.attributes

/-- Two labels are alike if they are tags that are, or values that are. -/
inductive Label.Agrees (R : Value → Value → Prop) (tags : Tag → Tag → Prop) : Label → Label → Prop
  | tag {a b : Tag} : tags a b → Agrees R tags (.tag a) (.tag b)
  | plain {v w : Value} : R v w → Agrees R tags (.plain v) (.plain w)

/-- Two recipes are alike in all that they have besides arguments and tags. Factories are alike if
they are the same type. -/
structure Recipe.Framed {α : Type} (R : Value → Value → Prop) (a b : Recipe α) : Prop where
  id : a.id = b.id
  factory : a.factory.map (·.type) = b.factory.map (·.type)
  isPublic : a.isPublic = b.isPublic
  isShared : a.isShared = b.isShared
  isAbstract : a.isAbstract = b.isAbstract
  isLazy : a.isLazy = b.isLazy
  autowired : a.autowired = b.autowired
  capabilities : List.Forall₂ R a.capabilities b.capabilities
  defaultFor : List.Forall₂ R a.defaultFor b.defaultFor
  parent : a.parent = b.parent

theorem Tag.agrees_of_same {a b : Tag} (h : Tag.same a b = true) :
    Tag.Agrees (fun v w => v.same w = true) a b := by
  simp only [Tag.same, sameTable, Bool.and_eq_true, beq_iff_eq, List.all_eq_true] at h
  obtain ⟨name, length, entries⟩ := h
  refine ⟨name, length, fun e he => ?_⟩
  have found := entries e he
  cases hw : b.attributes.get? e.1 with
  | none => simp [hw] at found
  | some w => exact ⟨w, rfl, by simpa [hw] using found⟩

theorem Tag.inOrder_of_identical {a b : Tag} (h : Tag.identical a b = true) :
    Tag.InOrder (fun v w => v.same w = true) a b := by
  simp only [Tag.identical, Bool.and_eq_true, beq_iff_eq] at h
  exact ⟨h.1, agreeEntries_of_same h.2⟩

theorem Label.agrees_of_same {same : Tag → Tag → Bool} {tags : Tag → Tag → Prop}
    (imp : ∀ a b, same a b = true → tags a b) {as bs : List Label}
    (h : pairwise (Label.sameBy same) as bs = true) :
    List.Forall₂ (Label.Agrees (fun v w => v.same w = true) tags) as bs := by
  refine (forall₂_of_pairwise h).imp fun a b h => ?_
  cases a with
  | tag a =>
    cases b with
    | tag b => exact .tag (imp a b h)
    | plain => cases h
  | plain v =>
    cases b with
    | tag => cases h
    | plain w => exact .plain h

theorem Recipe.framed_of_same {α : Type} {a b : Recipe α} (h : a.sameFrame b = true) :
    Framed (fun v w => v.same w = true) a b := by
  simp only [Recipe.sameFrame, Bool.and_eq_true, beq_iff_eq] at h
  obtain ⟨⟨⟨⟨⟨⟨⟨⟨⟨id, factory⟩, isPublic⟩, isShared⟩, isAbstract⟩, isLazy⟩, autowired⟩, capabilities⟩,
    defaultFor⟩, parent⟩ := h
  refine ⟨id, ?_, isPublic, isShared, isAbstract, isLazy, autowired, forall₂_of_sameAll capabilities,
    forall₂_of_sameAll defaultFor, parent⟩
  cases ha : a.factory with
  | none =>
    cases hb : b.factory with
    | none => rfl
    | some => simp [ha, hb] at factory
  | some f =>
    cases hb : b.factory with
    | none => simp [ha, hb] at factory
    | some k =>
      rw [ha, hb] at factory
      exact congrArg some (eq_of_beq (α := TypeRef) factory)

/-! ## Arguments -/

/-- Two arguments are alike at every depth. Marks do not count, and in an embedded recipe neither
does the order of keyword arguments and of the attributes of tags. -/
inductive Argument.Agrees (R : Value → Value → Prop) : Argument → Argument → Prop
  | reference {r : Reference} : Agrees R (.reference r) (.reference r)
  | parameter {name : String} : Agrees R (.parameter name) (.parameter name)
  | literal {v w : Value} : R v w → Agrees R (.literal v) (.literal w)
  | tagged {tag : String} : Agrees R (.tagged tag) (.tagged tag)
  | autowire {s t : Slot} : R (s.capability.getD .null) (t.capability.getD .null) →
      s.name = t.name → s.optional = t.optional → Agrees R (.autowire s) (.autowire t)
  | collection {tag : String} {members : List Reference} :
      Agrees R (.collection tag members) (.collection tag members)
  | mixture {tag : String} {as bs : List Argument} : List.Forall₂ (Agrees R) as bs →
      Agrees R (.mixture tag as) (.mixture tag bs)
  | inlined {m n : Nat} {r s : Recipe Argument} {ls : List (String × Argument)} : r.Framed R s →
      List.Forall₂ (Label.Agrees R (Tag.Agrees R)) r.tags s.tags →
      List.Forall₂ (Agrees R) r.arguments s.arguments → r.keywords.length = s.keywords.length →
      ls ⊆ s.keywords → r.keywords.map (·.1) = ls.map (·.1) →
      List.Forall₂ (Agrees R) (r.keywords.map (·.2)) (ls.map (·.2)) →
      Agrees R (.inlined m r) (.inlined n s)
  | plain {v w : Value} : R v w → Agrees R (.plain v) (.plain w)

/-- Two definitions are alike in all their fields, at every depth. -/
structure Definition.Agrees (R : Value → Value → Prop) (a b : Definition) : Prop where
  frame : a.Framed R b
  tags : List.Forall₂ (Label.Agrees R (Tag.InOrder R)) a.tags b.tags
  arguments : List.Forall₂ (Argument.Agrees R) a.arguments b.arguments
  keywords : List.Forall₂ (fun k l => k.1 = l.1 ∧ Argument.Agrees R k.2 l.2) a.keywords b.keywords

namespace Argument

mutual

/-- Arguments that equal each other are agrees. -/
theorem agrees_of_same (a b : Argument) (h : same a b = true) :
    Agrees (fun v w => v.same w = true) a b := by
  match a with
  | .reference r =>
    cases b with
    | reference s =>
      obtain rfl : r = s := by simpa [same] using h
      exact .reference
    | _ => simp [same] at h
  | .parameter n =>
    cases b with
    | parameter m =>
      obtain rfl : n = m := by simpa [same] using h
      exact .parameter
    | _ => simp [same] at h
  | .literal v =>
    cases b with
    | literal w => exact .literal (by simpa [same] using h)
    | _ => simp [same] at h
  | .tagged t =>
    cases b with
    | tagged u =>
      obtain rfl : t = u := by simpa [same] using h
      exact .tagged
    | _ => simp [same] at h
  | .autowire s =>
    cases b with
    | autowire t =>
      simp only [same, Slot.same, Bool.and_eq_true, beq_iff_eq] at h
      exact .autowire h.1.1 h.1.2 h.2
    | _ => simp [same] at h
  | .collection t rs =>
    cases b with
    | collection u ss =>
      obtain ⟨rfl, rfl⟩ : t = u ∧ rs = ss := by simpa [same] using h
      exact .collection
    | _ => simp [same] at h
  | .mixture t as =>
    cases b with
    | mixture u bs =>
      rw [same, Bool.and_eq_true, beq_iff_eq] at h
      obtain ⟨rfl, h⟩ := h
      exact .mixture (agrees_of_sameAll as bs h)
    | _ => simp [same] at h
  | .inlined m ⟨id, factory, arguments, keywords, tags, isPublic, isShared, isAbstract, isLazy,
      autowired, capabilities, defaultFor, parent⟩ =>
    cases b with
    | inlined n s =>
      simp only [same, Bool.and_eq_true, beq_iff_eq] at h
      obtain ⟨⟨⟨frame, labels⟩, positional⟩, length, named⟩ := h
      obtain ⟨ls, sub, names, values⟩ := agrees_of_sameNamed keywords s.keywords named
      exact .inlined (Recipe.framed_of_same frame)
        (Label.agrees_of_same (fun _ _ => Tag.agrees_of_same) labels)
        (agrees_of_sameAll arguments s.arguments positional) length sub names values
    | _ => simp [same] at h
  | .plain v =>
    cases b with
    | plain w => exact .plain (by simpa [same] using h)
    | _ => simp [same] at h

theorem agrees_of_sameAll (as bs : List Argument) (h : sameAll as bs = true) :
    List.Forall₂ (Agrees fun v w => v.same w = true) as bs := by
  match as with
  | [] =>
    cases bs with
    | nil => exact .nil
    | cons => simp [sameAll] at h
  | a :: as =>
    cases bs with
    | nil => simp [sameAll] at h
    | cons b bs =>
      rw [sameAll, Bool.and_eq_true] at h
      exact .cons (agrees_of_same a b h.1) (agrees_of_sameAll as bs h.2)

theorem agrees_of_sameNamed (ks ls : List (String × Argument)) (h : sameNamed ks ls = true) :
    ∃ ms ⊆ ls, ks.map (·.1) = ms.map (·.1) ∧
      List.Forall₂ (Agrees fun v w => v.same w = true) (ks.map (·.2)) (ms.map (·.2)) := by
  match ks with
  | [] => exact ⟨[], List.nil_subset _, rfl, .nil⟩
  | (name, a) :: ks =>
    rw [sameNamed, Bool.and_eq_true, List.any_eq_true] at h
    obtain ⟨⟨l, hl, here⟩, rest⟩ := h
    rw [Bool.and_eq_true, beq_iff_eq] at here
    obtain ⟨ms, sub, names, values⟩ := agrees_of_sameNamed ks ls rest
    refine ⟨l :: ms, List.cons_subset.2 ⟨hl, sub⟩, ?_, .cons (agrees_of_same a l.2 here.2) values⟩
    rw [List.map_cons, List.map_cons, names, here.1]

end

end Argument

/-- Definitions with the same state are agrees. -/
theorem Definition.agrees_of_same {a b : Definition} (h : sameState a b = true) :
    Agrees (fun v w => v.same w = true) a b := by
  simp only [sameState, Bool.and_eq_true] at h
  obtain ⟨⟨⟨frame, labels⟩, positional⟩, named⟩ := h
  refine ⟨Recipe.framed_of_same frame,
    Label.agrees_of_same (fun _ _ => Tag.inOrder_of_identical) labels,
    (forall₂_of_pairwise positional).imp fun a b h => Argument.agrees_of_same a b h,
    (forall₂_of_pairwise named).imp fun k l h => ?_⟩
  rw [Bool.and_eq_true, beq_iff_eq] at h
  exact ⟨h.1, Argument.agrees_of_same k.2 l.2 h.2⟩

/-! ## Values at every depth -/

/-- The values in a label. -/
def Label.values : Label → List Value
  | .tag t => t.attributes.map (·.2)
  | .plain v => [v]

/-- The values that a recipe has besides those in its arguments. -/
def Recipe.ownValues {α : Type} (r : Recipe α) : List Value :=
  r.capabilities ++ r.defaultFor ++ r.tags.flatMap Label.values

namespace Argument

mutual

/-- The values in an argument, at every depth. -/
def values : Argument → List Value
  | .literal v => [v]
  | .autowire s => [s.capability.getD .null]
  | .mixture _ members => valuesAll members
  | .inlined _ r => r.ownValues ++ valuesAll r.arguments ++ valuesNamed r.keywords
  | .plain v => [v]
  | _ => []

/-- The values in positional arguments. -/
def valuesAll : List Argument → List Value
  | [] => []
  | a :: as => values a ++ valuesAll as

/-- The values in keyword arguments. -/
def valuesNamed : List (String × Argument) → List Value
  | [] => []
  | (_, a) :: ks => values a ++ valuesNamed ks

end

end Argument

/-- The values in a definition, at every depth. -/
def Definition.values (d : Definition) : List Value :=
  d.ownValues ++ Argument.valuesAll d.arguments ++ Argument.valuesNamed d.keywords

/-- What holds of all values on the right can be told of two lists of values. -/
theorem forall₂_narrow {α β : Type} {R S : α → β → Prop} {as : List α} {bs : List β}
    (h : List.Forall₂ R as bs) (imp : ∀ b ∈ bs, ∀ a, R a b → S a b) : List.Forall₂ S as bs := by
  induction h with
  | nil => exact .nil
  | cons h _ ih =>
    exact .cons (imp _ List.mem_cons_self _ h) (ih fun b hb => imp b (List.mem_cons_of_mem _ hb))

theorem Recipe.Framed.narrow {α : Type} {r s : Recipe α} (h : r.Framed R s)
    (imp : ∀ w ∈ s.ownValues, ∀ v, R v w → S v w) : r.Framed S s where
  id := h.id
  factory := h.factory
  isPublic := h.isPublic
  isShared := h.isShared
  isAbstract := h.isAbstract
  isLazy := h.isLazy
  autowired := h.autowired
  capabilities := forall₂_narrow h.capabilities fun w hw =>
    imp w (List.mem_append_left _ (List.mem_append_left _ hw))
  defaultFor := forall₂_narrow h.defaultFor fun w hw =>
    imp w (List.mem_append_left _ (List.mem_append_right _ hw))
  parent := h.parent

theorem Tag.Agrees.narrow {a b : Tag} (h : Tag.Agrees R a b)
    (imp : ∀ w ∈ b.attributes.map (·.2), ∀ v, R v w → S v w) : Tag.Agrees S a b where
  name := h.name
  length := h.length
  attributes e he := by
    obtain ⟨w, found, agrees⟩ := h.attributes e he
    exact ⟨w, found, imp w (List.mem_map_of_mem (Table.mem_of_get? found)) e.2 agrees⟩

theorem Tag.InOrder.narrow {a b : Tag} (h : Tag.InOrder R a b)
    (imp : ∀ w ∈ b.attributes.map (·.2), ∀ v, R v w → S v w) : Tag.InOrder S a b where
  name := h.name
  attributes := forall₂_narrow h.attributes fun e he x agrees =>
    ⟨agrees.1, imp e.2 (List.mem_map_of_mem he) x.2 agrees.2⟩

theorem Label.Agrees.narrow {tags tags' : Tag → Tag → Prop} {ls ms : List Label}
    (h : List.Forall₂ (Label.Agrees R tags) ls ms)
    (imp : ∀ w ∈ ms.flatMap Label.values, ∀ v, R v w → S v w)
    (narrow : ∀ a b, tags a b → (∀ w ∈ b.attributes.map (·.2), ∀ v, R v w → S v w) → tags' a b) :
    List.Forall₂ (Label.Agrees S tags') ls ms := by
  refine forall₂_narrow h fun m hm l agrees => ?_
  have imp : ∀ w ∈ m.values, ∀ v, R v w → S v w := fun w hw =>
    imp w (List.mem_flatMap.2 ⟨m, hm, hw⟩)
  cases agrees with
  | tag agrees => exact .tag (narrow _ _ agrees imp)
  | plain agrees => exact .plain (imp _ (List.mem_singleton.2 rfl) _ agrees)

namespace Argument

mutual

/-- Arguments are as alike as the values in them are. -/
theorem Agrees.narrow (b : Argument) (imp : ∀ w ∈ values b, ∀ v, R v w → S v w) (a : Argument)
    (h : Agrees R a b) : Agrees S a b := by
  match b with
  | .reference _ => cases h; exact .reference
  | .parameter _ => cases h; exact .parameter
  | .literal w =>
    cases h with
    | literal agrees => exact .literal (imp w (by simp [values]) _ agrees)
  | .tagged _ => cases h; exact .tagged
  | .autowire t =>
    cases h with
    | autowire agrees name optional =>
      exact .autowire (imp _ (by simp [values]) _ agrees) name optional
  | .collection _ _ => cases h; exact .collection
  | .mixture _ bs =>
    cases h with
    | mixture agrees =>
      exact .mixture (forall₂_narrow agrees (Agrees.narrowAll bs (by simpa [values] using imp)))
  | .inlined _ ⟨id, factory, arguments, keywords, tags, isPublic, isShared, isAbstract, isLazy,
      autowired, capabilities, defaultFor, parent⟩ =>
    cases h with
    | inlined frame labels positional length sub names values =>
      rw [Argument.values] at imp
      refine .inlined (frame.narrow fun w hw => imp w ?_) (Label.Agrees.narrow labels
        (fun w hw => imp w ?_) fun a b => Tag.Agrees.narrow) (forall₂_narrow positional
        (Agrees.narrowAll arguments fun w hw => imp w ?_)) length sub names (forall₂_narrow values
        fun b hb => ?_)
      · exact List.mem_append_left _ (List.mem_append_left _ hw)
      · exact List.mem_append_left _ (List.mem_append_left _ (List.mem_append_right _ hw))
      · exact List.mem_append_left _ (List.mem_append_right _ hw)
      · obtain ⟨l, hl, rfl⟩ := List.mem_map.1 hb
        exact Agrees.narrowNamed keywords (fun w hw => imp w (List.mem_append_right _ hw)) l (sub hl)
  | .plain w =>
    cases h with
    | plain agrees => exact .plain (imp w (by simp [values]) _ agrees)

theorem Agrees.narrowAll (bs : List Argument) (imp : ∀ w ∈ valuesAll bs, ∀ v, R v w → S v w) :
    ∀ b ∈ bs, ∀ a, Agrees R a b → Agrees S a b := by
  match bs with
  | [] => simp
  | c :: cs =>
    rw [valuesAll] at imp
    intro b hb
    rcases List.mem_cons.1 hb with here | hb
    · rw [here]
      exact Agrees.narrow c fun w hw => imp w (List.mem_append_left _ hw)
    · exact Agrees.narrowAll cs (fun w hw => imp w (List.mem_append_right _ hw)) b hb

theorem Agrees.narrowNamed (ks : List (String × Argument))
    (imp : ∀ w ∈ valuesNamed ks, ∀ v, R v w → S v w) :
    ∀ k ∈ ks, ∀ a, Agrees R a k.2 → Agrees S a k.2 := by
  match ks with
  | [] => simp
  | (name, c) :: cs =>
    rw [valuesNamed] at imp
    intro k hk
    rcases List.mem_cons.1 hk with here | hk
    · rw [here]
      exact Agrees.narrow c fun w hw => imp w (List.mem_append_left _ hw)
    · exact Agrees.narrowNamed cs (fun w hw => imp w (List.mem_append_right _ hw)) k hk

end

end Argument

/-- Definitions are as alike as the values in them are. -/
theorem Definition.Agrees.narrow {a b : Definition} (h : Agrees R a b)
    (imp : ∀ w ∈ b.values, ∀ v, R v w → S v w) : Agrees S a b where
  frame := h.frame.narrow fun w hw => imp w (List.mem_append_left _ (List.mem_append_left _ hw))
  tags := Label.Agrees.narrow h.tags (fun w hw => imp w (List.mem_append_left _
    (List.mem_append_left _ (List.mem_append_right _ hw)))) fun _ _ => Tag.InOrder.narrow
  arguments := forall₂_narrow h.arguments (Argument.Agrees.narrowAll b.arguments fun w hw =>
    imp w (List.mem_append_left _ (List.mem_append_right _ hw)))
  keywords := forall₂_narrow h.keywords fun l hl k agrees => ⟨agrees.1,
    Argument.Agrees.narrowNamed b.keywords (fun w hw => imp w (List.mem_append_right _ hw)) l hl k.2
      agrees.2⟩

end Wiring
