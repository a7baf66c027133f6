import Wiring.Definition.Equality
import Wiring.Proofs.Definition.Grafting
import Wiring.Proofs.Graph.Registered
import Wiring.Proofs.Value.Same

/-!
# Equality of definitions

A definition equals itself where its tags are tags and no collection in it was made by hand.
-/

namespace Wiring

theorem sameValues_self (vs : List Value) : sameValues vs vs = true := Value.sameAll_refl vs

theorem sameEntries_self (t : Table Value) : sameEntries t t = true := by
  simp [sameEntries, sameValues_self]

theorem sameTable_self {t : Table Value} (unique : t.names.Nodup) : sameTable t t = true := by
  simp only [sameTable, beq_self_eq_true, Bool.true_and, List.all_eq_true]
  rintro ⟨k, v⟩ hk
  rw [Table.get?_of_mem unique hk]
  exact Value.same_refl v

theorem Slot.same_self (s : Slot) : Slot.same s s = true := by
  simp [Slot.same, Value.same_refl]

theorem Tag.identical_self (t : Tag) : Tag.identical t t = true := by
  simp [Tag.identical, sameEntries_self]

theorem Tag.same_self {t : Tag} (unique : t.attributes.names.Nodup) : Tag.same t t = true := by
  simp [Tag.same, sameTable_self unique]

theorem pairwise_self {α : Type} {same : α → α → Bool} {as : List α}
    (h : ∀ a ∈ as, same a a = true) : pairwise same as as = true := by
  induction as with
  | nil => rfl
  | cons a as ih =>
    rw [pairwise, h a List.mem_cons_self, Bool.true_and]
    exact ih fun b hb => h b (List.mem_cons_of_mem a hb)

theorem Recipe.sameFrame_self {α : Type} (r : Recipe α) : r.sameFrame r = true := by
  have factory : (r.factory == r.factory) = true := by
    cases r.factory with
    | none => rfl
    | some f => exact beq_self_eq_true f.type
  simp [sameFrame, factory, sameValues_self]

namespace Argument

theorem sameAll_self {as : List Argument} (h : ∀ a ∈ as, same a a = true) :
    sameAll as as = true := by
  induction as with
  | nil => rw [sameAll]
  | cons a as ih =>
    rw [sameAll, h a List.mem_cons_self, Bool.true_and]
    exact ih fun b hb => h b (List.mem_cons_of_mem a hb)

theorem sameNamed_of_subset {ks ls : List (String × Argument)} (sub : ∀ k ∈ ks, k ∈ ls)
    (h : ∀ k ∈ ks, same k.2 k.2 = true) : sameNamed ks ls = true := by
  induction ks with
  | nil => rw [sameNamed]
  | cons k ks ih =>
    rw [sameNamed, Bool.and_eq_true, List.any_eq_true]
    refine ⟨⟨k, sub k List.mem_cons_self, ?_⟩, ih (fun l hl => sub l (List.mem_cons_of_mem k hl))
      fun l hl => h l (List.mem_cons_of_mem k hl)⟩
    simp [h k List.mem_cons_self]

end Argument

namespace Definition

variable {d : Definition}

/-- The arguments of a definition equal themselves. -/
theorem same_argument (plain : d.Plain) (tagged : ∀ q ∈ parts d, ∀ l ∈ q.tags, l.IsTag) :
    ∀ a ∈ d.allArguments, Argument.same a a = true := by
  induction d using Definition.induct with
  | step d ih =>
    intro a ha
    cases a with
    | inlined m r =>
      have inner := ih m r ha (fun q hq => plain q (parts_trans (parts_of_inlined ha) hq)) fun q hq =>
        tagged q (parts_trans (parts_of_inlined ha) hq)
      have labels : pairwise (Label.sameBy Tag.same) r.tags r.tags = true :=
        pairwise_self fun l hl => by
          obtain ⟨t, rfl, unique⟩ := tagged r (parts_of_inlined ha) l hl
          exact Tag.same_self unique
      have positional := Argument.sameAll_self fun a ha => inner a (List.mem_append_left _ ha)
      have named := Argument.sameNamed_of_subset (fun _ h => h) fun k hk =>
        inner k.2 (List.mem_append_right _ (List.mem_map_of_mem hk))
      simp [Argument.same, Recipe.sameFrame_self, labels, positional, named]
    | reference r => simp [Argument.same]
    | literal v => simp [Argument.same, Value.same_refl]
    | mixture tag members => cases plain d (self_mem_parts d) _ ha
    | plain v => simp [Argument.same, Value.same_refl]
    | autowire slot => simp [Argument.same, Slot.same_self]
    | parameter | tagged | collection => simp [Argument.same]

theorem sameState_self (plain : d.Plain) (tagged : ∀ q ∈ parts d, ∀ l ∈ q.tags, l.IsTag) :
    sameState d d = true := by
  have arguments := same_argument plain tagged
  have labels : pairwise (Label.sameBy Tag.identical) d.tags d.tags = true :=
    pairwise_self fun l hl => by
      obtain ⟨t, rfl, -⟩ := tagged d (self_mem_parts d) l hl
      exact Tag.identical_self t
  have positional := pairwise_self fun a ha => arguments a (List.mem_append_left _ ha)
  have named : pairwise (fun (x y : String × Argument) => x.1 == y.1 && x.2.same y.2) d.keywords
      d.keywords = true := pairwise_self fun k hk => by
    rw [arguments k.2 (List.mem_append_right _ (List.mem_map_of_mem hk)), beq_self_eq_true]
    rfl
  simp [sameState, Recipe.sameFrame_self, labels, positional, named]

end Definition

end Wiring
