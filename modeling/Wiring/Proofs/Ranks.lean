import Mathlib.Data.List.Perm.Basic
import Mathlib.Logic.Relation
import Mathlib.Order.Basic

/-!
# Ranks and layers

A relation without cycles ranks the entries of a list. Where entries yield further ones of smaller
rank, what is unfolded layer by layer is what the entries hold by themselves.
-/

namespace Wiring

/-- What falls along a relation has no way back. -/
theorem acyclic_of_falling {α β : Type} [Preorder β] {E : α → α → Prop} (weight : α → β)
    (falls : ∀ a b, E a b → weight b < weight a) (a b : α) (step : E a b) :
    ¬ Relation.ReflTransGen E b a := by
  intro path
  have back : weight a ≤ weight b := by
    clear step
    induction path with
    | refl => exact le_rfl
    | tail _ last ih => exact (falls _ _ last).le.trans ih
  exact ((falls a b step).trans_le back).false

/-- Entries that an acyclic relation leads to from others have smaller ranks, and there are no more
ranks than entries. -/
theorem exists_rank {α : Type} {E : α → α → Prop}
    (acyclic : ∀ a b, E a b → ¬ Relation.ReflTransGen E b a) (as : List α) :
    ∃ rank : α → Nat, (∀ a ∈ as, rank a < as.length) ∧
      ∀ a b, E a b → b ∈ as → rank b < rank a := by
  classical
  let below (a : α) : List α := as.filter fun b => decide (Relation.TransGen E a b)
  have irrefl (a : α) : ¬ Relation.TransGen E a a := fun h => by
    obtain ⟨b, hab, path⟩ := Relation.TransGen.head'_iff.1 h
    exact acyclic a b hab path
  refine ⟨fun a => (below a).length, fun a ha => ?_, fun a b hab hb => ?_⟩
  · exact List.length_filter_lt_length_iff_exists.2 ⟨a, ha, by simpa using irrefl a⟩
  · have inside : below b = (below a).filter fun c => decide (Relation.TransGen E b c) := by
      rw [List.filter_filter]
      refine List.filter_congr fun c _ => ?_
      rw [← Bool.decide_and, decide_eq_decide]
      exact ⟨fun path => ⟨path, .head hab path⟩, And.left⟩
    show (below b).length < _
    rw [inside]
    exact List.length_filter_lt_length_iff_exists.2
      ⟨b, List.mem_filter.2 ⟨hb, decide_eq_true (.single hab)⟩, by simpa using irrefl b⟩

/-- Each of `as` is in `roots` or comes next of one of them, and `f` unfolds what comes next; what
the roots unfold to after as many layers as there are ranks is what all of `as` hold. -/
theorem flatMap_layers {α β : Type} (next : α → List α) (rank : α → Nat) {hold : α → List β}
    {f : Nat → α → List β} (n : Nat) {roots as : List α}
    (zero : ∀ a ∈ as, f 0 a = hold a) (falling : ∀ a ∈ as, ∀ b ∈ next a, rank b < rank a)
    (succ : ∀ k < n, ∀ a ∈ as, (f (k + 1) a).Perm (hold a ++ (next a).flatMap (f k)))
    (split : as.Perm (roots ++ as.flatMap next)) (ranked : ∀ a ∈ as, rank a ≤ n) :
    (roots.flatMap (f n)).Perm (as.flatMap hold) := by
  induction n generalizing roots as with
  | zero =>
    have leaf : as.flatMap next = [] := List.flatMap_eq_nil_iff.2 fun a ha =>
      List.eq_nil_iff_forall_not_mem.2 fun b hb => by
        have := falling a ha b hb
        have := ranked a ha
        omega
    rw [leaf, List.append_nil] at split
    rw [List.flatMap_congr fun a ha => zero a (split.mem_iff.2 ha)]
    exact (split.flatMap_right hold).symm
  | succ n ih =>
    have inside : ∀ b ∈ as.flatMap next, b ∈ as := fun b hb =>
      split.mem_iff.2 (List.mem_append_right _ hb)
    have deeper : ((roots.flatMap next).flatMap (f n)).Perm ((as.flatMap next).flatMap hold) := ih
      (fun a ha => zero a (inside a ha)) (fun a ha => falling a (inside a ha))
      (fun k hk a ha => succ k (by omega) a (inside a ha))
      (by
        have := split.flatMap_right next
        rwa [List.flatMap_append] at this)
      fun b hb => by
        obtain ⟨a, ha, hb⟩ := List.mem_flatMap.1 hb
        have := falling a ha b hb
        have := ranked a ha
        omega
    have layer : (roots.flatMap (f (n + 1))).Perm
        (roots.flatMap fun a => hold a ++ (next a).flatMap (f n)) :=
      List.Perm.flatMap_left roots fun a ha =>
        succ n (by omega) a (split.mem_iff.2 (List.mem_append_left _ ha))
    have parts : (roots.flatMap fun a => hold a ++ (next a).flatMap (f n)).Perm
        (roots.flatMap hold ++ (roots.flatMap next).flatMap (f n)) := by
      rw [List.flatMap_assoc]
      exact (List.flatMap_append_perm roots hold fun a => (next a).flatMap (f n)).symm
    have whole := split.flatMap_right hold
    rw [List.flatMap_append] at whole
    exact (layer.trans parts).trans ((deeper.append_left _).trans whole.symm)

end Wiring
