import Wiring.Factory.Signature
import Wiring.Proofs.Table

/-!
# Whether arguments fit a signature

That goes by the number of positional arguments and the names of keyword arguments, whatever the
arguments are.
-/

namespace Wiring.Signature

variable {α β : Type} {ks : Table α} {ls : Table β} {bound : Table α} (bound' : Table β)

theorem bindKeywords_congr {collecting : Bool} {parameters : List Parameter}
    (names : ks.names = ls.names)
    (h : ∃ b, bindKeywords bound collecting parameters ks = .ok b) :
    ∃ b, bindKeywords bound' collecting parameters ls = .ok b := by
  induction parameters generalizing collecting ks ls bound bound' with
  | nil =>
    cases ks with
    | nil =>
      obtain rfl : ls = [] := List.map_eq_nil_iff.1 names.symm
      exact ⟨bound', rfl⟩
    | cons k ks =>
      cases ls with
      | nil => cases names
      | cons l ls =>
        cases collecting with
        | true => exact ⟨bound', rfl⟩
        | false => simp [bindKeywords] at h
  | cons p ps ih =>
    obtain ⟨b, h⟩ := h
    unfold bindKeywords at h ⊢
    split at h
    · exact ih _ names ⟨b, h⟩
    · exact ih _ names ⟨b, h⟩
    next =>
      cases hk : ks.get? p.name with
      | none =>
        have hl : ls.get? p.name = none :=
          Table.get?_eq_none_iff.2 (names ▸ Table.get?_eq_none_iff.1 hk)
        simp only [hk, hl] at h ⊢
        split at h
        next hd =>
          rw [if_pos hd]
          exact ih _ names ⟨b, h⟩
        next => cases h
      | some a =>
        obtain ⟨a', hl⟩ := Table.exists_get? (names ▸ Table.mem_names (Table.mem_of_get? hk))
        simp only [hk, hl] at h ⊢
        split at h
        next => cases h
        next hp =>
          rw [if_neg hp]
          exact ih _ (by rw [Table.names_remove, Table.names_remove, names]) ⟨b, h⟩

theorem bindRemaining_congr {parameters : List Parameter} (names : ks.names = ls.names)
    (h : ∃ b, bindRemaining bound parameters ks = .ok b) :
    ∃ b, bindRemaining bound' parameters ls = .ok b := by
  obtain ⟨b, h⟩ := h
  have has (name : String) : ks.has name = ls.has name := by
    rw [Bool.eq_iff_iff, Table.has_iff, Table.has_iff, names]
  unfold bindRemaining at h ⊢
  cases parameters with
  | nil => exact bindKeywords_congr _ names ⟨b, h⟩
  | cons p ps =>
    simp only [has] at h
    dsimp only
    split at h
    next hr =>
      rw [if_pos hr]
      exact bindKeywords_congr _ names ⟨b, h⟩
    next hr =>
      rw [if_neg hr]
      split at h
      next hh =>
        rw [if_pos hh]
        split at h
        next => cases h
        next hp =>
          rw [if_neg hp]
          exact bindKeywords_congr _ names ⟨b, h⟩
      next hh =>
        rw [if_neg hh]
        split at h
        next hd =>
          rw [if_pos hd]
          exact bindKeywords_congr _ names ⟨b, h⟩
        next => cases h

theorem bindFrom_congr {parameters : List Parameter} {as : List α} {bs : List β}
    (length : as.length = bs.length) (names : ks.names = ls.names)
    (h : ∃ b, bindFrom bound parameters as ks = .ok b) :
    ∃ b, bindFrom bound' parameters bs ls = .ok b := by
  induction as generalizing bs parameters bound bound' with
  | nil =>
    obtain rfl : bs = [] := List.length_eq_zero_iff.1 length.symm
    unfold bindFrom at h ⊢
    exact bindRemaining_congr _ names h
  | cons a as ih =>
    obtain ⟨c, bs, rfl⟩ := List.exists_cons_of_length_eq_add_one length.symm
    obtain ⟨b, h⟩ := h
    cases parameters with
    | nil => cases h
    | cons p ps =>
      have has : ks.has p.name = ls.has p.name := by
        rw [Bool.eq_iff_iff, Table.has_iff, Table.has_iff, names]
      unfold bindFrom at h ⊢
      rw [has] at h
      split at h
      · cases h
      · cases h
      · exact bindKeywords_congr _ names ⟨b, h⟩
      next =>
        split at h
        next => cases h
        next hm =>
          rw [if_neg hm]
          exact ih _ (by simpa using length) ⟨b, h⟩

/-- Other arguments in the same places fit as well. -/
theorem bind_congr {parameters : List Parameter} {as : List α} {bs : List β}
    (length : as.length = bs.length) (names : ks.names = ls.names)
    (h : ∃ b, bind parameters as ks = .ok b) : ∃ b, bind parameters bs ls = .ok b :=
  bindFrom_congr _ length names h

end Wiring.Signature
